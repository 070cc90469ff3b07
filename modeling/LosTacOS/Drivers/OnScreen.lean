import LosTacOS.Drivers.Dirty

/-! Every call of the console keeps the cursor on the screen and leaves nothing but the dirty
rectangle to be copied, as long as tabs and motions have room. -/
namespace LosTacOS.Drivers

variable {u : Display} {s t : Console} {R : Nat → Nat → Prop}

structure OnScreen (u : Display) (s : Console) : Prop where
  synced : Synced u Nowhere s
  inside : Inside u s

section cursor

@[simp] theorem markDirty_cursorX (s : Console) (x y w h : Nat) :
    (s.markDirty x y w h).cursorX = s.cursorX := by
  unfold Console.markDirty
  split <;> rfl

@[simp] theorem markDirty_cursorY (s : Console) (x y w h : Nat) :
    (s.markDirty x y w h).cursorY = s.cursorY := by
  unfold Console.markDirty
  split <;> rfl

theorem foldl_keeps {α β : Type} {f : Console → α → Console} {g : Console → β}
    (hf : ∀ t p, g (f t p) = g t) (ps : List α) (s : Console) : g (ps.foldl f s) = g s := by
  induction ps generalizing s with
  | nil => rfl
  | cons p ps ih => exact (ih (f s p)).trans (hf s p)

theorem foldl_cursor {α : Type} {f : Console → α → Console}
    (hf : ∀ t p, (f t p).cursorX = t.cursorX ∧ (f t p).cursorY = t.cursorY) (ps : List α)
    (s : Console) :
    (ps.foldl f s).cursorX = s.cursorX ∧ (ps.foldl f s).cursorY = s.cursorY :=
  ⟨foldl_keeps (fun t p => (hf t p).1) ps s, foldl_keeps (fun t p => (hf t p).2) ps s⟩

theorem Inside.of_eq (h : Inside u s) (hx : t.cursorX = s.cursorX) (hy : t.cursorY = s.cursorY) :
    Inside u t :=
  ⟨hx ▸ h.x, hy ▸ h.y⟩

theorem Inside.markDirty (h : Inside u s) (x y w k : Nat) : Inside u (s.markDirty x y w k) :=
  h.of_eq (markDirty_cursorX s x y w k) (markDirty_cursorY s x y w k)

theorem swapRect_cursor (s : Console) (u : Display) (x y w h : Nat) :
    (s.swapRect u x y w h).cursorX = s.cursorX ∧ (s.swapRect u x y w h).cursorY = s.cursorY :=
  ⟨rfl, rfl⟩

theorem flushDirty_cursor (s : Console) (u : Display) :
    (s.flushDirty u).cursorX = s.cursorX ∧ (s.flushDirty u).cursorY = s.cursorY := by
  unfold Console.flushDirty
  by_cases h : s.hasDirty = true
  · rw [if_pos h]
    exact swapRect_cursor s u s.dirtyX0 s.dirtyY0 (Console.sub s.dirtyX1 s.dirtyX0)
      (Console.sub s.dirtyY1 s.dirtyY0)
  · rw [if_neg h]
    exact ⟨rfl, rfl⟩

theorem Inside.flushDirty (h : Inside u s) : Inside u (s.flushDirty u) :=
  h.of_eq (flushDirty_cursor s u).1 (flushDirty_cursor s u).2

theorem OnScreen.flushDirty (h : OnScreen u s) : OnScreen u (s.flushDirty u) :=
  ⟨h.synced.flushDirty, h.inside.flushDirty⟩

theorem OnScreen.mark {x y w k : Nat} (h : OnScreen u s) (hx : x + w ≤ u.width)
    (hy : y + k ≤ u.height) : OnScreen u (s.markDirty x y w k) :=
  ⟨h.synced.mark hx hy, h.inside.markDirty x y w k⟩

theorem OnScreen.markCell (h : OnScreen u s) (ht : Inside u t) :
    OnScreen u (s.markDirty t.cursorX t.cursorY (Console.charW u) (Console.charH u)) :=
  h.mark ht.x ht.y

end cursor

section operations

theorem Inside.pixel {p : Nat × Nat} (h : Inside u s)
    (hp : p ∈ cells 0 0 (Console.charW u) (Console.charH u)) :
    (s.cursorX + p.1) % word = s.cursorX + p.1 ∧ (s.cursorY + p.2) % word = s.cursorY + p.2 ∧
      s.cursorX + p.1 < u.width ∧ s.cursorY + p.2 < u.height ∧
      Rect s.cursorX s.cursorY (Console.charW u) (Console.charH u) (s.cursorX + p.1)
        (s.cursorY + p.2) := by
  obtain ⟨-, hx, -, hy⟩ := mem_cells hp
  have h1 := h.x
  have h2 := h.y
  have hW := u.width_lt
  have hH := u.height_lt
  refine ⟨Nat.mod_eq_of_lt (by omega), Nat.mod_eq_of_lt (by omega), by omega, by omega, ?_⟩
  unfold Rect
  omega

theorem OnScreen.drawCursorBlock (h : OnScreen u s) : OnScreen u (s.drawCursorBlock u) := by
  unfold Console.drawCursorBlock
  refine ⟨Synced.markDirty ?_ h.inside.x h.inside.y, Inside.markDirty ?_ _ _ _ _⟩
  · refine Synced.foldl (fun p hp t ht => ?_) (h.synced.mono fun _ _ _ _ hc => hc.elim)
    obtain ⟨hx, hy, hxW, hyH, hrect⟩ := h.inside.pixel hp
    simp only [hx, hy]
    exact ht.putPixelUnchecked hxW hyH hrect _
  · obtain ⟨hx, hy⟩ := foldl_cursor (f := fun (t : Console) (p : Nat × Nat) =>
      t.putPixelUnchecked u ((s.cursorX + p.1) % word) ((s.cursorY + p.2) % word)
        (u.getPixel t.back ((s.cursorX + p.1) % word) ((s.cursorY + p.2) % word) ^^^ 0x00FFFFFF))
      (fun _ _ => ⟨rfl, rfl⟩) (cells 0 0 (Console.charW u) (Console.charH u)) s
    exact h.inside.of_eq hx hy

theorem OnScreen.set (h : OnScreen u s) {cursorX cursorY : Nat}
    (hx : cursorX + Console.charW u ≤ u.width) (hy : cursorY + Console.charH u ≤ u.height)
    (fg bg : UInt32) (bold reverse cursorVisible : Bool) (blinkCounter : Nat) (escape : Bool)
    (ansi : List UInt8) :
    OnScreen u { s with cursorX, cursorY, fg, bg, bold, reverse, cursorVisible, blinkCounter,
                        escape, ansi } :=
  ⟨h.synced.set _ _ _ _ _ _ _ _ _ _, ⟨hx, hy⟩⟩

theorem OnScreen.setText (h : OnScreen u s) (fg bg : UInt32) (bold reverse cursorVisible : Bool)
    (blinkCounter : Nat) (escape : Bool) (ansi : List UInt8) :
    OnScreen u { s with fg, bg, bold, reverse, cursorVisible, blinkCounter, escape, ansi } :=
  h.set h.inside.x h.inside.y _ _ _ _ _ _ _ _

theorem OnScreen.hideCursor (h : OnScreen u s) : OnScreen u (s.hideCursor u) := by
  unfold Console.hideCursor
  split
  · exact h.drawCursorBlock.setText _ _ _ _ _ _ _ _
  · exact h

theorem Synced.scroll (h : Synced u Nowhere s) : Synced u Nowhere (s.scroll u) := by
  unfold Console.scroll
  dsimp only
  split
  · exact h
  · exact (h.repaint _).markDirty (by omega) (by omega)

theorem scroll_cursor (s : Console) (u : Display) :
    (s.scroll u).cursorX = s.cursorX ∧ (s.scroll u).cursorY = s.cursorY := by
  unfold Console.scroll
  dsimp only
  split <;> simp

theorem newline_onScreen (hs : Synced u Nowhere s) (hy : s.cursorY + Console.charH u ≤ u.height) :
    OnScreen u (s.newline u) := by
  have hW : Console.charW u ≤ u.width := by
    simpa [Console.charW, scale] using u.fontWidth_le
  have hH := u.height_lt
  have hc : Console.charH u ≤ u.height := by
    simpa [Console.charH, scale] using u.fontHeight_le
  have hmod : (s.cursorY + Console.charH u) % word = s.cursorY + Console.charH u :=
    Nat.mod_eq_of_lt (by omega)
  have hnext : (s.cursorY + Console.charH u + Console.charH u) % word =
      s.cursorY + Console.charH u + Console.charH u := Nat.mod_eq_of_lt (by omega)
  simp only [Console.newline, hmod, hnext]
  split
  · obtain ⟨hx', hy'⟩ := scroll_cursor
      { s with cursorX := 0, cursorY := s.cursorY + Console.charH u } u
    refine ⟨(hs.set 0 _ _ _ _ _ _ _ _ _).scroll.set _ _ _ _ _ _ _ _ _ _, ⟨?_, ?_⟩⟩
    · simpa [hx'] using hW
    · simp only [hy']
      rw [sub_of_le (by omega) (by omega)]
      omega
  · exact ⟨hs.set _ _ _ _ _ _ _ _ _ _, ⟨by simpa using hW, by dsimp only; omega⟩⟩

theorem OnScreen.newline (h : OnScreen u s) : OnScreen u (s.newline u) :=
  newline_onScreen h.synced h.inside.y

theorem mem_glyphPixels {glyph : Nat → UInt8} {p : Nat × Nat × UInt32}
    (hp : p ∈ s.glyphPixels u glyph) : p.1 < u.font.width ∧ p.2.1 < u.font.height := by
  simp only [Console.glyphPixels, List.mem_flatMap, List.mem_map, List.mem_filter, List.mem_range,
    decide_eq_true_eq] at hp
  obtain ⟨row, hrow, byte, -, bit, ⟨-, hbit⟩, rfl⟩ := hp
  exact ⟨hbit, hrow⟩

theorem OnScreen.drawChar (h : OnScreen u s) (c : UInt8) : OnScreen u (s.drawChar u c) := by
  have hW := u.width_lt
  have hH := u.height_lt
  have hx : s.cursorX + u.font.width ≤ u.width := by
    simpa [Console.charW, scale] using h.inside.x
  have hy : s.cursorY + u.font.height ≤ u.height := by
    simpa [Console.charH, scale] using h.inside.y
  unfold Console.drawChar
  cases u.font.glyph c with
  | none => exact h
  | some glyph =>
    have hdraw : Synced u (Rect s.cursorX s.cursorY u.font.width u.font.height)
        ((s.glyphPixels u glyph).foldl (fun t p => t.putPixelUnchecked u
          ((s.cursorX + p.1) % word) ((s.cursorY + p.2.1) % word) p.2.2) s) := by
      refine Synced.foldl (fun p hp t ht => ?_) (h.synced.mono fun _ _ _ _ hc => hc.elim)
      obtain ⟨h1, h2⟩ := mem_glyphPixels hp
      rw [Nat.mod_eq_of_lt (show s.cursorX + p.1 < word by omega),
        Nat.mod_eq_of_lt (show s.cursorY + p.2.1 < word by omega)]
      refine ht.putPixelUnchecked (by omega) (by omega) ?_ _
      unfold Rect
      omega
    obtain ⟨hcx, hcy⟩ := foldl_cursor (f := fun (t : Console) (p : Nat × Nat × UInt32) =>
      t.putPixelUnchecked u ((s.cursorX + p.1) % word) ((s.cursorY + p.2.1) % word) p.2.2)
      (fun _ _ => ⟨rfl, rfl⟩) (s.glyphPixels u glyph) s
    dsimp only
    generalize (s.glyphPixels u glyph).foldl (fun t p => t.putPixelUnchecked u
      ((s.cursorX + p.1) % word) ((s.cursorY + p.2.1) % word) p.2.2) s = t at hdraw hcx hcy ⊢
    have hmark := hdraw.markDirty hx hy
    simp only [markDirty_cursorX, hcx]
    have h1 : (s.cursorX + u.font.width) % word = s.cursorX + u.font.width :=
      Nat.mod_eq_of_lt (by omega)
    have h2 : (s.cursorX + u.font.width + u.font.width) % word =
      s.cursorX + u.font.width + u.font.width := Nat.mod_eq_of_lt (by omega)
    rw [h1, h2]
    split
    · apply newline_onScreen (hmark.set _ _ _ _ _ _ _ _ _ _)
      simpa [hcy] using h.inside.y
    · refine ⟨hmark.set _ _ _ _ _ _ _ _ _ _, ⟨?_, ?_⟩⟩
      · simp only [Console.charW, scale]
        omega
      · simpa [hcy] using h.inside.y

theorem toInt_of_lt {n : Nat} (h : 2 * n < word) : toInt n = n := by
  apply Int.bmod_eq_of_le <;> omega

theorem Synced.fillRect {x y w h : Nat} (hs : Synced u Nowhere s) (hx : x + w ≤ u.width)
    (hy : y + h ≤ u.height) (color : UInt32) :
    Synced u (Rect x y w h) (s.fillRect u (toInt x) (toInt y) (toInt w) (toInt h) color) := by
  have hW := u.width_lt
  have hH := u.height_lt
  rw [toInt_of_lt (show 2 * x < word by omega), toInt_of_lt (show 2 * y < word by omega),
    toInt_of_lt (show 2 * w < word by omega), toInt_of_lt (show 2 * h < word by omega)]
  have hs' : Synced u (Rect x y w h) s := hs.mono fun _ _ _ _ hc => hc.elim
  unfold Console.fillRect
  split
  · exact hs'
  · rename_i hpos
    rw [if_neg (show ¬ ((x : Int) < 0) by omega), if_neg (show ¬ ((y : Int) < 0) by omega)]
    dsimp only
    rw [if_neg (show ¬ ((u.width : Int) < (x : Int) + w) by omega),
      if_neg (show ¬ ((u.height : Int) < (y : Int) + h) by omega), if_neg hpos]
    refine Synced.foldl (fun p hp t ht => ?_) hs'
    have hrect := mem_cells hp
    obtain ⟨h1, h2, h3, h4⟩ := hrect
    simp only [Int.toNat_natCast] at h1 h2 h3 h4
    exact ht.pixel (by omega) (by omega) ⟨h1, h2, h3, h4⟩ color

theorem fillRect_cursor (s : Console) (u : Display) (x y w h : Int) (color : UInt32) :
    (s.fillRect u x y w h color).cursorX = s.cursorX ∧
      (s.fillRect u x y w h color).cursorY = s.cursorY := by
  unfold Console.fillRect
  by_cases hempty : w ≤ 0 ∨ h ≤ 0
  · rw [if_pos hempty]
    exact ⟨rfl, rfl⟩
  · rw [if_neg hempty]
    dsimp only
    generalize (if x < 0 then ((0 : Int), w + x) else (x, w)) = xw
    generalize (if y < 0 then ((0 : Int), h + y) else (y, h)) = yh
    generalize (if (u.width : Int) < xw.1 + xw.2 then (u.width : Int) - xw.1 else xw.2) = w'
    generalize (if (u.height : Int) < yh.1 + yh.2 then (u.height : Int) - yh.1 else yh.2) = h'
    split
    · exact ⟨rfl, rfl⟩
    · apply foldl_cursor
      intro _ _
      exact ⟨rfl, rfl⟩

theorem OnScreen.clearLine (h : OnScreen u s) (mode : Int) : OnScreen u (s.clearLine u mode) := by
  have hW := u.width_lt
  have hx := h.inside.x
  unfold Console.clearLine
  dsimp only
  generalize hstart : (if mode = 0 then s.cursorX else 0) = start
  generalize hstop : (if mode = 1 then s.cursorX else u.width) = stop
  have hle : start ≤ stop ∧ stop ≤ u.width := by
    rw [← hstart, ← hstop]
    split <;> split <;> omega
  rw [sub_of_le hle.1 (by omega)]
  have hin : start + (stop - start) ≤ u.width := by omega
  obtain ⟨hcx, hcy⟩ := fillRect_cursor s u (toInt start) (toInt s.cursorY) (toInt (stop - start : Nat))
    (toInt (Console.charH u)) s.bg
  exact ⟨(h.synced.fillRect hin h.inside.y s.bg).markDirty hin h.inside.y,
    (h.inside.of_eq hcx hcy).markDirty _ _ _ _⟩

theorem clearBack_eq (s : Console) (u : Display) (color : UInt32) :
    s.clearBack u color = { s with back := (s.clearBack u color).back } := by
  unfold Console.clearBack
  generalize cells 0 0 u.width u.height = ps
  induction ps generalizing s with
  | nil => rfl
  | cons p ps ih =>
    rw [List.foldl_cons, ih]

theorem OnScreen.clear (h : OnScreen u s) : OnScreen u (s.clear u) := by
  have hW : Console.charW u ≤ u.width := by
    simpa [Console.charW, scale] using u.fontWidth_le
  have hH : Console.charH u ≤ u.height := by
    simpa [Console.charH, scale] using u.fontHeight_le
  unfold Console.clear
  rw [clearBack_eq]
  apply OnScreen.flushDirty
  have hsynced := (h.synced.repaint (s.clearBack u s.bg).back).set 0 0 s.fg s.bg s.bold s.reverse
    s.cursorVisible s.blinkCounter s.escape s.ansi
  exact ⟨hsynced.markDirty (by omega) (by omega),
    Inside.markDirty ⟨by simpa using hW, by simpa using hH⟩ _ _ _ _⟩

theorem OnScreen.moveTo {x y : Nat} (h : OnScreen u s) (hx : x + Console.charW u ≤ u.width)
    (hy : y + Console.charH u ≤ u.height) : OnScreen u (s.moveTo u x y) := by
  have hmark := (h.markCell h.inside).set hx hy
  exact ((hmark _ _ _ _ _ _ _ _).mark hx hy).flushDirty

theorem OnScreen.ansiCode (h : OnScreen u s) (code : Int) : OnScreen u (s.ansiCode code) := by
  unfold Console.ansiCode
  split_ifs
  all_goals try exact h.setText _ _ _ _ _ _ _ _
  split
  all_goals exact h.setText _ _ _ _ _ _ _ _

theorem indexOf_inside {size cell : Nat} (n : Int) (hpos : 0 < cell) (hle : cell ≤ size) :
    Console.indexOf n (size / cell) * cell + cell ≤ size := by
  have hone : 1 ≤ size / cell := (Nat.one_le_div_iff hpos).mpr hle
  have hlt : Console.indexOf n (size / cell) + 1 ≤ size / cell := by
    unfold Console.indexOf
    dsimp only
    generalize (if 0 < n then (n - 1).toNat else 0) = r
    split <;> omega
  have h := Nat.mul_le_mul_right cell hlt
  rw [Nat.add_mul, Nat.one_mul] at h
  exact h.trans (Nat.div_mul_le_self size cell)

theorem stepBack_le (pos delta : Nat) : Console.stepBack pos delta ≤ pos := by
  unfold Console.stepBack
  split <;> omega

end operations

def Console.StaysCsi (u : Display) (s : Console) : Option (UInt8 × List Int) → Prop
  | some (c, nums) =>
    (c = 66 → stepForth s.cursorY (times (countOf nums) (charH u)) u.height (charH u) + charH u ≤
      u.height) ∧
    (c = 67 → stepForth s.cursorX (times (countOf nums) (charW u)) u.width (charW u) + charW u ≤
      u.width)
  | none => True

def Console.csiOf (text : List UInt8) : Option (UInt8 × List Int) :=
  match text.takeWhile (· ≠ 0) with
  | 91 :: 63 :: _ => none
  | 91 :: rest => parseCsi rest 0 false []
  | _ => none

def Console.completed (s : Console) (c : UInt8) : Option (UInt8 × List Int) :=
  let ansi := if s.ansi.length < 15 then s.ansi ++ [c] else s.ansi
  if isLetter c ∨ 15 ≤ ansi.length then csiOf ansi else none

/-- A byte keeps the cursor on the screen: a tab has room for four cells and the cursor, a motion
down or to the right does not end between the last cell and the edge. -/
def Console.StaysPut (u : Display) (s : Console) (c : UInt8) : Prop :=
  if c = 27 then True
  else if s.escape then s.StaysCsi u (s.completed c)
  else c = 9 → s.cursorX + 4 * charW u + charW u ≤ u.width

def Console.StaysWrite (u : Display) : Console → List UInt8 → Prop
  | _, [] => True
  | s, c :: buf => s.StaysPut u c ∧ (s.put u c).StaysWrite u buf

def Console.Stays (u : Display) (s : Console) : ConsoleCall → Prop
  | .put c => s.StaysPut u c
  | .write buf => s.StaysWrite u buf
  | .backspace | .clear | .cursorTick => True

def Console.StaysAlong (u : Display) : Console → List ConsoleCall → Prop
  | _, [] => True
  | s, c :: calls => s.Stays u c ∧ (s.call u c).StaysAlong u calls

instance (u : Display) (s : Console) : (r : Option (UInt8 × List Int)) → Decidable (s.StaysCsi u r)
  | some _ => inferInstanceAs (Decidable (_ ∧ _))
  | none => inferInstanceAs (Decidable True)

instance (u : Display) (s : Console) (c : UInt8) : Decidable (s.StaysPut u c) :=
  inferInstanceAs (Decidable (if c = 27 then True else if s.escape then _ else _))

instance decidableStaysWrite (u : Display) :
    (s : Console) → (buf : List UInt8) → Decidable (s.StaysWrite u buf)
  | _, [] => inferInstanceAs (Decidable True)
  | s, c :: buf =>
    have := decidableStaysWrite u (s.put u c) buf
    inferInstanceAs (Decidable (_ ∧ _))

instance (u : Display) (s : Console) : (c : ConsoleCall) → Decidable (s.Stays u c)
  | .put _ => inferInstanceAs (Decidable (s.StaysPut u _))
  | .write _ => inferInstanceAs (Decidable (s.StaysWrite u _))
  | .backspace | .clear | .cursorTick => inferInstanceAs (Decidable True)

instance decidableStaysAlong (u : Display) :
    (s : Console) → (calls : List ConsoleCall) → Decidable (s.StaysAlong u calls)
  | _, [] => inferInstanceAs (Decidable True)
  | s, c :: calls =>
    have := decidableStaysAlong u (s.call u c) calls
    inferInstanceAs (Decidable (_ ∧ _))

section calls

theorem charW_pos (u : Display) : 0 < Console.charW u := by
  simpa [Console.charW, scale] using u.fontWidth_pos

theorem charH_pos (u : Display) : 0 < Console.charH u := by
  simpa [Console.charH, scale] using u.fontHeight_pos

theorem charW_le (u : Display) : Console.charW u ≤ u.width := by
  simpa [Console.charW, scale] using u.fontWidth_le

theorem charH_le (u : Display) : Console.charH u ≤ u.height := by
  simpa [Console.charH, scale] using u.fontHeight_le

theorem OnScreen.csi {c : UInt8} {nums : List Int} (h : OnScreen u s)
    (hstays : s.StaysCsi u (some (c, nums))) : OnScreen u (s.csi u c nums) := by
  have hx := h.inside.x
  have hy := h.inside.y
  unfold Console.csi
  split_ifs with h1 h2 h3 h4 h5 h6 h7 h8 h8 h9
  · exact h.moveTo (indexOf_inside _ (charW_pos u) (charW_le u))
      (indexOf_inside _ (charH_pos u) (charH_le u))
  · refine h.moveTo hx ?_
    have := stepBack_le s.cursorY (Console.times (Console.countOf nums) (Console.charH u))
    omega
  · exact h.moveTo hx (hstays.1 h3)
  · exact h.moveTo (hstays.2 h4) hy
  · refine h.moveTo ?_ hy
    have := stepBack_le s.cursorX (Console.times (Console.countOf nums) (Console.charW u))
    omega
  · exact (h.clearLine _).flushDirty
  · exact h.clear.flushDirty
  · exact h.flushDirty
  · exact h.ansiCode 0
  · clear hstays h9 hx hy
    induction nums generalizing s with
    | nil => exact h
    | cons n nums ih => exact ih (h.ansiCode n)
  · exact h

theorem OnScreen.handleAnsi {text : List UInt8} (h : OnScreen u s)
    (hstays : s.StaysCsi u (Console.csiOf text)) : OnScreen u (s.handleAnsi u text) := by
  unfold Console.handleAnsi
  unfold Console.csiOf at hstays
  split
  · rename_i rest heq
    dsimp only
    split_ifs
    · exact h.setText _ _ _ _ _ _ _ _
    · exact h.drawCursorBlock.setText _ _ _ _ _ _ _ _
    · exact h
  · rename_i rest hne heq
    rw [heq] at hstays
    cases hp : Console.parseCsi rest 0 false [] with
    | none => exact h
    | some r =>
      dsimp only
      apply h.csi
      simpa [hp] using hstays
  · exact h

def Console.text (s : Console) : Nat × Nat × Bool × List UInt8 :=
  (s.cursorX, s.cursorY, s.escape, s.ansi)

theorem markDirty_text (s : Console) (x y w h : Nat) : (s.markDirty x y w h).text = s.text := by
  unfold Console.markDirty
  split <;> rfl

theorem hideCursor_text (s : Console) (u : Display) : (s.hideCursor u).text = s.text := by
  unfold Console.hideCursor
  split
  · unfold Console.drawCursorBlock
    refine (markDirty_text _ _ _ _ _).trans (foldl_keeps (g := Console.text) ?_ _ s)
    intro _ _
    rfl
  · rfl

theorem staysPut_congr (htext : t.text = s.text) (c : UInt8) : t.StaysPut u c ↔ s.StaysPut u c := by
  simp only [Console.text, Prod.mk.injEq] at htext
  obtain ⟨hx, hy, hescape, hansi⟩ := htext
  have hcompleted : t.completed c = s.completed c := by
    unfold Console.completed
    rw [hansi]
  unfold Console.StaysPut
  rw [hescape, hx, hcompleted]
  cases s.completed c with
  | none => rfl
  | some r =>
    simp only [Console.StaysCsi, hx, hy]

theorem staysPut_hideCursor (c : UInt8) : (s.hideCursor u).StaysPut u c ↔ s.StaysPut u c :=
  staysPut_congr (hideCursor_text s u) c

theorem OnScreen.putAnsi {c : UInt8} (h : OnScreen u s) (hstays : s.StaysCsi u (s.completed c)) :
    OnScreen u (s.putAnsi u c) := by
  unfold Console.putAnsi
  unfold Console.completed at hstays
  dsimp only at hstays ⊢
  apply OnScreen.flushDirty
  generalize (if s.ansi.length < 15 then s.ansi ++ [c] else s.ansi) = ansi at hstays ⊢
  have h' : OnScreen u { s with ansi } := h.setText _ _ _ _ _ _ _ _
  split
  · rename_i hend
    rw [if_pos hend] at hstays
    refine (@OnScreen.handleAnsi u _ ansi h' ?_).setText _ _ _ _ _ _ _ _
    cases hcsi : Console.csiOf ansi with
    | none => trivial
    | some r =>
      rw [hcsi] at hstays
      exact hstays
  · exact h'

theorem putPixel_cursor (s : Console) (u : Display) (x y : Nat) (color : UInt32) :
    (s.putPixel u x y color).cursorX = s.cursorX ∧ (s.putPixel u x y color).cursorY = s.cursorY := by
  unfold Console.putPixel
  split <;> exact ⟨rfl, rfl⟩

/-- The cell that is erased lies on the screen, and so does the one that was left. -/
theorem OnScreen.eraseCell {oldX oldY : Nat} (h : OnScreen u s)
    (hx : oldX + Console.charW u ≤ u.width) (hy : oldY + Console.charH u ≤ u.height) :
    OnScreen u (s.eraseCell u oldX oldY) := by
  obtain ⟨hcx, hcy⟩ := foldl_cursor (f := fun (t : Console) (p : Nat × Nat) =>
      t.putPixel u ((s.cursorX + p.1) % word) ((s.cursorY + p.2) % word) s.bg)
    (fun _ _ => putPixel_cursor _ _ _ _ _) (cells 0 0 (Console.charW u) (Console.charH u)) s
  unfold Console.eraseCell
  refine OnScreen.flushDirty (OnScreen.mark ⟨?_, (h.inside.of_eq hcx hcy).markDirty _ _ _ _⟩ hx hy)
  refine Synced.markDirty ?_ h.inside.x h.inside.y
  refine Synced.foldl (fun p hp t ht => ?_) (h.synced.mono fun _ _ _ _ hc => hc.elim)
  obtain ⟨h1, h2, -, -, hrect⟩ := h.inside.pixel hp
  rw [h1, h2]
  exact ht.putPixel hrect _

theorem lastCell_inside (u : Display) :
    (u.width / Console.charW u - 1) * Console.charW u + Console.charW u ≤ u.width := by
  have hone := (Nat.one_le_div_iff (charW_pos u)).mpr (charW_le u)
  rw [← Nat.succ_mul, Nat.succ_eq_add_one, Nat.sub_add_cancel hone]
  exact Nat.div_mul_le_self _ _

theorem OnScreen.backspace (h : OnScreen u s) : OnScreen u (s.backspace u) := by
  have hh := h.hideCursor
  have hx := hh.inside.x
  have hy := hh.inside.y
  unfold Console.backspace
  dsimp only
  split_ifs with h1 h2
  · exact (hh.set (by omega) hy _ _ _ _ _ _ _ _).eraseCell hx hy
  · exact (hh.set (lastCell_inside u) (by omega) _ _ _ _ _ _ _ _).eraseCell hx hy
  · exact hh

theorem OnScreen.put {c : UInt8} (h : OnScreen u s) (hstays : s.StaysPut u c) :
    OnScreen u (s.put u c) := by
  have hh := h.hideCursor
  have hW := charW_le u
  rw [← staysPut_hideCursor] at hstays
  unfold Console.put
  dsimp only
  generalize s.hideCursor u = r at hh hstays ⊢
  unfold Console.StaysPut at hstays
  split_ifs with h1 h2 h3 h4 h5 h6 h7
  · exact hh.setText _ _ _ _ _ _ _ _
  · rw [if_neg h1, if_pos h2] at hstays
    exact hh.putAnsi hstays
  · exact hh.newline.flushDirty
  · exact hh.set (by omega) hh.inside.y _ _ _ _ _ _ _ _
  · exact hh.backspace
  · rw [if_neg h1, if_neg h2] at hstays
    have hroom := hstays h6
    have hlt := u.width_lt
    have hmod : (r.cursorX + 4 * Console.charW u) % word = r.cursorX + 4 * Console.charW u :=
      Nat.mod_eq_of_lt (by omega)
    rw [hmod]
    exact (hh.set hroom hh.inside.y _ _ _ _ _ _ _ _).flushDirty
  · exact (hh.newline.drawChar c).flushDirty
  · exact (hh.drawChar c).flushDirty

theorem OnScreen.write {buf : List UInt8} (h : OnScreen u s) (hstays : s.StaysWrite u buf) :
    OnScreen u (s.write u buf) := by
  induction buf generalizing s with
  | nil => exact h
  | cons c buf ih => exact ih (h.put hstays.1) hstays.2

theorem OnScreen.cursorTick (h : OnScreen u s) : OnScreen u (s.cursorTick u) := by
  unfold Console.cursorTick
  dsimp only
  split
  · exact OnScreen.flushDirty (OnScreen.drawCursorBlock (h.setText _ _ _ _ _ _ _ _))
  · exact h.setText _ _ _ _ _ _ _ _

theorem OnScreen.call {c : ConsoleCall} (h : OnScreen u s) (hstays : s.Stays u c) :
    OnScreen u (s.call u c) := by
  cases c with
  | put c => exact h.put hstays
  | write buf => exact h.write hstays
  | backspace => exact h.backspace
  | clear => exact h.clear
  | cursorTick => exact h.cursorTick

theorem OnScreen.init (u : Display) : OnScreen u Console.init := by
  refine ⟨⟨fun hc => Bool.noConfusion hc, fun _ => ⟨rfl, rfl, rfl, rfl⟩, fun _ _ _ _ _ _ _ _ => rfl,
    fun r hr => (List.not_mem_nil hr).elim, fun p hp => (List.not_mem_nil hp).elim⟩, ⟨?_, ?_⟩⟩
  · simpa [Console.init] using charW_le u
  · simpa [Console.init] using charH_le u

theorem OnScreen.run {calls : List ConsoleCall} (h : OnScreen u s)
    (hstays : s.StaysAlong u calls) : OnScreen u (calls.foldl (Console.call u) s) := by
  induction calls generalizing s with
  | nil => exact h
  | cons c calls ih => exact ih (h.call hstays.1) hstays.2

end calls

/-- A small screen: two rows of `columns` cells of 8 by 8 pixels. -/
def screen (columns : Nat) (hpos : 0 < columns) (hle : columns ≤ 100) : Display where
  width := columns * 8
  height := 16
  pitch := columns * 32
  bytesPerPx := 4
  font := { width := 8, height := 8, bytesPerRow := 1, glyph := fun _ => some fun _ => 0x55 }
  depth := .inr (.inr rfl)
  row_le := by omega
  size_lt := by
    dsimp only [word]
    omega
  fontWidth_pos := by decide
  fontHeight_pos := by decide
  fontWidth_le := by
    dsimp only
    omega
  fontHeight_le := by decide

abbrev wide : Display := screen 8 (by decide) (by decide)

abbrev narrow : Display := screen 2 (by decide) (by decide)

def tour : List ConsoleCall := [.write [9, 65, 27, 91, 66], .cursorTick]

/-- Outside the dirty rectangle the screen shows the back buffer, and only pixels of the screen
were copied. -/
theorem shown_outside_dirty (u : Display) (calls : List ConsoleCall)
    (hstays : Console.init.StaysAlong u calls) :
    (∀ x < u.width, ∀ y < u.height, ¬ (calls.foldl (Console.call u) Console.init).Dirty x y →
      ∀ i < u.bytesPerPx, (calls.foldl (Console.call u) Console.init).front (u.at_ x y + i) =
        (calls.foldl (Console.call u) Console.init).back (u.at_ x y + i)) ∧
      ∀ r ∈ (calls.foldl (Console.call u) Console.init).swaps,
        r.1 + r.2.2.1 ≤ u.width ∧ r.2.1 + r.2.2.2 ≤ u.height :=
  have h := ((OnScreen.init u).run hstays).synced
  ⟨fun x hx y hy hd i hi => h.same x hx y hy hd (fun hc => hc) i hi, h.swaps⟩

theorem shown_outside_dirty_tour :
    Console.init.StaysAlong wide tour ∧
      (∀ x < wide.width, ∀ y < wide.height,
        ¬ (tour.foldl (Console.call wide) Console.init).Dirty x y → ∀ i < wide.bytesPerPx,
          (tour.foldl (Console.call wide) Console.init).front (wide.at_ x y + i) =
            (tour.foldl (Console.call wide) Console.init).back (wide.at_ x y + i)) ∧
      ∀ r ∈ (tour.foldl (Console.call wide) Console.init).swaps,
        r.1 + r.2.2.1 ≤ wide.width ∧ r.2.1 + r.2.2.2 ≤ wide.height :=
  have hstays : Console.init.StaysAlong wide tour := by decide
  ⟨hstays, shown_outside_dirty wide tour hstays⟩

/-- A tab over the edge and a step up: the copied rectangle starts behind the edge. -/
theorem tab_copies_off_screen : ¬ ∀ calls : List ConsoleCall,
    ∀ r ∈ (calls.foldl (Console.call narrow) Console.init).swaps,
      r.1 + r.2.2.1 ≤ narrow.width ∧ r.2.1 + r.2.2.2 ≤ narrow.height := by
  intro h
  have hmem : (32, 0, 8, 8) ∈ (([.write [9, 27, 91, 65]] : List ConsoleCall).foldl
      (Console.call narrow) Console.init).swaps := by
    decide
  exact absurd (h _ _ hmem).1 (by decide)

end LosTacOS.Drivers
