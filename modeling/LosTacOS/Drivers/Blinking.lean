import LosTacOS.Drivers.Interrupted

/-! Whatever ticks come between the stores of a call, no pixel is drawn outside of the screen, as long
as tabs and motions have room and no tick draws the cursor while it is over the edge. -/
namespace LosTacOS.Drivers

abbrev Text := Nat × Nat × Bool × List UInt8

def InCell (u : Display) (T : Text) : Prop :=
  T.1 + Console.charW u ≤ u.width ∧ T.2.1 + Console.charH u ≤ u.height

/-- The text is as `Q` says, and what was drawn without a check lies on the screen. -/
structure On (u : Display) (Q : Text → Prop) (s : Console) : Prop where
  text : Q s.text
  drawn : ∀ p ∈ s.unchecked, p.1 < u.width ∧ p.2 < u.height

variable {u : Display} {s s' : Console} {Q P : Text → Prop}

theorem On.mono (h : On u Q s) (hQ : Q s.text → P s.text) : On u P s :=
  ⟨hQ h.text, h.drawn⟩

theorem On.set {cursorX cursorY blinkCounter dirtyX0 dirtyY0 dirtyX1 dirtyY1 : Nat}
    {escape bold reverse cursorVisible hasDirty : Bool} {ansi : List UInt8} {fg bg : UInt32}
    {back front : Buffer} {swaps : List (Nat × Nat × Nat × Nat)} (h : On u Q s)
    (hQ : Q s.text → P (cursorX, cursorY, escape, ansi)) :
    On u P { s with cursorX, cursorY, escape, ansi, fg, bg, bold, reverse, cursorVisible,
                     blinkCounter, dirtyX0, dirtyY0, dirtyX1, dirtyY1, hasDirty, back, front,
                     swaps } :=
  ⟨hQ h.text, h.drawn⟩

theorem On.putPixelUnchecked {x y : Nat} (h : On u Q s) (hx : x < u.width) (hy : y < u.height)
    (color : UInt32) : On u Q (s.putPixelUnchecked u x y color) := by
  refine ⟨h.text, fun q hq => ?_⟩
  cases hq with
  | head => exact ⟨hx, hy⟩
  | tail _ hq => exact h.drawn q hq

theorem On.pixel {x y : Nat} (h : On u Q s) (hfits : InCell u s.text) (hx : x < Console.charW u)
    (hy : y < Console.charH u) (color : UInt32) :
    On u Q (s.putPixelUnchecked u ((s.cursorX + x) % word) ((s.cursorY + y) % word) color) := by
  have hW := u.width_lt
  have hH := u.height_lt
  obtain ⟨hX, hY⟩ : s.cursorX + Console.charW u ≤ u.width ∧
    s.cursorY + Console.charH u ≤ u.height := hfits
  rw [Nat.mod_eq_of_lt (show s.cursorX + x < word by omega),
    Nat.mod_eq_of_lt (show s.cursorY + y < word by omega)]
  exact h.putPixelUnchecked (by omega) (by omega) color

theorem markDirty_on (h : On u Q s) (x y width height : Nat) :
    On u Q (s.markDirty x y width height) := by
  unfold Console.markDirty
  split
  · exact h
  · exact h.set id

theorem flushDirty_on (h : On u Q s) : On u Q (s.flushDirty u) := by
  unfold Console.flushDirty Console.swapRect
  split
  · exact h.set id
  · exact h

theorem ansiCode_on (h : On u Q s) (code : Int) : On u Q (s.ansiCode code) := by
  unfold Console.ansiCode
  split_ifs
  all_goals try exact h.set id
  split
  all_goals exact h.set id

theorem drawCursorBlock_on (h : On u Q s) (hfits : InCell u s.text) :
    On u Q (s.drawCursorBlock u) := by
  unfold Console.drawCursorBlock
  refine markDirty_on ?_ _ _ _ _
  -- the loop draws where the cursor was at first: no pixel moves it
  refine On.mono (Q := (· = s.text)) ?_ fun he => he ▸ h.text
  refine List.foldlRecOn (motive := On u (· = s.text)) _ _ ⟨rfl, h.drawn⟩ ?_
  intro t ht p hp
  obtain ⟨-, hx, -, hy⟩ := mem_cells hp
  have htext := ht.text
  simp only [Console.text, Prod.mk.injEq] at htext
  rw [← htext.1, ← htext.2.1]
  exact ht.pixel (ht.text ▸ hfits) (by omega) (by omega) _

/-- A tick leaves the text alone, and draws on the screen if the cursor is there. -/
theorem cursorTick_on (h : On u Q s) (hfits : InCell u s.text) : On u Q (s.cursorTick u) := by
  unfold Console.cursorTick
  dsimp only
  split
  · exact flushDirty_on (drawCursorBlock_on (h.set id) hfits)
  · exact h.set id

namespace Underway

variable {t : Underway} {w : Option Overhang} {f : Console → Console}

def Holds (t : Underway) (A : Console → Prop) : Prop := t.struck ≠ [] ∨ A t.console

theorem Holds.imp {A A' : Console → Prop} (h : t.Holds A) (hA : A t.console → A' t.console) :
    t.Holds A' :=
  Or.imp id hA h

theorem Holds.tick (h : t.Holds (On u Q)) (hw : w = none → ∀ T, Q T → InCell u T) :
    (t.tick u w).Holds (On u Q) := by
  rcases h with h | h
  · left
    unfold Underway.tick
    dsimp only
    split
    · exact fun hc => h (List.append_eq_nil_iff.mp hc).2
    · exact h
  · cases w with
    | none => exact .inr (cursorTick_on h (hw rfl _ h.text))
    | some w =>
      unfold Underway.tick
      by_cases hcount : 120 ≤ (t.console.blinkCounter + 1) % word
      · left
        simp [hcount]
      · right
        simp only [Console.cursorTick, if_neg hcount]
        exact h.set id

theorem Holds.iterate (h : t.Holds (On u Q)) (hw : w = none → ∀ T, Q T → InCell u T) (n : Nat) :
    ((Underway.tick u w)^[n] t).Holds (On u Q) := by
  induction n with
  | zero => exact h
  | succ n ih =>
    rw [Function.iterate_succ_apply']
    exact ih.tick hw

theorem Holds.pause (h : t.Holds (On u Q))
    (hw : w = none → On u Q t.console → InCell u t.console.text) :
    (t.pause u w).Holds (On u Q) := by
  have hboth : t.Holds (On u fun T => Q T ∧ (w = none → InCell u T)) :=
    h.imp fun ho => ⟨⟨ho.text, fun he => hw he ho⟩, ho.drawn⟩
  unfold Underway.pause
  split
  · exact h
  · rename_i n ticks _
    have hn := Holds.iterate (t := { t with ticks }) hboth (fun he T hT => hT.2 he) n
    exact hn.imp fun ho => ho.mono And.left

/-- A store, with a place behind it that ticks may come to. -/
theorem Holds.store (h : t.Holds (On u Q)) (hf : On u Q t.console → On u P (f t.console))
    (hw : w = none → On u Q t.console → InCell u (f t.console).text) :
    (t.store u w f).Holds (On u P) := by
  have hboth : Holds { t with console := f t.console } (On u fun T => P T ∧ (w = none → InCell u T)) :=
    Or.imp id (fun ho => (hf ho).mono fun hT => ⟨hT, fun he => hw he ho⟩) h
  exact (hboth.pause fun he ho => ho.text.2 he).imp fun ho => ho.mono And.left

theorem Holds.keep (h : t.Holds (On u Q)) (hQ : w = none → ∀ T, Q T → InCell u T)
    (hf : ∀ s, On u Q s → On u Q (f s)) : (t.store u w f).Holds (On u Q) :=
  h.store (hf _) fun he ho => hQ he _ (hf _ ho).text

theorem Holds.markDirty (h : t.Holds (On u Q)) (hQ : w = none → ∀ T, Q T → InCell u T)
    (x y width height : Nat) : (t.markDirty u w x y width height).Holds (On u Q) := by
  unfold Underway.markDirty
  split
  · exact h
  · iterate 5 refine Holds.keep ?_ hQ fun _ ho => ho.set id
    exact h

theorem Holds.flushDirty (h : t.Holds (On u Q)) (hQ : ∀ T, Q T → InCell u T) :
    (t.flushDirty u).Holds (On u Q) := by
  unfold Underway.flushDirty
  split
  · iterate 5
      refine Holds.keep ?_ (fun _ => hQ) fun _ ho => ho.set id
    refine h.keep (fun _ => hQ) fun _ ho => ?_
    unfold Console.swapRect
    exact ho.set id
  · exact h

theorem Holds.markCell (h : t.Holds (On u Q)) (hQ : ∀ T, Q T → InCell u T) :
    (t.markCell u).Holds (On u Q) :=
  h.markDirty (fun _ => hQ) _ _ _ _

theorem Holds.loop {α : Type} {l : List α} {g : α → Console → Console} (h : t.Holds (On u Q))
    (hQ : ∀ T, Q T → InCell u T) (hg : ∀ p ∈ l, ∀ s, On u Q s → On u Q (g p s)) :
    (l.foldl (fun t p => t.store u none (g p)) t).Holds (On u Q) :=
  List.foldlRecOn (motive := fun t : Underway => t.Holds (On u Q)) l _ h
    fun _ ht p hp => ht.keep (fun _ => hQ) (hg p hp)

theorem Holds.drawCursorBlock (h : t.Holds (On u Q)) (hQ : ∀ T, Q T → InCell u T) :
    (t.drawCursorBlock u).Holds (On u Q) := by
  refine Holds.markCell (h.loop hQ fun p hp s ho => ?_) hQ
  obtain ⟨-, hx, -, hy⟩ := mem_cells hp
  exact ho.pixel (hQ _ ho.text) (by omega) (by omega) _

theorem Holds.hideCursor (h : t.Holds (On u Q)) (hQ : ∀ T, Q T → InCell u T) :
    (t.hideCursor u).Holds (On u Q) := by
  unfold Underway.hideCursor
  split
  · iterate 2
      refine Holds.keep ?_ (fun _ => hQ) fun _ ho => ho.set id
    exact h.drawCursorBlock hQ
  · exact h

theorem Holds.scroll (h : t.Holds (On u Q)) : (t.scroll u).Holds (On u Q) := by
  have hw : some Overhang.scroll = none → ∀ T, Q T → InCell u T := nofun
  unfold Underway.scroll
  dsimp only
  split
  · exact h
  · refine Holds.markDirty ?_ hw _ _ _ _
    iterate 2 refine Holds.keep ?_ hw fun _ ho => ho.set id
    exact h

theorem overhang_none {edge : Overhang} {pos cell size : Nat} (h : overhang edge pos cell size = none) :
    pos + cell ≤ size := by
  unfold overhang at h
  split at h
  · cases h
  · omega

/-- The cursor may have left the screen to the right. It leaves it below only until the text is
scrolled. -/
theorem Holds.newline (h : t.Holds (On u Q)) (hQ : ∀ T, Q T → T.2.1 + Console.charH u ≤ u.height) :
    (t.newline u).Holds (On u (InCell u)) := by
  have hH := u.height_lt
  have hW := charW_le u
  have hfirst : (t.store u none fun s => { s with cursorX := 0 }).Holds (On u (InCell u)) := by
    have hfits (T : Text) (hT : Q T) : InCell u (0, T.2) := ⟨by simpa using hW, hQ T hT⟩
    exact h.store (fun ho => ho.set (hfits _))
      fun _ ho => hfits _ ho.text
  unfold Underway.newline
  generalize (t.store u none fun s => { s with cursorX := 0 }) = r at hfirst
  dsimp only
  -- below the last row at most by one
  have hlow := hfirst.store (w := overhang .scroll ((r.console.cursorY + Console.charH u) % word)
      (Console.charH u) u.height)
    (f := fun s => { s with cursorY := (s.cursorY + Console.charH u) % word })
    (P := fun T => T.1 + Console.charW u ≤ u.width ∧ Console.charH u ≤ T.2.1 ∧ T.2.1 ≤ u.height)
    (fun ho => ho.set (fun hT => by
      have hy : r.console.cursorY + Console.charH u ≤ u.height := hT.2
      refine ⟨hT.1, ?_⟩
      dsimp only
      rw [Nat.mod_eq_of_lt (show r.console.cursorY + Console.charH u < word by omega)]
      omega))
    fun he ho => ⟨ho.text.1, overhang_none he⟩
  generalize r.store u _ _ = q at hlow
  have hcell := charH_le u
  split
  · have hback (T : Text) (hT : T.1 + Console.charW u ≤ u.width ∧ Console.charH u ≤ T.2.1 ∧
        T.2.1 ≤ u.height) : InCell u (T.1, Console.sub T.2.1 (Console.charH u), T.2.2) := by
      refine ⟨hT.1, ?_⟩
      dsimp only
      rw [sub_of_le hT.2.1 (by omega)]
      omega
    exact hlow.scroll.store (fun ho => ho.set (hback _))
      fun _ ho => hback _ ho.text
  · rename_i hroom
    refine hlow.imp fun ho => ho.mono fun hT => ⟨hT.1, ?_⟩
    obtain ⟨-, -, hle⟩ : _ ∧ _ ∧ q.console.cursorY ≤ u.height := hT
    rw [Nat.mod_eq_of_lt (show q.console.cursorY + Console.charH u < word by omega)] at hroom
    exact Nat.le_of_not_lt hroom

theorem Holds.drawChar (h : t.Holds (On u (InCell u))) (c : UInt8) :
    (t.drawChar u c).Holds (On u (InCell u)) := by
  have hW := u.width_lt
  unfold Underway.drawChar
  cases u.font.glyph c with
  | none => exact h
  | some glyph =>
    dsimp only
    have hdrawn := h.loop (l := t.console.glyphPixels u glyph)
      (g := fun p s => s.putPixelUnchecked u ((s.cursorX + p.1) % word) ((s.cursorY + p.2.1) % word)
        p.2.2) (fun _ hT => hT) fun p hp s ho => by
      obtain ⟨hx, hy⟩ := mem_glyphPixels hp
      exact ho.pixel ho.text (by simpa [Console.charW, scale] using hx)
        (by simpa [Console.charH, scale] using hy) _
    generalize List.foldl _ t _ = r at hdrawn
    have hmark := hdrawn.markDirty (w := none) (fun _ _ hT => hT) t.console.cursorX t.console.cursorY
      u.font.width u.font.height
    generalize r.markDirty u none _ _ _ _ = r at hmark
    -- to the right of the last column at most by one
    have hright := hmark.store
      (w := overhang .wrap ((r.console.cursorX + u.font.width) % word) u.font.width u.width)
      (f := fun s => { s with cursorX := (s.cursorX + u.font.width) % word })
      (P := fun T => T.1 ≤ u.width ∧ T.2.1 + Console.charH u ≤ u.height)
      (fun ho => ho.set (fun hT => by
        have hx : r.console.cursorX + Console.charW u ≤ u.width := hT.1
        refine ⟨?_, hT.2⟩
        simp only [Console.charW, scale, Nat.mul_one] at hx
        dsimp only
        rw [Nat.mod_eq_of_lt (show r.console.cursorX + u.font.width < word by omega)]
        omega))
      fun he ho => ⟨by
        simpa only [Console.text, Console.charW, scale, Nat.mul_one] using overhang_none he,
        ho.text.2⟩
    generalize r.store u _ _ = q at hright
    have hcell := u.fontWidth_le
    split
    · exact hright.newline fun T hT => hT.2
    · rename_i hroom
      refine hright.imp fun ho => ho.mono fun hT => ⟨?_, hT.2⟩
      obtain ⟨hle, -⟩ : q.console.cursorX ≤ u.width ∧ _ := hT
      rw [Nat.mod_eq_of_lt (show q.console.cursorX + u.font.width < word by omega)] at hroom
      change q.console.cursorX + Console.charW u ≤ u.width
      simp only [Console.charW, scale, Nat.mul_one]
      omega

theorem fillRect_on (h : On u Q s) (x y width height : Int) (color : UInt32) :
    On u Q (s.fillRect u x y width height color) := by
  unfold Console.fillRect
  by_cases hempty : width ≤ 0 ∨ height ≤ 0
  · rw [if_pos hempty]
    exact h
  · rw [if_neg hempty]
    dsimp only
    generalize (if x < 0 then ((0 : Int), width + x) else (x, width)) = xw
    generalize (if y < 0 then ((0 : Int), height + y) else (y, height)) = yh
    generalize (if (u.width : Int) < xw.1 + xw.2 then (u.width : Int) - xw.1 else xw.2) = w'
    generalize (if (u.height : Int) < yh.1 + yh.2 then (u.height : Int) - yh.1 else yh.2) = h'
    split
    · exact h
    · exact List.foldlRecOn (motive := On u Q) _ _ h fun _ ht _ _ =>
        ht.set id

theorem Holds.clearLine (h : t.Holds (On u Q)) (hQ : ∀ T, Q T → InCell u T) (mode : Int) :
    (t.clearLine u mode).Holds (On u Q) :=
  Holds.markDirty (h.keep (fun _ => hQ) fun _ ho => fillRect_on ho _ _ _ _ _) (fun _ => hQ) _ _ _ _

theorem Holds.clear (h : t.Holds (On u (InCell u))) : (t.clear u).Holds (On u (InCell u)) := by
  have hfits : ∀ T, InCell u T → InCell u T := fun _ hT => hT
  have hW := charW_le u
  have hH := charH_le u
  refine Holds.flushDirty (Holds.markDirty ?_ (fun _ => hfits) _ _ _ _) hfits
  refine Holds.keep (Holds.keep (h.keep (fun _ => hfits) fun s ho => ?_) (fun _ => hfits)
    fun s ho => ?_) (fun _ => hfits) fun s ho => ?_
  · rw [clearBack_eq]
    exact ho.set id
  · exact ho.set (fun hT => ⟨by simpa using hW, hT.2⟩)
  · exact ho.set (fun hT => ⟨hT.1, by simpa using hH⟩)

theorem Holds.moved {g : Underway → Underway} (h : t.Holds (On u Q)) (hQ : ∀ T, Q T → InCell u T)
    (hg : ∀ t : Underway, t.Holds (On u Q) → (g t).Holds (On u (InCell u))) :
    (t.moved u g).Holds (On u (InCell u)) :=
  ((hg _ (h.markCell hQ)).markCell fun _ hT => hT).flushDirty fun _ hT => hT

/-- The store that takes a motion back where it has gone too far. -/
theorem Holds.clamp {c : Prop} [Decidable c] {f : Console → Console} (h : t.Holds (On u Q))
    (hin : c → On u Q t.console → On u (InCell u) (f t.console))
    (hout : ¬ c → Q t.console.text → InCell u t.console.text) :
    (if c then t.store u none f else t).Holds (On u (InCell u)) := by
  split
  · rename_i hc
    exact h.store (hin hc) fun _ ho => (hin hc ho).text
  · rename_i hc
    exact h.imp fun ho => ho.mono (hout hc)

theorem Holds.stepDown (h : t.Holds (On u Q)) (hQ : ∀ T, Q T → InCell u T) {delta : Nat}
    (hstays : ∀ T, Q T →
      Console.stepForth T.2.1 delta u.height (Console.charH u) + Console.charH u ≤ u.height) :
    (t.stepDown u delta).Holds (On u (InCell u)) := by
  unfold Underway.stepDown
  dsimp only
  have hover := h.store
    (w := overhang .motion ((t.console.cursorY + delta) % word) (Console.charH u) u.height)
    (f := fun s => { s with cursorY := (s.cursorY + delta) % word })
    (P := fun T => T.1 + Console.charW u ≤ u.width ∧
      (if u.height ≤ T.2.1 then Console.sub u.height (Console.charH u) else T.2.1) +
        Console.charH u ≤ u.height)
    (fun ho => ho.set (fun hT => ⟨(hQ _ hT).1, hstays _ hT⟩))
    fun he ho => ⟨(hQ _ ho.text).1, overhang_none he⟩
  generalize t.store u _ _ = r at hover
  refine hover.clamp (fun hle ho => ho.set fun hT => ⟨hT.1, ?_⟩) fun hlt hT => ⟨hT.1, ?_⟩
  · have hy := hT.2
    rwa [if_pos (show u.height ≤ r.console.text.2.1 from hle)] at hy
  · have hy := hT.2
    rwa [if_neg (show ¬ u.height ≤ r.console.text.2.1 from hlt)] at hy

theorem Holds.stepRight (h : t.Holds (On u Q)) (hQ : ∀ T, Q T → InCell u T) {delta : Nat}
    (hstays : ∀ T, Q T →
      Console.stepForth T.1 delta u.width (Console.charW u) + Console.charW u ≤ u.width) :
    (t.stepRight u delta).Holds (On u (InCell u)) := by
  unfold Underway.stepRight
  dsimp only
  have hover := h.store
    (w := overhang .motion ((t.console.cursorX + delta) % word) (Console.charW u) u.width)
    (f := fun s => { s with cursorX := (s.cursorX + delta) % word })
    (P := fun T => (if u.width ≤ T.1 then Console.sub u.width (Console.charW u) else T.1) +
      Console.charW u ≤ u.width ∧ T.2.1 + Console.charH u ≤ u.height)
    (fun ho => ho.set (fun hT => ⟨hstays _ hT, (hQ _ hT).2⟩))
    fun he ho => ⟨overhang_none he, (hQ _ ho.text).2⟩
  generalize t.store u _ _ = r at hover
  refine hover.clamp (fun hle ho => ho.set fun hT => ⟨?_, hT.2⟩) fun hlt hT => ⟨?_, hT.2⟩
  · have hx := hT.1
    rwa [if_pos (show u.width ≤ r.console.text.1 from hle)] at hx
  · have hx := hT.1
    rwa [if_neg (show ¬ u.width ≤ r.console.text.1 from hlt)] at hx

def InCellCsi (u : Display) (T : Text) : Option (UInt8 × List Int) → Prop
  | some (c, nums) =>
    (c = 66 → Console.stepForth T.2.1 (Console.times (Console.countOf nums) (Console.charH u))
      u.height (Console.charH u) + Console.charH u ≤ u.height) ∧
    (c = 67 → Console.stepForth T.1 (Console.times (Console.countOf nums) (Console.charW u))
      u.width (Console.charW u) + Console.charW u ≤ u.width)
  | none => True

theorem staysCsi_iff (r : Option (UInt8 × List Int)) : s.StaysCsi u r ↔ InCellCsi u s.text r := by
  cases r <;> rfl

theorem Holds.csi {c : UInt8} {nums : List Int} (h : t.Holds (On u Q)) (hQ : ∀ T, Q T → InCell u T)
    (hstays : ∀ T, Q T → InCellCsi u T (some (c, nums))) : (t.csi u c nums).Holds (On u (InCell u)) := by
  have hfits : t.Holds (On u (InCell u)) := h.imp fun ho => ho.mono (hQ _)
  have hself : ∀ T, InCell u T → InCell u T := fun _ hT => hT
  unfold Underway.csi
  split_ifs with h1 h2 h3 h4 h5 h6 h7 h8 h8 h9
  · refine hfits.moved hself fun t ht => ?_
    refine Holds.keep (ht.keep (fun _ => hself) fun _ ho => ?_) (fun _ => hself) fun _ ho => ?_
    · exact ho.set (fun hT => ⟨hT.1, indexOf_inside _ (charH_pos u) (charH_le u)⟩)
    · exact ho.set (fun hT => ⟨indexOf_inside _ (charW_pos u) (charW_le u), hT.2⟩)
  · refine hfits.moved hself fun t ht => ht.keep (fun _ => hself) fun s ho => ?_
    have hle := stepBack_le s.cursorY (Console.times (Console.countOf nums) (Console.charH u))
    exact ho.set (fun hT => ⟨hT.1, (Nat.add_le_add_right hle _).trans hT.2⟩)
  · exact h.moved hQ fun t ht => ht.stepDown hQ fun T hT => (hstays T hT).1 h3
  · exact h.moved hQ fun t ht => ht.stepRight hQ fun T hT => (hstays T hT).2 h4
  · refine hfits.moved hself fun t ht => ht.keep (fun _ => hself) fun s ho => ?_
    have hle := stepBack_le s.cursorX (Console.times (Console.countOf nums) (Console.charW u))
    exact ho.set (fun hT => ⟨(Nat.add_le_add_right hle _).trans hT.1, hT.2⟩)
  · exact (hfits.clearLine hself _).flushDirty hself
  · exact hfits.clear.flushDirty hself
  · exact hfits.flushDirty hself
  · exact hfits.keep (fun _ => hself) fun _ ho => ansiCode_on ho _
  · exact hfits.loop hself fun _ _ _ ho => ansiCode_on ho _
  · exact hfits

theorem Holds.handleAnsi {text : List UInt8} (h : t.Holds (On u Q)) (hQ : ∀ T, Q T → InCell u T)
    (hstays : ∀ T, Q T → InCellCsi u T (Console.csiOf text)) :
    (t.handleAnsi u text).Holds (On u (InCell u)) := by
  have hfits : t.Holds (On u (InCell u)) := h.imp fun ho => ho.mono (hQ _)
  have hself : ∀ T, InCell u T → InCell u T := fun _ hT => hT
  unfold Underway.handleAnsi
  unfold Console.csiOf at hstays
  split
  · dsimp only
    split_ifs
    · exact hfits.keep (fun _ => hself) fun _ ho => ho.set id
    · exact (hfits.drawCursorBlock hself).keep (fun _ => hself) fun _ ho => ho.set id
    · exact hfits
  · rename_i rest hne heq
    rw [heq] at hstays
    cases hp : Console.parseCsi rest 0 false [] with
    | none => exact hfits
    | some r =>
      exact h.csi hQ fun T hT => by
        have := hstays T hT
        simpa [hp] using this
  · exact hfits

theorem Holds.eraseCell (h : t.Holds (On u (InCell u))) (oldX oldY : Nat) :
    (t.eraseCell u oldX oldY).Holds (On u (InCell u)) := by
  have hself : ∀ T, InCell u T → InCell u T := fun _ hT => hT
  refine Holds.flushDirty (Holds.markDirty (Holds.markCell (h.loop hself fun p _ s ho => ?_) hself)
    (fun _ => hself) _ _ _ _) hself
  unfold Console.putPixel
  split
  · exact ho.set id
  · exact ho

theorem Holds.backspace (h : t.Holds (On u (InCell u))) :
    (t.backspace u).Holds (On u (InCell u)) := by
  have hself : ∀ T, InCell u T → InCell u T := fun _ hT => hT
  have hh := h.hideCursor hself
  unfold Underway.backspace
  dsimp only
  generalize t.hideCursor u = r at hh
  split_ifs with h1 h2
  · refine Holds.eraseCell (hh.keep (fun _ => hself) fun _ ho => ho.set fun hT => ?_) _ _
    exact ⟨(Nat.add_le_add_right (Nat.sub_le _ _) _).trans hT.1, hT.2⟩
  · refine Holds.eraseCell (Holds.keep (hh.keep (fun _ => hself) fun _ ho => ho.set fun hT => ?_)
      (fun _ => hself) fun _ ho => ho.set fun hT => ?_) _ _
    · exact ⟨hT.1, (Nat.add_le_add_right (Nat.sub_le _ _) _).trans hT.2⟩
    · exact ⟨lastCell_inside u, hT.2⟩
  · exact hh

theorem InCellCsi.of_eq {T T' : Text} {r : Option (UInt8 × List Int)} (h : InCellCsi u T r)
    (hx : T'.1 = T.1) (hy : T'.2.1 = T.2.1) : InCellCsi u T' r := by
  cases r with
  | none => trivial
  | some r => exact ⟨fun hc => hy ▸ h.1 hc, fun hc => hx ▸ h.2 hc⟩

theorem Holds.putAnsi {c : UInt8} (h : t.Holds (On u Q)) (hQ : ∀ T, Q T → InCell u T)
    (hstays : ∀ s : Console, Q s.text → s.StaysCsi u (s.completed c)) :
    (t.putAnsi u c).Holds (On u (InCell u)) := by
  have hself : ∀ T, InCell u T → InCell u T := fun _ hT => hT
  have hread := h.store (w := none)
    (f := fun s => { s with ansi := if s.ansi.length < 15 then s.ansi ++ [c] else s.ansi })
    (P := fun T => InCell u T ∧
      (Console.isLetter c ∨ 15 ≤ T.2.2.2.length → InCellCsi u T (Console.csiOf T.2.2.2)))
    (fun ho => ho.set (fun hT => ⟨hQ t.console.text hT, fun hend => by
      have hcsi := (staysCsi_iff _).mp (hstays _ hT)
      unfold Console.completed at hcsi
      dsimp only at hcsi hend
      rw [if_pos hend] at hcsi
      exact hcsi.of_eq rfl rfl⟩))
    fun _ ho => hQ t.console.text ho.text
  unfold Underway.putAnsi
  generalize t.store u none _ = r at hread
  dsimp only
  refine Holds.flushDirty ?_ hself
  split
  · rename_i hend
    have hdone : r.Holds (On u fun T => InCell u T ∧ InCellCsi u T (Console.csiOf r.console.ansi)) :=
      hread.imp fun ho => ho.mono fun hT => ⟨hT.1, hT.2 hend⟩
    have hhandled := hdone.handleAnsi (fun _ hT => hT.1) fun _ hT => hT.2
    iterate 2
      refine Holds.keep ?_ (fun _ => hself) fun _ ho => ho.set fun hT => ⟨hT.1, hT.2⟩
    exact hhandled
  · exact hread.imp fun ho => ho.mono And.left

theorem Holds.put {c : UInt8} (h : t.Holds (On u (InCell u))) (hstays : t.console.StaysPut u c) :
    (t.put u c).Holds (On u (InCell u)) := by
  have hself : ∀ T, InCell u T → InCell u T := fun _ hT => hT
  have hW := u.width_lt
  have hsame : t.Holds (On u fun T => InCell u T ∧ T = t.console.text) :=
    h.imp fun ho => ho.mono fun hT => ⟨hT, rfl⟩
  have hhidden := hsame.hideCursor fun _ hT => hT.1
  unfold Underway.put
  dsimp only
  generalize t.hideCursor u = r at hhidden
  have hr : r.Holds (On u (InCell u)) := hhidden.imp fun ho => ho.mono And.left
  split_ifs with h1 h2 h3 h4 h5 h6 h7
  · iterate 2
      refine Holds.keep ?_ (fun _ => hself) fun _ ho => ho.set fun hT => ⟨hT.1, hT.2⟩
    exact hr
  · have hescape : r.Holds (On u fun T => (InCell u T ∧ T = t.console.text) ∧ T.2.2.1 = true) :=
      hhidden.imp fun ho => ho.mono fun hT => ⟨hT, h2⟩
    refine hescape.putAnsi (fun _ hT => hT.1.1) fun s hT => ?_
    have hput := (staysPut_congr hT.1.2 c).mpr hstays
    unfold Console.StaysPut at hput
    rwa [if_neg h1, if_pos (show s.escape = true from hT.2)] at hput
  · exact (hr.newline fun _ hT => hT.2).flushDirty hself
  · exact hr.keep (fun _ => hself) fun _ ho =>
      ho.set fun hT => ⟨by simpa using charW_le u, hT.2⟩
  · exact hr.backspace
  · have htab (ho : On u (fun T => InCell u T ∧ T = t.console.text) r.console) :
        InCell u ((r.console.cursorX + 4 * Console.charW u) % word, r.console.cursorY,
          r.console.escape, r.console.ansi) := by
      have hput := (staysPut_congr ho.text.2 c).mpr hstays
      unfold Console.StaysPut at hput
      rw [if_neg h1, if_neg h2] at hput
      have hroom := hput h6
      refine ⟨?_, ho.text.1.2⟩
      dsimp only
      rwa [Nat.mod_eq_of_lt (show r.console.cursorX + 4 * Console.charW u < word by omega)]
    exact Holds.flushDirty (hhidden.store (fun ho => ho.set fun _ => htab ho) fun _ ho => htab ho) hself
  · exact ((hr.newline fun _ hT => hT.2).drawChar c).flushDirty hself
  · exact (hr.drawChar c).flushDirty hself

theorem Holds.write {buf : List UInt8} (h : t.Holds (On u (InCell u))) (hstays : t.StaysWrite u buf) :
    (buf.foldl (Underway.put u) t).Holds (On u (InCell u)) := by
  induction buf generalizing t with
  | nil => exact h
  | cons c buf ih => exact ih (h.put hstays.1) hstays.2

theorem Holds.call {c : ConsoleCall} (h : t.Holds (On u (InCell u))) (hstays : t.Stays u c) :
    (t.call u c).Holds (On u (InCell u)) := by
  cases c with
  | put c => exact h.put hstays
  | write buf => exact h.write hstays
  | backspace => exact h.backspace
  | clear => exact h.clear
  | cursorTick =>
    exact h.keep (fun _ _ hT => hT) fun _ ho => cursorTick_on ho ho.text

end Underway

theorem On.interrupted {c : ConsoleCall × List Nat} (h : On u (InCell u) s)
    (hstays : Underway.Stays u ⟨s, c.2, []⟩ c.1) (hstruck : (s.interrupted u c).struck = []) :
    On u (InCell u) (s.interrupted u c).console :=
  (Underway.Holds.call (t := ⟨s, c.2, []⟩) (.inr h) hstays).resolve_left (absurd hstruck)

theorem On.throughout {calls : List (ConsoleCall × List Nat)} (h : On u (InCell u) s)
    (hstays : s.StaysThroughout u calls) : On u (InCell u) (s.throughout u calls) := by
  induction calls generalizing s with
  | nil => exact h
  | cons c calls ih => exact ih (h.interrupted hstays.1.1 hstays.1.2) hstays.2

/-- Every pixel that is drawn without a check lies on the screen, whatever ticks come between the
stores of the calls, and so does the cell of the cursor after each call. -/
theorem unchecked_on_screen (u : Display) (calls : List (ConsoleCall × List Nat))
    (hstays : Console.init.StaysThroughout u calls) :
    (∀ p ∈ (Console.init.throughout u calls).unchecked, p.1 < u.width ∧ p.2 < u.height) ∧
      Inside u (Console.init.throughout u calls) := by
  have hinit : On u (InCell u) Console.init := by
    refine ⟨⟨?_, ?_⟩, fun p hp => (List.not_mem_nil hp).elim⟩
    · simpa [Console.init, Console.text] using charW_le u
    · simpa [Console.init, Console.text] using charH_le u
  have h := hinit.throughout hstays
  exact ⟨h.drawn, ⟨h.text.1, h.text.2⟩⟩

/-- A tab, a character with a blink of the cursor between its pixels, two more blinks and a step
down. -/
def blinks : List (ConsoleCall × List Nat) :=
  [(.put 9, []), (.put 65, [0, 120, 0, 240]), (.write [27, 91, 66], [1]), (.cursorTick, [])]

theorem unchecked_on_screen_blinks :
    Console.init.StaysThroughout wide blinks ∧
      (∀ p ∈ (Console.init.throughout wide blinks).unchecked,
        p.1 < wide.width ∧ p.2 < wide.height) ∧
      Inside wide (Console.init.throughout wide blinks) :=
  have hstays : Console.init.StaysThroughout wide blinks := by decide +kernel
  ⟨hstays, unchecked_on_screen wide blinks hstays⟩

/-- Without any tick: a tab over the edge, and the cursor is shown and hidden there. Without any
tab: a newline in the last row, and a tick draws the cursor before the text is scrolled. -/
theorem cursor_drawn_off_screen :
    (¬ ∀ calls : List (ConsoleCall × List Nat), (∀ c ∈ calls, c.2 = []) →
      ∀ p ∈ (Console.init.throughout narrow calls).unchecked,
        p.1 < narrow.width ∧ p.2 < narrow.height) ∧
      ¬ ∀ calls : List (ConsoleCall × List Nat), (∀ c ∈ calls, c.1 = .put 10) →
        ∀ p ∈ (Console.init.throughout narrow calls).unchecked,
          p.1 < narrow.width ∧ p.2 < narrow.height := by
  refine ⟨fun h => ?_, fun h => ?_⟩
  · have hmem : (32, 0) ∈ (Console.init.throughout narrow
        [(.write [9, 27, 91, 63, 50, 53, 104, 65], [])]).unchecked := by
      decide +kernel
    exact absurd (h _ (by decide) _ hmem).1 (by decide)
  · have hmem : (0, 16) ∈ (Console.init.throughout narrow
        [(.put 10, []), (.put 10, [0, 120])]).unchecked := by
      decide +kernel
    exact absurd (h _ (by simp) _ hmem).2 (by decide)

end LosTacOS.Drivers
