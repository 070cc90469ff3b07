import LosTacOS.Drivers.Console

/-! What of the back buffer is not on the screen yet lies in the dirty rectangle, as long as the
cursor stays on the screen. -/
namespace LosTacOS.Drivers

variable {u : Display} {s t : Console} {R : Nat → Nat → Prop}

namespace Display

theorem depth_pos (u : Display) : 2 ≤ u.bytesPerPx := by
  rcases u.depth with h | h | h <;> omega

theorem width_pos (u : Display) : 0 < u.width := u.fontWidth_pos.trans_le u.fontWidth_le

theorem height_pos (u : Display) : 0 < u.height := u.fontHeight_pos.trans_le u.fontHeight_le

theorem pitch_lt (u : Display) : u.pitch < word :=
  (Nat.le_mul_of_pos_right u.pitch u.height_pos).trans_lt u.size_lt

theorem width_lt (u : Display) : 2 * u.width < word := by
  have h := Nat.mul_le_mul_left u.width u.depth_pos
  have := u.row_le
  have := u.pitch_lt
  omega

theorem height_lt (u : Display) : 2 * u.height < word := by
  have hpitch : 2 ≤ u.pitch := by
    have h := Nat.mul_le_mul u.width_pos u.depth_pos
    have := u.row_le
    omega
  exact (Nat.mul_le_mul_right u.height hpitch).trans_lt u.size_lt

def at_ (u : Display) (x y : Nat) : Nat := y * u.pitch + x * u.bytesPerPx

theorem at_lt {x : Nat} (hx : x < u.width) (y : Nat) :
    u.at_ x y + u.bytesPerPx ≤ (y + 1) * u.pitch := by
  have h := Nat.mul_le_mul_right u.bytesPerPx (show x + 1 ≤ u.width from hx)
  have hr := u.row_le
  rw [Nat.add_mul, Nat.one_mul] at h
  rw [at_, Nat.add_mul, Nat.one_mul]
  omega

theorem offset_eq {x y : Nat} (hx : x < u.width) (hy : y < u.height) : u.offset x y = u.at_ x y := by
  have h := at_lt hx y
  have hy' := Nat.mul_le_mul_right u.pitch (show y + 1 ≤ u.height from hy)
  have hs := u.size_lt
  rw [Nat.mul_comm u.pitch] at hs
  have hd := u.depth_pos
  apply Nat.mod_eq_of_lt
  rw [at_] at h
  omega

theorem at_disjoint {x y x' y' i : Nat} (hx : x < u.width) (hx' : x' < u.width)
    (hi : i < u.bytesPerPx) (hne : (x, y) ≠ (x', y')) :
    ¬ (u.at_ x' y' ≤ u.at_ x y + i ∧ u.at_ x y + i < u.at_ x' y' + u.bytesPerPx) := by
  rintro ⟨hle, hlt⟩
  have h := at_lt hx y
  have h' := at_lt hx' y'
  rcases Nat.lt_trichotomy y y' with hlty | rfl | hlty
  · have hrow := Nat.mul_le_mul_right u.pitch (show y + 1 ≤ y' from hlty)
    rw [at_] at hle
    omega
  · have hxx : x ≠ x' := fun he => hne (by rw [he])
    rw [at_, at_] at hle hlt
    rcases Nat.lt_or_gt_of_ne hxx with hltx | hltx
    · have := Nat.mul_le_mul_right u.bytesPerPx (show x + 1 ≤ x' from hltx)
      rw [Nat.add_mul, Nat.one_mul] at this
      omega
    · have := Nat.mul_le_mul_right u.bytesPerPx (show x' + 1 ≤ x from hltx)
      rw [Nat.add_mul, Nat.one_mul] at this
      omega
  · have hrow := Nat.mul_le_mul_right u.pitch (show y' + 1 ≤ y from hlty)
    have hle' : y * u.pitch ≤ u.at_ x y := Nat.le_add_right _ _
    omega

end Display

def Console.Dirty (s : Console) (x y : Nat) : Prop :=
  s.dirtyX0 ≤ x ∧ x < s.dirtyX1 ∧ s.dirtyY0 ≤ y ∧ y < s.dirtyY1

/-- Screen and back buffer agree but for the dirty pixels and those in `R`; nothing outside of the
screen was drawn without a check, marked, or copied. -/
structure Synced (u : Display) (R : Nat → Nat → Prop) (s : Console) : Prop where
  rect : s.hasDirty = true → s.dirtyX0 < s.dirtyX1 ∧ s.dirtyX1 ≤ u.width ∧
    s.dirtyY0 < s.dirtyY1 ∧ s.dirtyY1 ≤ u.height
  none : s.hasDirty = false →
    s.dirtyX0 = word - 1 ∧ s.dirtyX1 = 0 ∧ s.dirtyY0 = word - 1 ∧ s.dirtyY1 = 0
  same : ∀ x < u.width, ∀ y < u.height, ¬ s.Dirty x y → ¬ R x y → ∀ i < u.bytesPerPx,
    s.front (u.at_ x y + i) = s.back (u.at_ x y + i)
  swaps : ∀ r ∈ s.swaps, r.1 + r.2.2.1 ≤ u.width ∧ r.2.1 + r.2.2.2 ≤ u.height
  unchecked : ∀ p ∈ s.unchecked, p.1 < u.width ∧ p.2 < u.height

structure Inside (u : Display) (s : Console) : Prop where
  x : s.cursorX + Console.charW u ≤ u.width
  y : s.cursorY + Console.charH u ≤ u.height

def Rect (x y w h : Nat) (px py : Nat) : Prop := x ≤ px ∧ px < x + w ∧ y ≤ py ∧ py < y + h

def Nowhere (_ _ : Nat) : Prop := False

section draw

theorem Synced.set (h : Synced u R s) (cursorX cursorY : Nat) (fg bg : UInt32)
    (bold reverse cursorVisible : Bool) (blinkCounter : Nat) (escape : Bool) (ansi : List UInt8) :
    Synced u R { s with cursorX, cursorY, fg, bg, bold, reverse, cursorVisible, blinkCounter,
                        escape, ansi } :=
  ⟨h.rect, h.none, h.same, h.swaps, h.unchecked⟩

theorem Synced.mono {R' : Nat → Nat → Prop} (h : Synced u R s)
    (hR : ∀ x < u.width, ∀ y < u.height, R x y → R' x y) : Synced u R' s :=
  ⟨h.rect, h.none, fun x hx y hy hd hr => h.same x hx y hy hd fun hc => hr (hR x hx y hy hc),
    h.swaps, h.unchecked⟩

theorem Synced.repaint (h : Synced u R s) (back : Buffer) :
    Synced u (Rect 0 0 u.width u.height) { s with back } :=
  ⟨h.rect, h.none, fun x hx y hy _ hr => absurd ⟨x.zero_le, by omega, y.zero_le, by omega⟩ hr,
    h.swaps, h.unchecked⟩

theorem Synced.pixel {x y : Nat} (h : Synced u R s) (hx : x < u.width) (hy : y < u.height)
    (hR : R x y) (color : UInt32) : Synced u R { s with back := u.setPixel s.back x y color } := by
  refine ⟨h.rect, h.none, fun px hpx py hpy hd hr i hi => ?_, h.swaps, h.unchecked⟩
  have hne : (px, py) ≠ (x, y) := by
    intro he
    cases he
    exact hr hR
  have hsame := h.same px hpx py hpy hd hr i hi
  change s.front _ = u.setPixel s.back x y color _
  rw [hsame, Display.setPixel, Display.offset_eq hx hy,
    if_neg (Display.at_disjoint hpx hx hi hne)]

theorem Synced.putPixelUnchecked {x y : Nat} (h : Synced u R s) (hx : x < u.width)
    (hy : y < u.height) (hR : R x y) (color : UInt32) :
    Synced u R (s.putPixelUnchecked u x y color) := by
  have h' := h.pixel hx hy hR color
  refine ⟨h'.rect, h'.none, h'.same, h'.swaps, fun p hp => ?_⟩
  cases hp with
  | head => exact ⟨hx, hy⟩
  | tail _ hp => exact h.unchecked p hp

theorem Synced.putPixel {x y : Nat} (h : Synced u R s) (hR : R x y) (color : UInt32) :
    Synced u R (s.putPixel u x y color) := by
  unfold Console.putPixel
  split
  · rename_i hin
    exact h.pixel hin.1 hin.2 hR color
  · exact h

theorem Synced.foldl {α : Type} {f : Console → α → Console} {ps : List α}
    (hf : ∀ p ∈ ps, ∀ t, Synced u R t → Synced u R (f t p)) (h : Synced u R s) :
    Synced u R (ps.foldl f s) := by
  induction ps generalizing s with
  | nil => exact h
  | cons p ps ih =>
    exact ih (fun q hq => hf q (List.mem_cons_of_mem _ hq)) (hf p List.mem_cons_self s h)

theorem mem_cells {x y w h : Nat} {p : Nat × Nat} (hp : p ∈ cells x y w h) :
    Rect x y w h p.1 p.2 := by
  simp only [cells, List.mem_flatMap, List.mem_map, List.mem_range] at hp
  obtain ⟨r, hr, c, hc, rfl⟩ := hp
  exact ⟨Nat.le_add_right _ _, by omega, Nat.le_add_right _ _, by omega⟩

theorem Synced.markDirty {x y w h : Nat} (hs : Synced u (Rect x y w h) s) (hx : x + w ≤ u.width)
    (hy : y + h ≤ u.height) : Synced u Nowhere (s.markDirty x y w h) := by
  have hW := u.width_lt
  have hH := u.height_lt
  unfold Console.markDirty
  split
  · rename_i h0
    refine hs.mono fun px _ py _ hc => ?_
    obtain ⟨h1, h2, h3, h4⟩ := hc
    omega
  · rename_i h0
    have hxw : (x + w) % word = x + w := Nat.mod_eq_of_lt (by omega)
    have hyh : (y + h) % word = y + h := Nat.mod_eq_of_lt (by omega)
    rw [hxw, hyh]
    -- the rectangle before, whether there is one or not
    have hr : (s.dirtyX1 ≤ u.width ∧ s.dirtyY1 ≤ u.height) := by
      cases hd : s.hasDirty with
      | true => exact ⟨(hs.rect hd).2.1, (hs.rect hd).2.2.2⟩
      | false =>
        obtain ⟨-, r2, -, r4⟩ := hs.none hd
        omega
    refine ⟨fun _ => ?_, fun hc => Bool.noConfusion hc, fun px hpx py hpy hn _ => ?_, hs.swaps,
      hs.unchecked⟩
    · dsimp only
      omega
    · apply hs.same px hpx py hpy
      · intro hc
        apply hn
        unfold Console.Dirty at hc ⊢
        dsimp only
        omega
      · rintro ⟨h1, h2, h3, h4⟩
        apply hn
        unfold Console.Dirty
        dsimp only
        omega

theorem Synced.mark {x y w h : Nat} (hs : Synced u Nowhere s) (hx : x + w ≤ u.width)
    (hy : y + h ≤ u.height) : Synced u Nowhere (s.markDirty x y w h) :=
  Synced.markDirty (hs.mono fun _ _ _ _ hc => hc.elim) hx hy

end draw

section flush

theorem copyRows_cases (back : Buffer) (off : Nat → Nat) (len a : Nat) (rows : List Nat)
    (front : Buffer) :
    rows.foldl (fun f row => Console.copyRow back f (off row) len) front a = front a ∨
      rows.foldl (fun f row => Console.copyRow back f (off row) len) front a = back a := by
  induction rows generalizing front with
  | nil => exact .inl rfl
  | cons row rows ih =>
    rw [List.foldl_cons]
    rcases ih (Console.copyRow back front (off row) len) with h | h
    · rw [h, Console.copyRow]
      split
      · exact .inr rfl
      · exact .inl rfl
    · exact .inr h

theorem copyRows_covered {back : Buffer} (off : Nat → Nat) {len a row : Nat} {rows : List Nat}
    (front : Buffer) (hrow : row ∈ rows) (ha : off row ≤ a ∧ a < off row + len) :
    rows.foldl (fun f row => Console.copyRow back f (off row) len) front a = back a := by
  induction rows generalizing front with
  | nil => cases hrow
  | cons r rows ih =>
    rw [List.foldl_cons]
    cases hrow with
    | head =>
      rcases copyRows_cases back off len a rows (Console.copyRow back front (off row) len) with
        h | h
      · rw [h, Console.copyRow, if_pos ha]
      · exact h
    | tail _ hrow => exact ih _ hrow

theorem sub_of_le {a b : Nat} (h : b ≤ a) (ha : a < word) : Console.sub a b = a - b := by
  unfold Console.sub
  rw [show a + word - b = a - b + word by omega, Nat.add_mod_right]
  exact Nat.mod_eq_of_lt (by omega)

theorem row_covers {x0 x1 px py i : Nat} (h0 : x0 ≤ px) (h1 : px < x1) (hx1 : x1 ≤ u.width)
    (hpy : py < u.height) (hi : i < u.bytesPerPx) :
    (py * u.pitch + x0 * u.bytesPerPx) % word ≤ u.at_ px py + i ∧
      u.at_ px py + i < (py * u.pitch + x0 * u.bytesPerPx) % word +
        (x1 - x0) * u.bytesPerPx % word := by
  have hW : x0 < u.width := by omega
  have hat : (py * u.pitch + x0 * u.bytesPerPx) % word = py * u.pitch + x0 * u.bytesPerPx :=
    Display.offset_eq hW hpy
  have hle := Nat.mul_le_mul_right u.bytesPerPx h0
  have hlt := Nat.mul_le_mul_right u.bytesPerPx (show px - x0 + 1 ≤ x1 - x0 by omega)
  have hlen := Nat.mul_le_mul_right u.bytesPerPx (show x1 - x0 ≤ u.width by omega)
  rw [Nat.add_mul, Nat.one_mul, Nat.sub_mul] at hlt
  rw [hat, Nat.mod_eq_of_lt (hlen.trans_lt (u.row_le.trans_lt u.pitch_lt)), Display.at_]
  omega

theorem Synced.flushDirty (hs : Synced u Nowhere s) : Synced u Nowhere (s.flushDirty u) := by
  unfold Console.flushDirty
  split
  · rename_i hd
    obtain ⟨r1, r2, r3, r4⟩ := hs.rect hd
    have hW := u.width_lt
    have hH := u.height_lt
    have hw := sub_of_le r1.le (show s.dirtyX1 < word by omega)
    have hh := sub_of_le r3.le (show s.dirtyY1 < word by omega)
    rw [hw, hh]
    refine ⟨fun hc => Bool.noConfusion hc, fun _ => ⟨rfl, rfl, rfl, rfl⟩,
      fun px hpx py hpy _ _ i hi => ?_, fun r hr => ?_, hs.unchecked⟩
    · have hstop : min ((s.dirtyY0 + (s.dirtyY1 - s.dirtyY0)) % word) u.height = s.dirtyY1 := by
        rw [show s.dirtyY0 + (s.dirtyY1 - s.dirtyY0) = s.dirtyY1 by omega,
          Nat.mod_eq_of_lt (show s.dirtyY1 < word by omega), Nat.min_eq_left r4]
      simp only [Console.swapRect, hstop]
      by_cases hdirty : s.Dirty px py
      · obtain ⟨h1, h2, h3, h4⟩ := hdirty
        have hmem : py ∈ List.range' s.dirtyY0 (s.dirtyY1 - s.dirtyY0) :=
          List.mem_range'_1.mpr ⟨h3, by omega⟩
        exact copyRows_covered (fun row =>
          (row * u.pitch + s.dirtyX0 * u.bytesPerPx) % word) s.front hmem
          (row_covers h1 h2 r2 hpy hi)
      · have hsame := hs.same px hpx py hpy hdirty (fun hc => hc) i hi
        rcases copyRows_cases s.back (fun row =>
          (row * u.pitch + s.dirtyX0 * u.bytesPerPx) % word)
          ((s.dirtyX1 - s.dirtyX0) * u.bytesPerPx % word) (u.at_ px py + i)
          (List.range' s.dirtyY0 (s.dirtyY1 - s.dirtyY0)) s.front with h | h
        · exact h.trans hsame
        · exact h
    · cases hr with
      | head =>
        dsimp only
        omega
      | tail _ hr => exact hs.swaps r hr
  · exact hs

end flush

end LosTacOS.Drivers
