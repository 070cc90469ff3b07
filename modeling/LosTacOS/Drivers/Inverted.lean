import LosTacOS.Drivers.OnScreen
import Mathlib.Data.List.Nodup

/-! The block of the cursor and the flag that says whether it is drawn. -/
namespace LosTacOS.Drivers

inductive Event where
  | put (c : UInt8)
  | tick

def Console.event (u : Display) (s : Console) : Event → Console
  | .put c => s.put u c
  | .tick => s.cursorTick u

def Console.hidden (s : Console) : Console := { s with cursorVisible := false }

def Console.drawText (u : Display) (s : Console) : Event → Console
  | .put c => (s.hidden.put u c).hidden
  | .tick => s

def Display.colours (u : Display) : Nat := min 3 u.bytesPerPx

def Display.invertCell (u : Display) (b : Buffer) (x y : Nat) : Buffer := fun a =>
  if (cells x y (Console.charW u) (Console.charH u)).any fun p =>
      u.at_ p.1 p.2 ≤ a && a < u.at_ p.1 p.2 + u.colours then b a ^^^ 0xFF
  else b a

/-- The back buffer is the text, with the cell of the cursor inverted if the cursor is visible. -/
def Console.InStep (u : Display) (s text : Console) : Prop :=
  ∀ a < u.pitch * u.height, s.back a =
    if s.cursorVisible then u.invertCell text.back s.cursorX s.cursorY a else text.back a

def Follows (u : Display) (events : List Event) : Prop :=
  ∀ n ≤ events.length, ((events.take n).foldl (Console.event u) Console.init).InStep u
    ((events.take n).foldl (Console.drawText u) Console.init)

variable {u : Display} {s t : Console} {b : Buffer} {x y a i : Nat}

namespace Display

theorem size_pos (u : Display) : 0 < u.pitch * u.height := by
  have hrow := u.row_le
  have hd := u.depth_pos
  have hbytes := Nat.mul_le_mul u.width_pos hd
  exact Nat.mul_pos (by omega) u.height_pos

theorem invertCell_origin (u : Display) (b : Buffer) : u.invertCell b 0 0 0 = b 0 ^^^ 0xFF := by
  have hd := u.depth_pos
  have hmem : (0, 0) ∈ cells 0 0 (Console.charW u) (Console.charH u) := by
    unfold cells
    simp only [List.mem_flatMap, List.mem_map, List.mem_range]
    exact ⟨0, charH_pos u, 0, charW_pos u, rfl⟩
  apply if_pos
  refine List.any_eq_true.mpr ⟨(0, 0), hmem, ?_⟩
  simp only [at_, colours, Nat.zero_mul, Nat.add_zero, Nat.le_refl, decide_true, Bool.true_and,
    decide_eq_true_eq]
  omega

end Display

/-- `init` says that the cursor is visible, and draws none. -/
theorem init_not_inStep (u : Display) : ¬Console.init.InStep u Console.init := by
  intro h
  have hzero : (0 : UInt8) = u.invertCell (fun _ => 0) 0 0 0 := h 0 u.size_pos
  rw [Display.invertCell_origin] at hzero
  exact absurd hzero (by decide)

/-- In no run is the back buffer always the text with its cursor. -/
theorem never_follows (u : Display) (events : List Event) : ¬Follows u events :=
  fun h => init_not_inStep u (h 0 (Nat.zero_le _))

/-- The first newline leaves an inverted cell behind. -/
theorem newline_leaves_block : ¬ ∀ (u : Display) (events : List Event), Follows u events := by
  intro h
  have hfirst := h wide [.put 10] 1 (Nat.le_refl 1) 0 (by decide)
  exact absurd hfirst (by decide)

section toggles

variable {off : Nat}

/-- A byte of a number that is put together from bytes. -/
theorem byte_decode (hdepth : u.bytesPerPx ≠ 2) (hi : i < u.bytesPerPx) :
    UInt8.ofNat ((u.decode b off).toNat / 2^(8 * i)) = b (off + i) := by
  have hlt (k : Nat) : (b (off + k)).toNat < 256 := UInt8.toNat_lt _
  have h0 := hlt 0
  have h1 := hlt 1
  have h2 := hlt 2
  have h3 := hlt 3
  have hbyte {n : Nat} (h : n % 256 = (b (off + i)).toNat) : UInt8.ofNat n = b (off + i) := by
    rw [← UInt8.toNat_inj, UInt8.toNat_ofNat']
    exact h
  apply hbyte
  unfold Display.decode
  rw [UInt32.toNat_ofNat']
  rcases u.depth with hd | hd | hd
  · exact absurd hd hdepth
  · rw [hd] at hi ⊢
    simp only [List.range_succ, List.range_zero, List.nil_append, List.map_append, List.map_cons,
      List.map_nil, List.sum_append, List.sum_cons, List.sum_nil, Nat.reduceMul, Nat.reducePow]
    obtain rfl | rfl | rfl : i = 0 ∨ i = 1 ∨ i = 2 := by omega
    all_goals omega
  · rw [hd] at hi ⊢
    simp only [List.range_succ, List.range_zero, List.nil_append, List.map_append, List.map_cons,
      List.map_nil, List.sum_append, List.sum_cons, List.sum_nil, Nat.reduceMul, Nat.reducePow]
    obtain rfl | rfl | rfl | rfl : i = 0 ∨ i = 1 ∨ i = 2 ∨ i = 3 := by omega
    all_goals omega

theorem encode_inverted (hdepth : u.bytesPerPx ≠ 2) (hi : i < u.bytesPerPx) :
    u.encode (u.decode b off ^^^ 0x00FFFFFF) i =
      if i < 3 then b (off + i) ^^^ 0xFF else b (off + i) := by
  have hbyte := @byte_decode u b i off hdepth hi
  unfold Display.encode
  dsimp only
  rw [if_neg hdepth, UInt32.toNat_xor, Nat.xor_div_two_pow, UInt8.ofNat_xor, hbyte]
  have hi4 : i < 4 := by
    rcases u.depth with hd | hd | hd <;> omega
  obtain rfl | rfl | rfl | rfl : i = 0 ∨ i = 1 ∨ i = 2 ∨ i = 3 := by omega
  · rfl
  · rfl
  · rfl
  · exact UInt8.xor_zero

theorem toggle_pixel (hdepth : u.bytesPerPx ≠ 2) (hx : x < u.width) (hy : y < u.height) :
    u.setPixel b x y (u.getPixel b x y ^^^ 0x00FFFFFF) a =
      if u.at_ x y ≤ a ∧ a < u.at_ x y + u.colours then b a ^^^ 0xFF else b a := by
  have hcolours : u.colours ≤ u.bytesPerPx := Nat.min_le_right _ _
  have h3 : u.colours = 3 := by
    unfold Display.colours
    rcases u.depth with hd | hd | hd
    · exact absurd hd hdepth
    · rw [hd]
      rfl
    · rw [hd]
      rfl
  have hget : u.getPixel b x y = u.decode b (u.at_ x y) := by
    unfold Display.getPixel
    rw [if_pos ⟨hx, hy⟩, Display.offset_eq hx hy]
  unfold Display.setPixel
  rw [Display.offset_eq hx hy, hget]
  by_cases hin : u.at_ x y ≤ a ∧ a < u.at_ x y + u.bytesPerPx
  · rw [if_pos hin, encode_inverted hdepth (by omega), Nat.add_sub_cancel' hin.1]
    apply if_congr _ rfl rfl
    rw [h3]
    omega
  · rw [if_neg hin, if_neg]
    omega

theorem toggle_pixels (hdepth : u.bytesPerPx ≠ 2) {ps : List (Nat × Nat)} (hps : ps.Nodup)
    (hon : ∀ p ∈ ps, p.1 < u.width ∧ p.2 < u.height) (b : Buffer) :
    ps.foldl (fun b p => u.setPixel b p.1 p.2 (u.getPixel b p.1 p.2 ^^^ 0x00FFFFFF)) b a =
      if ps.any fun p => u.at_ p.1 p.2 ≤ a && a < u.at_ p.1 p.2 + u.colours then b a ^^^ 0xFF
      else b a := by
  induction ps generalizing b with
  | nil => rfl
  | cons p ps ih =>
    obtain ⟨hp, hps'⟩ := List.nodup_cons.mp hps
    obtain ⟨hx, hy⟩ := hon p List.mem_cons_self
    have hon' : ∀ q ∈ ps, q.1 < u.width ∧ q.2 < u.height :=
      fun q hq => hon q (List.mem_cons_of_mem p hq)
    have hcolours : u.colours ≤ u.bytesPerPx := Nat.min_le_right _ _
    rw [List.foldl_cons, ih hps' hon', toggle_pixel hdepth hx hy, List.any_cons]
    by_cases hin : u.at_ p.1 p.2 ≤ a ∧ a < u.at_ p.1 p.2 + u.colours
    · have hrest : (ps.any fun q => u.at_ q.1 q.2 ≤ a && a < u.at_ q.1 q.2 + u.colours) = false := by
        rw [List.any_eq_false]
        intro q hq hin'
        simp only [Bool.and_eq_true, decide_eq_true_eq] at hin'
        have hne : (p.1, p.2) ≠ (q.1, q.2) := fun heq => hp (Prod.ext_iff.mpr (Prod.mk.inj heq) ▸ hq)
        apply @Display.at_disjoint u p.1 p.2 q.1 q.2 (a - u.at_ p.1 p.2) hx (hon' q hq).1 (by omega) hne
        omega
      simp [hin, hrest]
    · have hfirst : (decide (u.at_ p.1 p.2 ≤ a) && decide (a < u.at_ p.1 p.2 + u.colours)) = false := by
        rw [Bool.eq_false_iff]
        simpa using hin
      rw [if_neg hin, hfirst, Bool.false_or]

theorem cells_nodup (x y w h : Nat) : (cells x y w h).Nodup := by
  unfold cells
  rw [List.nodup_flatMap]
  constructor
  · intro r _
    apply List.Nodup.map _ List.nodup_range
    intro c c' heq
    exact Nat.add_left_cancel (Prod.mk.inj heq).1
  · apply List.nodup_range.imp
    intro r r' hne p hp hp'
    obtain ⟨c, -, rfl⟩ := List.mem_map.mp hp
    obtain ⟨c', -, heq⟩ := List.mem_map.mp hp'
    exact hne (Nat.add_left_cancel (Prod.mk.inj heq).2).symm

theorem cells_shift (x y w h : Nat) :
    (cells 0 0 w h).map (fun p => (x + p.1, y + p.2)) = cells x y w h := by
  simp [cells, List.map_flatMap, Function.comp_def]

@[simp] theorem markDirty_back (s : Console) (x y w h : Nat) : (s.markDirty x y w h).back = s.back := by
  unfold Console.markDirty
  split <;> rfl

theorem swapRect_back (s : Console) (u : Display) (x y w h : Nat) :
    (s.swapRect u x y w h).back = s.back ∧
      (s.swapRect u x y w h).cursorVisible = s.cursorVisible :=
  ⟨rfl, rfl⟩

theorem flushDirty_back (s : Console) (u : Display) : (s.flushDirty u).back = s.back ∧
    (s.flushDirty u).cursorVisible = s.cursorVisible := by
  unfold Console.flushDirty
  by_cases h : s.hasDirty = true
  · rw [if_pos h]
    exact swapRect_back s u s.dirtyX0 s.dirtyY0 (Console.sub s.dirtyX1 s.dirtyX0)
      (Console.sub s.dirtyY1 s.dirtyY0)
  · rw [if_neg h]
    exact ⟨rfl, rfl⟩

theorem foldl_back {α : Type} {f : Console → α → Console} {g : Buffer → α → Buffer} {ps : List α}
    (hf : ∀ p ∈ ps, ∀ t, (f t p).back = g t.back p) (s : Console) :
    (ps.foldl f s).back = ps.foldl g s.back := by
  induction ps generalizing s with
  | nil => rfl
  | cons p ps ih =>
    rw [List.foldl_cons, List.foldl_cons, ← hf p List.mem_cons_self]
    exact ih (fun q hq => hf q (List.mem_cons_of_mem p hq)) _

/-- With 24 or 32 bits, and on the screen, the block is the inverted cell. -/
theorem drawCursorBlock_back (hdepth : u.bytesPerPx ≠ 2) (h : Inside u s) :
    (s.drawCursorBlock u).back = u.invertCell s.back s.cursorX s.cursorY := by
  unfold Console.drawCursorBlock
  dsimp only
  rw [markDirty_back, foldl_back (g := fun b p => u.setPixel b (s.cursorX + p.1) (s.cursorY + p.2)
    (u.getPixel b (s.cursorX + p.1) (s.cursorY + p.2) ^^^ 0x00FFFFFF))]
  · have hmap := @List.foldl_map _ _ _ (fun p : Nat × Nat => (s.cursorX + p.1, s.cursorY + p.2))
      (fun b p => u.setPixel b p.1 p.2 (u.getPixel b p.1 p.2 ^^^ 0x00FFFFFF))
      (cells 0 0 (Console.charW u) (Console.charH u)) s.back
    rw [← hmap, cells_shift]
    funext a
    apply toggle_pixels hdepth (cells_nodup _ _ _ _)
    intro p hp
    obtain ⟨-, hx, -, hy⟩ := mem_cells hp
    have h1 := h.x
    have h2 := h.y
    omega
  · intro p hp t
    obtain ⟨hx, hy, -⟩ := h.pixel hp
    rw [hx, hy]
    rfl

theorem Display.invertCell_invertCell (u : Display) (b : Buffer) (x y : Nat) :
    u.invertCell (u.invertCell b x y) x y = b := by
  funext a
  unfold Display.invertCell
  by_cases hin : (cells x y (Console.charW u) (Console.charH u)).any fun p =>
      u.at_ p.1 p.2 ≤ a && a < u.at_ p.1 p.2 + u.colours
  · rw [if_pos hin, if_pos hin, UInt8.xor_assoc, UInt8.xor_self, UInt8.xor_zero]
  · rw [if_neg hin, if_neg hin]

def Console.cursor (s : Console) : Nat × Nat × Bool := (s.cursorX, s.cursorY, s.cursorVisible)

theorem markDirty_cursor (s : Console) (x y w h : Nat) :
    (s.markDirty x y w h).cursor = s.cursor := by
  unfold Console.markDirty
  split <;> rfl

theorem drawCursorBlock_cursor (s : Console) (u : Display) :
    (s.drawCursorBlock u).cursor = s.cursor := by
  unfold Console.drawCursorBlock
  refine (markDirty_cursor _ _ _ _ _).trans (foldl_keeps (g := Console.cursor) ?_ _ s)
  intro _ _
  rfl

/-- To draw the block and turn the flag keeps both in step. -/
theorem Console.InStep.turn {text : Console} {visible : Bool} (h : s.InStep u text)
    (hback : t.back = u.invertCell s.back s.cursorX s.cursorY)
    (hcursor : t.cursorX = s.cursorX ∧ t.cursorY = s.cursorY)
    (hvisible : s.cursorVisible = visible) (hturn : t.cursorVisible = !visible) :
    t.InStep u text := by
  intro a ha
  have hs := h a ha
  rw [hback, hturn, hcursor.1, hcursor.2]
  have hcell : u.invertCell s.back s.cursorX s.cursorY a =
      u.invertCell (fun _ => s.back a) s.cursorX s.cursorY a := rfl
  cases visible with
  | true =>
    rw [if_pos hvisible] at hs
    rw [hcell, hs]
    have htwice := congrFun (u.invertCell_invertCell text.back s.cursorX s.cursorY) a
    exact htwice
  | false =>
    rw [if_neg (by simp [hvisible])] at hs
    rw [hcell, hs]
    rfl

theorem Console.InStep.cursorTick {text : Console} (hdepth : u.bytesPerPx ≠ 2) (hin : Inside u s)
    (h : s.InStep u text) : (s.cursorTick u).InStep u text := by
  unfold Console.cursorTick
  dsimp only
  split
  · generalize hr : ({ s with blinkCounter := 0, cursorVisible := !s.cursorVisible } : Console) = r
    have hback : r.back = s.back := by rw [← hr]
    have hx : r.cursorX = s.cursorX := by rw [← hr]
    have hy : r.cursorY = s.cursorY := by rw [← hr]
    have hvisible : r.cursorVisible = !s.cursorVisible := by rw [← hr]
    obtain ⟨hdx, hdy, hdv⟩ := Prod.mk.inj (drawCursorBlock_cursor r u) |>.imp_right Prod.mk.inj
    obtain ⟨hfx, hfy⟩ := flushDirty_cursor (r.drawCursorBlock u) u
    obtain ⟨hfb, hfv⟩ := flushDirty_back (r.drawCursorBlock u) u
    refine h.turn ?_ ⟨?_, ?_⟩ rfl ?_
    · rw [hfb, drawCursorBlock_back hdepth (hin.of_eq hx hy), hback, hx, hy]
    · rw [hfx, hdx, hx]
    · rw [hfy, hdy, hy]
    · rw [hfv, hdv, hvisible]
  · exact h

/-- With 16 bits a colour comes back in another format: black, inverted twice, is red. -/
example : let u : Display := { wide with bytesPerPx := 2, depth := .inl rfl, row_le := by decide }
    let invert := fun b => u.setPixel b 0 0 (u.getPixel b 0 0 ^^^ 0x00FFFFFF)
    (invert (invert fun _ => 0) 0, invert (invert fun _ => 0) 1) = (0x00, 0xF8) := by
  decide

end toggles

end LosTacOS.Drivers
