import Mathlib.Data.List.GetD
import Mathlib.Algebra.Notation.Defs
import Mathlib.Logic.Function.Basic

/-! Files as arrays of bytes, and descriptors each with an offset of its own. Nothing here is about
any particular program. -/

variable {ι δ α : Type}

@[ext]
structure ArrayFiles (ι δ α : Type) where
  contents : ι → List α
  offset : δ → Nat

namespace ArrayFiles

structure Outcome (α : Type) where
  value : Int
  bytes : List α

inductive Op (α : Type) where
  | write (data : List α)
  | read (len : Nat)
  /-- from the start, the offset or the end, by the number of the base -/
  | seek (offset : Int) (base : Nat)

section bytes

variable {old data : List α} {o x n len : Nat} {f : Nat → α}

theorem fetched_eq : ((((List.range n).map f).drop o).take len) =
    (List.range (min len (n - o))).map fun x => f (o + x) := by
  apply List.ext_getElem?
  intro x
  rw [List.getElem?_take, List.getElem?_drop, List.getElem?_map, List.getElem?_map]
  by_cases hx : x < min len (n - o)
  · rw [if_pos (by omega), List.getElem?_range hx, List.getElem?_range (by omega)]
    rfl
  · have hout : (List.range (min len (n - o)))[x]? = none :=
      List.getElem?_eq_none (by rw [List.length_range]; omega)
    rw [hout]
    split
    · rw [List.getElem?_eq_none (by rw [List.length_range]; omega)]
      rfl
    · rfl

variable [Zero α]

/-- The bytes after a write at `o`: the file grows as far as it must, and what nobody has written
is zero. -/
def stored (old : List α) (o : Nat) (data : List α) : List α :=
  (old ++ List.replicate (o - old.length) 0).take o ++ data ++ old.drop (o + data.length)

theorem stored_length : (stored old o data).length = max old.length (o + data.length) := by
  unfold stored
  simp only [List.length_append, List.length_take, List.length_replicate, List.length_drop]
  omega

theorem stored_getElem? (h : x < max old.length (o + data.length)) : (stored old o data)[x]? =
    some (if o ≤ x ∧ x < o + data.length then data.getD (x - o) 0 else old.getD x 0) := by
  have htake : ((old ++ List.replicate (o - old.length) 0).take o).length = o := by
    simp only [List.length_append, List.length_take, List.length_replicate]
    omega
  unfold stored
  by_cases hlt : x < o
  · rw [if_neg (by omega), List.append_assoc, List.getElem?_append_left (by omega),
      List.getElem?_take_of_lt hlt, List.getElem?_append]
    split
    · rw [List.getD_eq_getElem?_getD, List.getElem?_eq_getElem ‹_›, Option.getD_some]
    · rw [List.getElem?_replicate_of_lt (by omega), List.getD_eq_default _ _ (by omega)]
  · by_cases hin : x < o + data.length
    · have hd : x - o < data.length := by omega
      rw [if_pos (by omega), List.getElem?_append_left (by rw [List.length_append]; omega),
        List.getElem?_append_right (by omega), htake, List.getD_eq_getElem?_getD,
        List.getElem?_eq_getElem hd, Option.getD_some]
    · have hold : x < old.length := by omega
      rw [if_neg (by omega), List.getElem?_append_right (by rw [List.length_append]; omega),
        List.length_append, htake, List.getElem?_drop, List.getD_eq_getElem?_getD,
        Nat.add_sub_cancel' (by omega), List.getElem?_eq_getElem hold, Option.getD_some]

theorem stored_eq (hn : n = max old.length (o + data.length))
    (hf : ∀ x < n, f x =
      if o ≤ x ∧ x < o + data.length then data.getD (x - o) 0 else old.getD x 0) :
    stored old o data = (List.range n).map f := by
  apply List.ext_getElem?
  intro x
  by_cases hx : x < n
  · rw [stored_getElem? (hn ▸ hx), List.getElem?_map, List.getElem?_range hx, Option.map_some,
      hf x hx]
  · rw [List.getElem?_eq_none, List.getElem?_eq_none]
    · rw [List.length_map, List.length_range]
      omega
    · rw [stored_length]
      omega

theorem stored_nil (h : o ≤ old.length) : stored old o [] = old := by
  unfold stored
  rw [Nat.sub_eq_zero_of_le h, List.replicate_zero, List.append_nil, List.append_nil,
    List.length_nil, Nat.add_zero, List.take_append_drop]

end bytes

variable [DecidableEq ι] [DecidableEq δ] [Zero α]

/-- One call through a descriptor, on the file that it stands for. -/
def step (s : ArrayFiles ι δ α) (d : δ) (i : ι) : Op α → Outcome α × ArrayFiles ι δ α
  | .write data =>
    (⟨data.length, []⟩,
      { contents := Function.update s.contents i (stored (s.contents i) (s.offset d) data)
        offset := Function.update s.offset d (s.offset d + data.length) })
  | .read len =>
    let bytes := ((s.contents i).drop (s.offset d)).take len
    (⟨bytes.length, bytes⟩,
      { s with offset := Function.update s.offset d (s.offset d + bytes.length) })
  | .seek offset base =>
    match ([0, (s.offset d : Int), ((s.contents i).length : Int)] : List Int)[base]? with
    | none => (⟨-1, []⟩, s)
    | some b =>
      if b + offset < 0 then (⟨-1, []⟩, s)
      else (⟨b + offset, []⟩, { s with offset := Function.update s.offset d (b + offset).toNat })

def run (s : ArrayFiles ι δ α) : List (δ × ι × Op α) → List (Outcome α) × ArrayFiles ι δ α
  | [] => ([], s)
  | (d, i, op) :: calls =>
    let (out, s) := s.step d i op
    let (outs, s) := s.run calls
    (out :: outs, s)

end ArrayFiles
