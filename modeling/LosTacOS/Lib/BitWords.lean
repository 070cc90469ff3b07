import LosTacOS.Lib.Codewords

/-! Bits that are written one after the other, and bytes that hold them. Nothing here is about any
particular program. -/
namespace Canonical

open BitStream

variable {bits : Nat → Bool} {c n x : Nat} {w v : List Bool}

def lowBits (x n : Nat) : List Bool := (List.range n).map x.testBit

@[simp]
theorem lowBits_length (x n : Nat) : (lowBits x n).length = n := by
  rw [lowBits, List.length_map, List.length_range]

theorem begins_iff : Begins bits c w ↔ ∀ j < w.length, bits (c + j) = w.getD j false := by
  unfold Begins
  constructor
  · intro h j hj
    have hget := congrArg (·.getD j false) h
    simpa [List.getD_eq_getElem?_getD, hj] using hget
  · intro h
    apply List.ext_getElem
    · simp
    · intro j _ hj
      simpa [List.getD_eq_getElem?_getD, hj] using h j hj

theorem begins_append :
    Begins bits c (w ++ v) ↔ Begins bits c w ∧ Begins bits (c + w.length) v := by
  simp only [begins_iff, List.length_append]
  constructor
  · intro h
    constructor
    · intro j hj
      rw [h j (by omega), List.getD_append _ _ _ _ hj]
    · intro j hj
      rw [Nat.add_assoc, h _ (by omega), List.getD_append_right _ _ _ _ (by omega),
        Nat.add_sub_cancel_left]
  · rintro ⟨hw, hv⟩ j hj
    by_cases hlt : j < w.length
    · rw [hw j hlt, List.getD_append _ _ _ _ hlt]
    · have hrest := hv (j - w.length) (by omega)
      rw [List.getD_append_right _ _ _ _ (by omega), ← hrest]
      congr 1
      omega

theorem Begins.lowFirst (h : Begins bits c (lowBits x n)) (hx : x < 2 ^ n) :
    lowFirst bits c n = x := by
  have hbits : ∀ j < n, bits (c + j) = x.testBit j := by
    intro j hj
    rw [begins_iff.mp h j (by simpa using hj)]
    simp [lowBits, List.getD_eq_getElem?_getD, hj]
  rw [lowFirst_testBit hbits, Nat.mod_eq_of_lt hx]

theorem testBit_lowFirst {j : Nat} (hj : j < n) :
    (BitStream.lowFirst bits c n).testBit j = bits (c + j) := by
  induction n with
  | zero => cases hj
  | succ n ih =>
    rw [BitStream.lowFirst, Nat.add_comm, Nat.testBit_two_pow_mul_add _ (lowFirst_lt bits c n)]
    split
    · rename_i hlt
      exact ih hlt
    · obtain rfl : j = n := by omega
      rw [Nat.sub_self]
      cases bits (c + j) <;> rfl

def pack (w : List Bool) : List UInt8 :=
  (List.range ((w.length + 7) / 8)).map fun i =>
    UInt8.ofNat (BitStream.lowFirst (fun j => w.getD j false) (8 * i) 8)

@[simp]
theorem pack_length (w : List Bool) : (pack w).length = (w.length + 7) / 8 := by
  rw [pack, List.length_map, List.length_range]

/-- Bytes that begin with the packed ones are the bits. -/
theorem begins_pack {bytes : Nat → UInt8} {len : Nat} (hlen : (pack w).length ≤ len)
    (hbytes : ∀ i < (pack w).length, bytes i = (pack w).getD i 0) :
    Begins (ofBytes bytes len) 0 w := by
  rw [pack_length] at hlen hbytes
  rw [begins_iff]
  intro j hj
  have hdiv : j / 8 < (w.length + 7) / 8 := by omega
  have hbyte : bytes (j / 8) =
      UInt8.ofNat (BitStream.lowFirst (fun k => w.getD k false) (8 * (j / 8)) 8) := by
    rw [hbytes _ hdiv, pack]
    simp [List.getD_eq_getElem?_getD, hdiv]
  have hsmall : BitStream.lowFirst (fun k => w.getD k false) (8 * (j / 8)) 8 < 256 := lowFirst_lt _ _ 8
  unfold ofBytes
  rw [Nat.zero_add, decide_eq_true (by omega), Bool.true_and, hbyte, UInt8.toNat_ofNat',
    Nat.mod_eq_of_lt hsmall, testBit_lowFirst (Nat.mod_lt j (by decide))]
  congr 1
  omega

end Canonical
