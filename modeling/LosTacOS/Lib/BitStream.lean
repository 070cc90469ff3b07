import Mathlib.Data.Nat.Bitwise

/-! Streams of bits and the numbers that runs of them make, first bit lowest or first bit highest.
Nothing here is about any particular program. -/
namespace BitStream

variable {bits : Nat → Bool} {c n m i x : Nat}

/-- The number of `n` bits from place `c` on, the first of them lowest. -/
def lowFirst (bits : Nat → Bool) (c : Nat) : Nat → Nat
  | 0 => 0
  | n + 1 => lowFirst bits c n + 2 ^ n * (bits (c + n)).toNat

/-- The number of `n` bits from place `c` on, the first of them highest. -/
def highFirst (bits : Nat → Bool) (c : Nat) : Nat → Nat
  | 0 => 0
  | n + 1 => 2 * highFirst bits c n + (bits (c + n)).toNat

theorem lowFirst_lt (bits : Nat → Bool) (c n : Nat) : lowFirst bits c n < 2 ^ n := by
  induction n with
  | zero => exact Nat.one_pos
  | succ n ih =>
    have hbit := Bool.toNat_le (bits (c + n))
    have := Nat.mul_le_mul_left (2 ^ n) hbit
    rw [lowFirst, Nat.pow_succ]
    omega

theorem lowFirst_add (bits : Nat → Bool) (c m n : Nat) :
    lowFirst bits c (m + n) = lowFirst bits c m + 2 ^ m * lowFirst bits (c + m) n := by
  induction n with
  | zero =>
    rw [lowFirst, Nat.mul_zero]
    rfl
  | succ n ih =>
    rw [← Nat.add_assoc, lowFirst, lowFirst, ih, Nat.mul_add, ← Nat.mul_assoc, ← Nat.pow_add,
      Nat.add_assoc, Nat.add_assoc]

theorem lowFirst_mod (hn : n ≤ m) : lowFirst bits c m % 2 ^ n = lowFirst bits c n := by
  obtain ⟨k, rfl⟩ := Nat.exists_eq_add_of_le hn
  rw [lowFirst_add, Nat.add_mul_mod_self_left, Nat.mod_eq_of_lt (lowFirst_lt bits c n)]

theorem lowFirst_div (hn : n ≤ m) :
    lowFirst bits c m / 2 ^ n = lowFirst bits (c + n) (m - n) := by
  obtain ⟨k, rfl⟩ := Nat.exists_eq_add_of_le hn
  rw [lowFirst_add, Nat.add_mul_div_left _ _ (Nat.two_pow_pos n),
    Nat.div_eq_of_lt (lowFirst_lt bits c n), Nat.zero_add, Nat.add_sub_cancel_left]

theorem lowFirst_testBit (h : ∀ j < n, bits (c + j) = x.testBit j) :
    lowFirst bits c n = x % 2 ^ n := by
  induction n with
  | zero => exact (Nat.mod_one x).symm
  | succ n ih =>
    rw [lowFirst, ih fun j hj => h j (by omega), h n (Nat.lt_succ_self n), Nat.toNat_testBit,
      Nat.mod_pow_succ]

theorem lowFirst_zero (h : ∀ j < n, bits (c + j) = false) : lowFirst bits c n = 0 := by
  rw [lowFirst_testBit (x := 0) fun j hj => (h j hj).trans (Nat.zero_testBit j).symm]
  exact Nat.zero_mod _

theorem lowFirst_one (bits : Nat → Bool) (c : Nat) : lowFirst bits c 1 = (bits c).toNat := by
  rw [lowFirst, lowFirst, Nat.zero_add, Nat.pow_zero, Nat.one_mul, Nat.add_zero]

/-- The bits of the first `len` bytes, the lowest of each byte first, and zeros behind them. -/
def ofBytes (bytes : Nat → UInt8) (len i : Nat) : Bool :=
  decide (i / 8 < len) && (bytes (i / 8)).toNat.testBit (i % 8)

theorem lowFirst_byte {bytes : Nat → UInt8} {len : Nat} (h : i < len) :
    lowFirst (ofBytes bytes len) (8 * i) 8 = (bytes i).toNat := by
  rw [lowFirst_testBit (x := (bytes i).toNat)]
  · exact Nat.mod_eq_of_lt (bytes i).toNat_lt
  · intro j hj
    have hdiv : (8 * i + j) / 8 = i := by omega
    have hmod : (8 * i + j) % 8 = j := by omega
    unfold ofBytes
    rw [hdiv, hmod, decide_eq_true h, Bool.true_and]

theorem ofBytes_behind {bytes : Nat → UInt8} {len : Nat} (h : 8 * len ≤ i) :
    ofBytes bytes len i = false := by
  unfold ofBytes
  rw [decide_eq_false (by omega), Bool.false_and]

end BitStream
