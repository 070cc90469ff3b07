import Mathlib.Data.Nat.Bitwise
import Mathlib.Tactic.Ring

/-! A zero among the bytes of a number: taking 1 from every byte at once sets the high bit of a byte
that did not have it exactly when some byte is zero. Nothing here is about any particular program. -/
namespace ZeroBytes

variable {n v b x i j : Nat}

def ones : Nat → Nat
  | 0 => 0
  | n + 1 => 1 + 256 * ones n

/-- `v` less 1 in each of its `n` bytes, all in one subtraction. -/
def lowered (n v : Nat) : Nat := (256 ^ n - ones n + v) % 256 ^ n

def Marks (n v i : Nat) : Prop :=
  (lowered n v).testBit (8 * i + 7) = true ∧ v.testBit (8 * i + 7) = false

theorem ones_lt (n : Nat) : ones n < 256 ^ n := by
  induction n with
  | zero => exact Nat.one_pos
  | succ n ih =>
    rw [ones, Nat.pow_succ]
    omega

theorem testBit_first (hb : b < 256) : (b + 256 * x).testBit 7 = b.testBit 7 := by
  rw [Nat.add_comm, show 256 = 2 ^ 8 from rfl, Nat.testBit_two_pow_mul_add x hb, if_pos (by decide)]

theorem testBit_next (hb : b < 256) :
    (b + 256 * x).testBit (8 * (i + 1) + 7) = x.testBit (8 * i + 7) := by
  rw [Nat.add_comm, show 256 = 2 ^ 8 from rfl, Nat.testBit_two_pow_mul_add x hb, if_neg (by omega)]
  congr 1

theorem byte_next (hb : b < 256) : (b + 256 * x) / 256 ^ (i + 1) % 256 = x / 256 ^ i % 256 := by
  rw [Nat.pow_succ', ← Nat.div_div_eq_div_mul]
  congr 2
  omega

theorem lowered_pos (hb : b < 256) (h0 : 0 < b) :
    lowered (n + 1) (b + 256 * x) = b - 1 + 256 * lowered n x := by
  have hlt := ones_lt n
  have hsum : 256 ^ (n + 1) - ones (n + 1) + (b + 256 * x) = b - 1 + 256 * (256 ^ n - ones n + x) := by
    rw [ones, Nat.pow_succ]
    omega
  rw [lowered, hsum, Nat.pow_succ', Nat.mod_mul, Nat.add_mul_mod_self_left,
    Nat.mod_eq_of_lt (by omega), Nat.add_mul_div_left _ _ (by decide), Nat.div_eq_of_lt (by omega),
    Nat.zero_add]
  rfl

theorem lowered_zero : ∃ y, lowered (n + 1) (256 * x) = 255 + 256 * y := by
  have hlt := ones_lt n
  have hsum : 256 ^ (n + 1) - ones (n + 1) + 256 * x = 255 + 256 * (256 ^ n - ones n - 1 + x) := by
    rw [ones, Nat.pow_succ]
    omega
  refine ⟨(256 ^ n - ones n - 1 + x) % 256 ^ n, ?_⟩
  rw [lowered, hsum, Nat.pow_succ', Nat.mod_mul, Nat.add_mul_mod_self_left,
    Nat.add_mul_div_left _ _ (by decide), Nat.div_eq_of_lt (by decide), Nat.zero_add]

/-- Behind a byte that is not zero the subtraction goes on as if it started there. -/
theorem marks_pos (hb : b < 256) (h0 : 0 < b) :
    (∃ i < n + 1, Marks (n + 1) (b + 256 * x) i) ↔ ∃ i < n, Marks n x i := by
  have hfirst : ¬ Marks (n + 1) (b + 256 * x) 0 := by
    rintro ⟨hset, hclear⟩
    rw [lowered_pos hb h0] at hset
    rw [Nat.mul_zero, Nat.zero_add, testBit_first (by omega), Nat.testBit_eq_decide_div_mod_eq,
      decide_eq_true_eq] at hset
    rw [Nat.mul_zero, Nat.zero_add, testBit_first hb, Nat.testBit_eq_decide_div_mod_eq,
      decide_eq_false_iff_not] at hclear
    omega
  have hnext : ∀ i, Marks (n + 1) (b + 256 * x) (i + 1) ↔ Marks n x i := by
    intro i
    unfold Marks
    rw [lowered_pos hb h0, testBit_next (by omega), testBit_next hb]
  constructor
  · rintro ⟨i, hi, hmark⟩
    cases i with
    | zero => exact absurd hmark hfirst
    | succ i => exact ⟨i, by omega, (hnext i).mp hmark⟩
  · rintro ⟨i, hi, hmark⟩
    exact ⟨i + 1, by omega, (hnext i).mpr hmark⟩

/-- Some high bit is set exactly when some byte is zero. -/
theorem marks_iff (n v : Nat) : (∃ i < n, Marks n v i) ↔ ∃ i < n, v / 256 ^ i % 256 = 0 := by
  induction n generalizing v with
  | zero => simp
  | succ n ih =>
    have hv : v = v % 256 + 256 * (v / 256) := (Nat.mod_add_div v 256).symm
    have hb : v % 256 < 256 := Nat.mod_lt _ (by decide)
    generalize v % 256 = b at hv hb
    generalize v / 256 = x at hv
    subst hv
    cases Nat.eq_zero_or_pos b with
    | inl h0 =>
      subst h0
      rw [Nat.zero_add]
      obtain ⟨y, hy⟩ := @lowered_zero n x
      have hmark : Marks (n + 1) (256 * x) 0 := by
        constructor
        · rw [hy, Nat.mul_zero, Nat.zero_add, testBit_first (by decide)]
          decide
        · have hclear := @testBit_first 0 x (by decide)
          rw [Nat.zero_add] at hclear
          rw [Nat.mul_zero, Nat.zero_add, hclear]
          exact Nat.zero_testBit 7
      have hzero : 256 * x / 256 ^ 0 % 256 = 0 := by
        rw [Nat.pow_zero, Nat.div_one, Nat.mul_mod_right]
      exact iff_of_true ⟨0, Nat.succ_pos n, hmark⟩ ⟨0, Nat.succ_pos n, hzero⟩
    | inr h0 =>
      have hfirst : (b + 256 * x) / 256 ^ 0 % 256 ≠ 0 := by
        rw [Nat.pow_zero, Nat.div_one, Nat.add_mul_mod_self_left, Nat.mod_eq_of_lt hb]
        omega
      rw [marks_pos hb h0, ih]
      constructor
      · rintro ⟨i, hi, hzero⟩
        exact ⟨i + 1, by omega, (byte_next hb).trans hzero⟩
      · rintro ⟨i, hi, hzero⟩
        cases i with
        | zero => exact absurd hzero hfirst
        | succ i => exact ⟨i, by omega, (byte_next hb).symm.trans hzero⟩

end ZeroBytes
