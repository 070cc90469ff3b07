import Mathlib.Data.Nat.Digits.Defs
import Mathlib.Tactic.Ring
import Mathlib.Tactic.Linarith

/-! Flat byte memory with little-endian words. Addresses are natural numbers;
a caller whose addresses wrap reduces them first. Nothing here is about any
particular program. -/
namespace ByteMemory

abbrev Mem := Nat → UInt8

/-- The `n` bytes from `a` upward, read as a little-endian number. -/
def loadLE (m : Mem) (a : Nat) : Nat → Nat
  | 0 => 0
  | n+1 => (m a).toNat + 256 * loadLE m (a+1) n

/-- Overwrite the `n` bytes from `a` upward with the low bytes of `v`. -/
def storeLE (m : Mem) (a n v : Nat) : Mem := fun x =>
  if a ≤ x ∧ x < a + n then UInt8.ofNat (v / 256^(x-a) % 256) else m x

def AgreeOn (m m' : Mem) (lo hi : Nat) : Prop := ∀ x, lo ≤ x → x < hi → m' x = m x

theorem AgreeOn.mono {m m' : Mem} {lo hi lo' hi' : Nat} (h : AgreeOn m m' lo hi)
    (hl : lo ≤ lo') (hh : hi' ≤ hi) : AgreeOn m m' lo' hi' := by
  intro x hx hx'
  exact h x (by omega) (by omega)

theorem AgreeOn.trans {m m' m'' : Mem} {lo hi : Nat} (h : AgreeOn m m' lo hi)
    (h' : AgreeOn m' m'' lo hi) : AgreeOn m m'' lo hi := by
  intro x hx hx'
  rw [h' x hx hx', h x hx hx']

theorem AgreeOn.refl (m : Mem) (lo hi : Nat) : AgreeOn m m lo hi := fun _ _ _ => rfl

theorem loadLE_congr {m m' : Mem} {a n : Nat} (h : AgreeOn m m' a (a+n)) :
    loadLE m' a n = loadLE m a n := by
  induction n generalizing a with
  | zero => rfl
  | succ n ih =>
    have ht := ih (a := a+1) (h.mono (by omega) (by omega))
    simp only [loadLE, ht, h a (by omega) (by omega)]

theorem loadLE_shift {m m' : Mem} {a b n : Nat} (h : ∀ i < n, m' (b+i) = m (a+i)) :
    loadLE m' b n = loadLE m a n := by
  induction n generalizing a b with
  | zero => rfl
  | succ n ih =>
    have h0 : m' b = m a := h 0 (by omega)
    have ht : loadLE m' (b+1) n = loadLE m (a+1) n := by
      refine ih fun i hi => ?_
      have hs := h (i+1) (by omega)
      rwa [show b + (i+1) = b + 1 + i by omega, show a + (i+1) = a + 1 + i by omega] at hs
    simp only [loadLE, ht, h0]

theorem loadLE_lt (m : Mem) (a n : Nat) : loadLE m a n < 256^n := by
  induction n generalizing a with
  | zero => simp [loadLE]
  | succ n ih =>
    have hb := (m a).toNat_lt
    have ht := ih (a+1)
    simp only [loadLE, pow_succ]
    omega

/-- Memory that spells out the digits of `v` is read back as `v`. -/
theorem loadLE_digits (m : Mem) (a n v : Nat)
    (h : ∀ i, i < n → (m (a+i)).toNat = v / 256^i % 256) : loadLE m a n = v % 256^n := by
  induction n generalizing a v with
  | zero => simp [loadLE, Nat.mod_one]
  | succ n ih =>
    have h0 : (m a).toNat = v % 256 := by simpa using h 0 (by omega)
    have ht : loadLE m (a+1) n = v / 256 % 256^n := by
      refine ih (a+1) (v/256) fun i hi => ?_
      have hs := h (i+1) (by omega)
      rw [show a + (i+1) = a + 1 + i by omega] at hs
      rw [hs, pow_succ, Nat.mul_comm, Nat.div_div_eq_div_mul]
    rw [loadLE, h0, ht, pow_succ, Nat.mul_comm (256^n), Nat.mod_mul]

theorem loadLE_storeLE_same (m : Mem) (a n v : Nat) :
    loadLE (storeLE m a n v) a n = v % 256^n := by
  refine loadLE_digits _ a n v fun i hi => ?_
  have hin : a ≤ a + i ∧ a + i < a + n := by omega
  have hlt : v / 256^i % 256 < 256 := Nat.mod_lt _ (by omega)
  simp only [storeLE, if_pos hin, Nat.add_sub_cancel_left, UInt8.toNat_ofNat']
  omega

theorem storeLE_out {m : Mem} {a n v x : Nat} (h : x < a ∨ a + n ≤ x) :
    storeLE m a n v x = m x := by
  have hout : ¬ (a ≤ x ∧ x < a + n) := by omega
  simp only [storeLE, if_neg hout]

theorem storeLE_agree {m : Mem} {a n v lo hi : Nat} (h : hi ≤ a ∨ a + n ≤ lo) :
    AgreeOn m (storeLE m a n v) lo hi := by
  intro x hx hx'
  exact storeLE_out (by omega)

/-- A load is unchanged by a store to a disjoint range. -/
theorem loadLE_storeLE_disjoint (m : Mem) {a n b k : Nat} (v : Nat)
    (h : b + k ≤ a ∨ a + n ≤ b) : loadLE (storeLE m a n v) b k = loadLE m b k :=
  loadLE_congr (storeLE_agree h)

def poke (m : Mem) (a : Nat) (v : UInt8) : Mem := fun x => if x = a then v else m x

theorem poke_agree {m : Mem} {a lo hi : Nat} {v : UInt8} (h : a < lo ∨ hi ≤ a) :
    AgreeOn m (poke m a v) lo hi := by
  intro x hx hx'
  have hne : x ≠ a := by omega
  simp only [poke, if_neg hne]

theorem poke_same {m : Mem} {a : Nat} {v : UInt8} (h : m a = v) : poke m a v = m := by
  funext x
  by_cases hx : x = a
  · subst hx; simp [poke, h]
  · simp [poke, hx]

def storeBytes (m : Mem) (a : Nat) (bs : List UInt8) : Mem := fun x =>
  if a ≤ x ∧ x < a + bs.length then bs.getD (x - a) 0 else m x

def loadBytes (m : Mem) (a n : Nat) : List UInt8 := (List.range n).map fun i => m (a + i)

theorem storeBytes_out {m : Mem} {a x : Nat} {bs : List UInt8} (h : x < a ∨ a + bs.length ≤ x) :
    storeBytes m a bs x = m x := by
  have hout : ¬ (a ≤ x ∧ x < a + bs.length) := by omega
  simp only [storeBytes, if_neg hout]

theorem loadBytes_congr {m m' : Mem} {a n : Nat} (h : AgreeOn m m' a (a+n)) :
    loadBytes m' a n = loadBytes m a n := by
  refine List.map_congr_left fun i hi => ?_
  rw [List.mem_range] at hi
  exact h (a+i) (by omega) (by omega)

end ByteMemory
