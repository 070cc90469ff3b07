import LosTacOS.Lib.ByteMemory

/-! Bytes that are moved from one place of a memory to another, a few at a time, where the places may
overlap. Nothing here is about any particular program. -/
namespace ByteMemory

variable {m m' : Mem} {a d s w k n i x : Nat}

def move (m : Mem) (d s w : Nat) : Mem := fun x =>
  if d ≤ x ∧ x < d + w then m (s + (x - d)) else m x

theorem move_in (hi : i < w) : move m d s w (d + i) = m (s + i) := by
  have hin : d ≤ d + i ∧ d + i < d + w := by omega
  simp only [move, if_pos hin, Nat.add_sub_cancel_left]

theorem move_out (h : x < d ∨ d + w ≤ x) : move m d s w x = m x := by
  have hout : ¬ (d ≤ x ∧ x < d + w) := by omega
  simp only [move, if_neg hout]

/-- `w` bytes of another memory, from `s` on, are stored at `d`. -/
def paste (m : Mem) (d : Nat) (src : Mem) (s w : Nat) : Mem := fun x =>
  if d ≤ x ∧ x < d + w then src (s + (x - d)) else m x

theorem paste_in (m : Mem) (d : Nat) (src : Mem) (s : Nat) (hi : i < w) :
    paste m d src s w (d + i) = src (s + i) := by
  have hin : d ≤ d + i ∧ d + i < d + w := by omega
  simp only [paste, if_pos hin, Nat.add_sub_cancel_left]

theorem paste_out {src : Mem} (h : x < d ∨ d + w ≤ x) : paste m d src s w x = m x := by
  have hout : ¬ (d ≤ x ∧ x < d + w) := by omega
  simp only [paste, if_neg hout]

theorem paste_zero (m : Mem) (d : Nat) (src : Mem) (s : Nat) : paste m d src s 0 = m := by
  funext x
  exact paste_out (by omega)

theorem paste_congr {src src' : Mem} {s' : Nat} (h : ∀ i < w, src' (s' + i) = src (s + i)) :
    paste m d src' s' w = paste m d src s w := by
  funext x
  by_cases hx : d ≤ x ∧ x < d + w
  · simp only [paste, if_pos hx]
    exact h (x - d) (by omega)
  · simp only [paste, if_neg hx]

theorem paste_paste (m b : Mem) (d : Nat) (src : Mem) (s w : Nat) :
    paste m d (paste b 0 src s w) 0 w = paste m d src s w :=
  paste_congr fun _ hi => paste_in b 0 src s hi

theorem paste_append (m : Mem) (d : Nat) (src : Mem) (s w v : Nat) :
    paste (paste m d src s w) (d + w) src (s + w) v = paste m d src s (w + v) := by
  funext x
  by_cases hlow : x < d + w
  · rw [paste_out (Or.inl hlow)]
    by_cases hd : d ≤ x
    · obtain ⟨i, rfl⟩ := Nat.exists_eq_add_of_le hd
      rw [paste_in _ _ _ _ (by omega), paste_in _ _ _ _ (by omega)]
    · rw [paste_out (by omega), paste_out (by omega)]
  · obtain ⟨i, rfl⟩ := Nat.exists_eq_add_of_le (Nat.le_of_not_lt hlow)
    by_cases hi : i < v
    · rw [paste_in _ _ _ _ hi, Nat.add_assoc d w i, paste_in _ _ _ _ (by omega), Nat.add_assoc]
    · rw [paste_out (by omega), paste_out (by omega), paste_out (by omega)]

/-- Bytes are taken out, some of them are overwritten, and all are put back. -/
theorem paste_back (m b : Mem) (d j : Nat) (src : Mem) (s : Nat) (h : j + w ≤ n) :
    paste m d (paste (paste b 0 m d n) j src s w) 0 n = paste m (d + j) src s w := by
  funext x
  by_cases hx : d ≤ x ∧ x < d + n
  · obtain ⟨i, rfl⟩ := Nat.exists_eq_add_of_le hx.1
    rw [paste_in _ _ _ _ (by omega), Nat.zero_add]
    by_cases hi : j ≤ i ∧ i < j + w
    · obtain ⟨l, rfl⟩ := Nat.exists_eq_add_of_le hi.1
      rw [paste_in _ _ _ _ (by omega), ← Nat.add_assoc, paste_in _ _ _ _ (by omega)]
    · have hin := paste_in b 0 m d (i := i) (w := n) (by omega)
      rw [Nat.zero_add] at hin
      rw [paste_out (m := paste b 0 m d n) (by omega), hin, paste_out (by omega)]
  · rw [paste_out (by omega), paste_out (by omega)]

theorem poke_eq_move (m : Mem) (d s : Nat) : poke m d (m s) = move m d s 1 := by
  funext x
  by_cases hx : x = d
  · rw [hx, poke, if_pos rfl]
    exact (move_in (i := 0) Nat.one_pos).symm
  · rw [poke, if_neg hx, move_out (by omega)]

theorem loadLE_byte (m : Mem) (a : Nat) (hi : i < n) :
    loadLE m a n / 256 ^ i % 256 = (m (a + i)).toNat := by
  induction n generalizing a i with
  | zero => cases hi
  | succ n ih =>
    have hb := (m a).toNat_lt
    cases i with
    | zero =>
      rw [loadLE, Nat.pow_zero, Nat.div_one, Nat.add_mul_mod_self_left]
      exact Nat.mod_eq_of_lt hb
    | succ i =>
      have hrest : loadLE m a (n + 1) / 256 = loadLE m (a + 1) n := by
        rw [loadLE]
        omega
      rw [Nat.pow_succ', ← Nat.div_div_eq_div_mul, hrest, ih (a + 1) (Nat.lt_of_succ_lt_succ hi)]
      congr 2
      omega

theorem storeLE_loadLE (m : Mem) (d s w : Nat) : storeLE m d w (loadLE m s w) = move m d s w := by
  funext x
  by_cases hx : d ≤ x ∧ x < d + w
  · simp only [storeLE, move, if_pos hx]
    rw [loadLE_byte m s (by omega)]
    exact UInt8.ofNat_toNat
  · simp only [storeLE, move, if_neg hx]

/-- The first `k` bytes at `d` are moved from `s`, as far as they were not written before, and the rest
of the memory is as it was. -/
structure Forward (m m' : Mem) (d s k : Nat) : Prop where
  inside : ∀ i < k, d ≤ s ∨ s + i < d → m' (d + i) = m (s + i)
  outside : ∀ x, x < d ∨ d + k ≤ x → m' x = m x

theorem Forward.start (m : Mem) (d s : Nat) : Forward m m d s 0 :=
  ⟨fun _ hi => absurd hi (Nat.not_lt_zero _), fun _ _ => rfl⟩

/-- The next bytes. What is loaded has not been written yet. -/
theorem Forward.move (h : Forward m m' d s k) (w : Nat) :
    Forward m (move m' (d + k) (s + k) w) d s (k + w) := by
  constructor
  · intro i hi hfree
    by_cases hik : i < k
    · rw [move_out (by omega)]
      exact h.inside i hik hfree
    · obtain ⟨j, rfl⟩ := Nat.exists_eq_add_of_le (Nat.le_of_not_lt hik)
      rw [← Nat.add_assoc, move_in (by omega), Nat.add_assoc s k j]
      exact h.outside _ (by omega)
  · intro x hx
    rw [move_out (by omega)]
    exact h.outside x (by omega)

/-- The bytes from `k` up to `n` at `d` are moved from `s`, and the rest of the memory is as it was. -/
structure Backward (m m' : Mem) (d s k n : Nat) : Prop where
  inside : ∀ i, k ≤ i → i < n → m' (d + i) = m (s + i)
  outside : ∀ x, x < d + k ∨ d + n ≤ x → m' x = m x

theorem Backward.start (m : Mem) (d s n : Nat) : Backward m m d s n n :=
  ⟨fun _ hi hn => absurd hn (Nat.not_lt.mpr hi), fun _ _ => rfl⟩

theorem Backward.poke (h : Backward m m' d s (k + 1) n) (hk : k < n) (hs : s ≤ d) :
    Backward m (poke m' (d + k) (m' (s + k))) d s k n := by
  rw [poke_eq_move]
  constructor
  · intro i hi hn
    rcases Nat.eq_or_lt_of_le hi with rfl | hlt
    · have hmoved := move_in (m := m') (d := d + k) (s := s + k) Nat.one_pos
      rw [Nat.add_zero, Nat.add_zero] at hmoved
      rw [hmoved]
      exact h.outside _ (by omega)
    · rw [move_out (by omega)]
      exact h.inside i hlt hn
  · intro x hx
    rw [move_out (by omega)]
    exact h.outside x (by omega)

/-- The first `k` bytes at `d` are `v`, and the rest of the memory is as it was. -/
structure Filled (m m' : Mem) (d : Nat) (v : UInt8) (k : Nat) : Prop where
  inside : ∀ i < k, m' (d + i) = v
  outside : ∀ x, x < d ∨ d + k ≤ x → m' x = m x

theorem Filled.start (m : Mem) (d : Nat) (v : UInt8) : Filled m m d v 0 :=
  ⟨fun _ hi => absurd hi (Nat.not_lt_zero _), fun _ _ => rfl⟩

/-- A number all of whose bytes are `v` goes on with the filling. -/
theorem Filled.store {v : UInt8} {word : Nat} (h : Filled m m' d v k)
    (hword : ∀ i < w, word / 256 ^ i % 256 = v.toNat) :
    Filled m (storeLE m' (d + k) w word) d v (k + w) := by
  constructor
  · intro i hi
    by_cases hik : i < k
    · rw [storeLE_out (by omega)]
      exact h.inside i hik
    · have hin : d + k ≤ d + i ∧ d + i < d + k + w := by omega
      rw [storeLE, if_pos hin, hword _ (by omega)]
      exact UInt8.ofNat_toNat
  · intro x hx
    rw [storeLE_out (by omega)]
    exact h.outside x (by omega)

theorem poke_eq_storeLE (m : Mem) (d : Nat) (v : UInt8) : poke m d v = storeLE m d 1 v.toNat := by
  funext x
  by_cases hx : x = d
  · have hin : d ≤ d ∧ d < d + 1 := by omega
    rw [hx, poke, if_pos rfl, storeLE, if_pos hin, Nat.sub_self, Nat.pow_zero, Nat.div_one,
      Nat.mod_eq_of_lt v.toNat_lt]
    exact UInt8.ofNat_toNat.symm
  · rw [poke, if_neg hx, storeLE_out (by omega)]

theorem Filled.poke {v : UInt8} (h : Filled m m' d v k) :
    Filled m (poke m' (d + k) v) d v (k + 1) := by
  rw [poke_eq_storeLE]
  apply h.store
  intro i hi
  rw [Nat.lt_one_iff.mp hi, Nat.pow_zero, Nat.div_one]
  exact Nat.mod_eq_of_lt v.toNat_lt

end ByteMemory
