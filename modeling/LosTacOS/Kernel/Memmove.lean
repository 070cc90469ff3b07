import LosTacOS.Lib.Moves

/-! `memcpy` and `memmove` of the kernel: bytes up to an aligned destination, then words, eight at a
time as long as that goes, then the bytes that are left. -/
namespace LosTacOS.Kstring

open ByteMemory

section code

/-- The destination, the source and the count of a copy that is under way. -/
structure Copy where
  mem : Mem
  d : Nat
  s : Nat
  n : Nat

def alignLoop : Nat → Mem → Nat → Nat → Copy
  | 0, m, d, s => ⟨m, d, s, 0⟩
  | n + 1, m, d, s =>
    if d % 8 = 0 then ⟨m, d, s, n + 1⟩ else alignLoop n (poke m d (m s)) (d + 1) (s + 1)

def copyWord (m : Mem) (d s i : Nat) : Mem := storeLE m (d + 8 * i) 8 (loadLE m (s + 8 * i) 8)

/-- The loop `while (n >= 64)`, for its `n / 64` rounds. -/
def blockLoop : Nat → Copy → Copy
  | 0, c => c
  | rounds + 1, c =>
    blockLoop rounds ⟨(List.range 8).foldl (fun m i => copyWord m c.d c.s i) c.mem,
      c.d + 64, c.s + 64, c.n - 64⟩

/-- The loop `while (n >= 8)`, for its `n / 8` rounds. -/
def wordLoop : Nat → Copy → Copy
  | 0, c => c
  | rounds + 1, c => wordLoop rounds ⟨copyWord c.mem c.d c.s 0, c.d + 8, c.s + 8, c.n - 8⟩

def byteLoop : Nat → Mem → Nat → Nat → Mem
  | 0, m, _, _ => m
  | n + 1, m, d, s => byteLoop n (poke m d (m s)) (d + 1) (s + 1)

def memcpy (m : Mem) (d s n : Nat) : Mem :=
  let c := alignLoop n m d s
  let c := blockLoop (c.n / 64) c
  let c := wordLoop (c.n / 8) c
  byteLoop c.n c.mem c.d c.s

def downLoop (d s : Nat) : Nat → Mem → Mem
  | 0, m => m
  | n + 1, m => downLoop d s n (poke m (d + n) (m (s + n)))

def memmove (m : Mem) (d s n : Nat) : Mem :=
  if d < s then memcpy m d s n else if s < d then downLoop d s n m else m

end code

section forward

variable {m m₁ : Mem} {d s n k : Nat} {c : Copy}

structure Copy.At (c : Copy) (m : Mem) (d s n k : Nat) : Prop where
  moved : Forward m c.mem d s k
  dest : c.d = d + k
  source : c.s = s + k
  left : c.n + k = n

theorem copyWord_eq (m : Mem) (d s i : Nat) : copyWord m d s i = move m (d + 8 * i) (s + 8 * i) 8 :=
  storeLE_loadLE m (d + 8 * i) (s + 8 * i) 8

theorem alignLoop_at (h : Forward m m₁ d s k) :
    ∃ k', (alignLoop n m₁ (d + k) (s + k)).At m d s (n + k) k' := by
  induction n generalizing m₁ k with
  | zero => exact ⟨k, h, rfl, rfl, rfl⟩
  | succ n ih =>
    unfold alignLoop
    split
    · exact ⟨k, h, rfl, rfl, rfl⟩
    · have hnext := h.move 1
      rw [← poke_eq_move] at hnext
      have hrest := ih hnext
      rw [Nat.add_right_comm n 1 k]
      exact hrest

theorem copyWords_moved (h : Forward m m₁ d s k) (j : Nat) :
    Forward m ((List.range j).foldl (fun m i => copyWord m (d + k) (s + k) i) m₁) d s (k + 8 * j) := by
  induction j with
  | zero => exact h
  | succ j ih =>
    have hnext := ih.move 8
    rw [List.range_succ, List.foldl_append, List.foldl_cons, List.foldl_nil, copyWord_eq,
      Nat.add_assoc d k, Nat.add_assoc s k]
    exact hnext

theorem Copy.At.block (h : c.At m d s n k) (hn : 64 ≤ c.n) :
    (Copy.mk ((List.range 8).foldl (fun m i => copyWord m c.d c.s i) c.mem) (c.d + 64) (c.s + 64)
      (c.n - 64)).At m d s n (k + 64) := by
  have hleft := h.left
  rw [h.dest, h.source]
  exact ⟨copyWords_moved h.moved 8, rfl, rfl, by dsimp only; omega⟩

theorem Copy.At.word (h : c.At m d s n k) (hn : 8 ≤ c.n) :
    (Copy.mk (copyWord c.mem c.d c.s 0) (c.d + 8) (c.s + 8) (c.n - 8)).At m d s n (k + 8) := by
  have hleft := h.left
  rw [h.dest, h.source]
  exact ⟨copyWords_moved h.moved 1, rfl, rfl, by dsimp only; omega⟩

theorem blockLoop_at {rounds : Nat} (h : c.At m d s n k) (hn : 64 * rounds ≤ c.n) :
    ∃ k', (blockLoop rounds c).At m d s n k' := by
  induction rounds generalizing c k with
  | zero => exact ⟨k, h⟩
  | succ rounds ih => exact ih (h.block (by omega)) (by dsimp only; omega)

theorem wordLoop_at {rounds : Nat} (h : c.At m d s n k) (hn : 8 * rounds ≤ c.n) :
    ∃ k', (wordLoop rounds c).At m d s n k' := by
  induction rounds generalizing c k with
  | zero => exact ⟨k, h⟩
  | succ rounds ih => exact ih (h.word (by omega)) (by dsimp only; omega)

theorem byteLoop_moved (h : Forward m m₁ d s k) :
    Forward m (byteLoop n m₁ (d + k) (s + k)) d s (k + n) := by
  induction n generalizing m₁ k with
  | zero => exact h
  | succ n ih =>
    have hnext := h.move 1
    rw [← poke_eq_move] at hnext
    have hrest := ih hnext
    rw [Nat.add_right_comm, Nat.add_assoc k] at hrest
    exact hrest

theorem Copy.At.bytes (h : c.At m d s n k) : Forward m (byteLoop c.n c.mem c.d c.s) d s n := by
  have hrest := byteLoop_moved (n := c.n) h.moved
  rw [Nat.add_comm k, h.left] at hrest
  rw [h.dest, h.source]
  exact hrest

/-- The unrolled copy moves every byte, apart from those of the source that it has written before. -/
theorem memcpy_moved (m : Mem) (d s n : Nat) : Forward m (memcpy m d s n) d s n := by
  obtain ⟨k₁, h₁⟩ := @alignLoop_at m m d s n 0 (Forward.start m d s)
  obtain ⟨k₂, h₂⟩ := blockLoop_at h₁ (Nat.mul_div_le _ 64)
  obtain ⟨k₃, h₃⟩ := wordLoop_at h₂ (Nat.mul_div_le _ 8)
  exact h₃.bytes

end forward

theorem downLoop_moved {m m₁ : Mem} {d s n : Nat} (hs : s ≤ d) : ∀ {k : Nat}, k ≤ n →
    Backward m m₁ d s k n → Backward m (downLoop d s k m₁) d s 0 n := by
  intro k
  induction k generalizing m₁ with
  | zero => exact fun _ h => h
  | succ k ih => exact fun hk h => ih (Nat.le_of_lt hk) (h.poke hk hs)

/-- Wherever the two ranges lie, the destination holds what the source did, and nothing else has
changed. -/
theorem memmove_moves (m : Mem) (d s n : Nat) :
    (∀ i < n, memmove m d s n (d + i) = m (s + i)) ∧
      ∀ x, x < d ∨ d + n ≤ x → memmove m d s n x = m x := by
  unfold memmove
  split
  · rename_i hlt
    have hmoved := memcpy_moved m d s n
    exact ⟨fun i hi => hmoved.inside i hi (Or.inl (Nat.le_of_lt hlt)), hmoved.outside⟩
  · rename_i hnot
    split
    · rename_i hgt
      have hmoved := downLoop_moved (Nat.le_of_lt hgt) (Nat.le_refl n) (Backward.start m d s n)
      exact ⟨fun i hi => hmoved.inside i (Nat.zero_le i) hi, hmoved.outside⟩
    · -- the ranges are the same
      have hsame : s = d := by omega
      rw [hsame]
      exact ⟨fun _ _ => rfl, fun _ _ => rfl⟩

end LosTacOS.Kstring
