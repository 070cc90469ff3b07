import LosTacOS.Kernel.Memmove
import LosTacOS.Lib.Loop
import LosTacOS.Lib.ZeroBytes

/-! `memset`, `memcmp` and `strlen` of the kernel, which take words where they can. -/
namespace LosTacOS.Kstring

open ByteMemory

section code

/-- The destination and the count of a `memset` that is under way. -/
structure Filling where
  mem : Mem
  d : Nat
  n : Nat

def spread (v : UInt8) : UInt64 :=
  v.toUInt64 <<< 56 ||| v.toUInt64 <<< 48 ||| v.toUInt64 <<< 40 ||| v.toUInt64 <<< 32 |||
    v.toUInt64 <<< 24 ||| v.toUInt64 <<< 16 ||| v.toUInt64 <<< 8 ||| v.toUInt64

variable (v : UInt8)

/-- `while (count && ((uintptr_t)d & 7)) { *d++ = v; count--; }`. -/
def alignFill : Nat → Mem → Nat → Filling
  | 0, m, d => ⟨m, d, 0⟩
  | n + 1, m, d => if d % 8 = 0 then ⟨m, d, n + 1⟩ else alignFill n (poke m d v) (d + 1)

def fillWord (m : Mem) (d i : Nat) : Mem := storeLE m (d + 8 * i) 8 (spread v).toNat

/-- The loop `while (count >= 64)`, for its `count / 64` rounds. -/
def blockFill : Nat → Filling → Filling
  | 0, c => c
  | rounds + 1, c =>
    blockFill rounds ⟨(List.range 8).foldl (fun m i => fillWord v m c.d i) c.mem, c.d + 64, c.n - 64⟩

/-- The loop `while (count >= 8)`, for its `count / 8` rounds. -/
def wordFill : Nat → Filling → Filling
  | 0, c => c
  | rounds + 1, c => wordFill rounds ⟨fillWord v c.mem c.d 0, c.d + 8, c.n - 8⟩

def byteFill : Nat → Mem → Nat → Mem
  | 0, m, _ => m
  | n + 1, m, d => byteFill n (poke m d v) (d + 1)

def memset (m : Mem) (d : Nat) (value : Int) (count : Nat) : Mem :=
  let v := UInt8.ofInt value
  let c := alignFill v count m d
  let c := blockFill v (c.n / 64) c
  let c := wordFill v (c.n / 8) c
  byteFill v c.n c.mem c.d

variable (m : Mem)

def byteDiff (a b : Nat) : Int := (m a).toNat - (m b).toNat

def cmpBytes : Nat → Nat → Nat → Int
  | 0, _, _ => 0
  | n + 1, a, b => if m a ≠ m b then byteDiff m a b else cmpBytes n (a + 1) (b + 1)

def cmpInner (a b : Nat) : Option Int :=
  ((List.range 8).find? fun i => m (a + i) ≠ m (b + i)).map fun i => byteDiff m (a + i) (b + i)

/-- The loop `while (n >= 8)` of `memcmp`, for its `n / 8` rounds, and what comes behind it. -/
def cmpWords : Nat → Nat → Nat → Nat → Int
  | 0, n, a, b => cmpBytes m n a b
  | rounds + 1, n, a, b =>
    match if loadLE m a 8 ≠ loadLE m b 8 then cmpInner m a b else none with
    | some r => r
    | none => cmpWords rounds (n - 8) (a + 8) (b + 8)

def memcmp : Nat → Nat → Nat → Int
  | 0, _, _ => 0
  | n + 1, a, b =>
    if a % 8 = 0 then cmpWords m ((n + 1) / 8) (n + 1) a b
    else if m a ≠ m b then byteDiff m a b
    else memcmp n (a + 1) (b + 1)

def hasZero (v : UInt64) : UInt64 := (v - 0x0101010101010101) &&& ~~~v &&& 0x8080808080808080

structure Load where
  start : Nat
  width : Nat

/-- A pointer of `strlen`, and what has been loaded so far. -/
structure Scan where
  place : Nat
  loads : List Load

def Scan.byte (c : Scan) : Scan := { c with loads := c.loads ++ [⟨c.place, 1⟩] }

def Scan.word (c : Scan) : Scan := { c with loads := c.loads ++ [⟨c.place, 8⟩] }

def Scan.move (c : Scan) (n : Nat) : Scan := { c with place := c.place + n }

/-- A round of the loop up to an aligned address: `true` when the string ends there. -/
def alignRound (c : Scan) : Turn Scan (Bool × Scan) :=
  if c.place % 8 = 0 then .done (false, c)
  else if m c.place = 0 then .done (true, c.byte)
  else .again (c.byte.move 1)

/-- A round of `while (!has_zero(*w)) w++`. -/
def wordRound (c : Scan) : Turn Scan Scan :=
  if hasZero (UInt64.ofNat (loadLE m c.place 8)) = 0 then .again (c.word.move 8) else .done c.word

/-- A round of `while (*s) s++`. -/
def byteRound (c : Scan) : Turn Scan Scan :=
  if m c.place = 0 then .done c.byte else .again (c.byte.move 1)

/-- `strlen` and its loads, when none of its loops takes more than `fuel` rounds. -/
def strlen (fuel str : Nat) : Option (Nat × List Load) := do
  let (ended, c) ← loopFor (alignRound m) fuel ⟨str, []⟩
  if ended then some (c.place - str, c.loads)
  else
    let c ← loopFor (wordRound m) fuel c
    let c ← loopFor (byteRound m) fuel c
    some (c.place - str, c.loads)

end code

section memset

variable {m m₁ : Mem} {d n k : Nat} {v : UInt8} {c : Filling}

structure Filling.At (c : Filling) (m : Mem) (d : Nat) (v : UInt8) (n k : Nat) : Prop where
  filled : Filled m c.mem d v k
  dest : c.d = d + k
  left : c.n + k = n

theorem spread_byte (v : UInt8) : ∀ i < 8, (spread v).toNat / 256 ^ i % 256 = v.toNat := by
  have hall : ∀ n < 256, ∀ i < 8, (spread (UInt8.ofNat n)).toNat / 256 ^ i % 256 = n := by
    decide +kernel
  have hv := hall v.toNat v.toNat_lt
  rwa [UInt8.ofNat_toNat] at hv

theorem alignFill_at (h : Filled m m₁ d v k) :
    ∃ k', (alignFill v n m₁ (d + k)).At m d v (n + k) k' := by
  induction n generalizing m₁ k with
  | zero => exact ⟨k, h, rfl, rfl⟩
  | succ n ih =>
    unfold alignFill
    split
    · exact ⟨k, h, rfl, rfl⟩
    · have hrest := ih h.poke
      rw [Nat.add_right_comm n 1 k]
      exact hrest

theorem fillWords_filled (h : Filled m m₁ d v k) (j : Nat) :
    Filled m ((List.range j).foldl (fun m i => fillWord v m (d + k) i) m₁) d v (k + 8 * j) := by
  induction j with
  | zero => exact h
  | succ j ih =>
    have hnext := ih.store (spread_byte v)
    rw [List.range_succ, List.foldl_append, List.foldl_cons, List.foldl_nil, fillWord,
      Nat.add_assoc d k]
    exact hnext

theorem Filling.At.block (h : c.At m d v n k) (hn : 64 ≤ c.n) :
    (Filling.mk ((List.range 8).foldl (fun m i => fillWord v m c.d i) c.mem) (c.d + 64)
      (c.n - 64)).At m d v n (k + 64) := by
  have hleft := h.left
  rw [h.dest]
  exact ⟨fillWords_filled h.filled 8, rfl, by dsimp only; omega⟩

theorem Filling.At.word (h : c.At m d v n k) (hn : 8 ≤ c.n) :
    (Filling.mk (fillWord v c.mem c.d 0) (c.d + 8) (c.n - 8)).At m d v n (k + 8) := by
  have hleft := h.left
  rw [h.dest]
  exact ⟨fillWords_filled h.filled 1, rfl, by dsimp only; omega⟩

theorem blockFill_at {rounds : Nat} (h : c.At m d v n k) (hn : 64 * rounds ≤ c.n) :
    ∃ k', (blockFill v rounds c).At m d v n k' := by
  induction rounds generalizing c k with
  | zero => exact ⟨k, h⟩
  | succ rounds ih => exact ih (h.block (by omega)) (by dsimp only; omega)

theorem wordFill_at {rounds : Nat} (h : c.At m d v n k) (hn : 8 * rounds ≤ c.n) :
    ∃ k', (wordFill v rounds c).At m d v n k' := by
  induction rounds generalizing c k with
  | zero => exact ⟨k, h⟩
  | succ rounds ih => exact ih (h.word (by omega)) (by dsimp only; omega)

theorem byteFill_filled (h : Filled m m₁ d v k) : Filled m (byteFill v n m₁ (d + k)) d v (k + n) := by
  induction n generalizing m₁ k with
  | zero => exact h
  | succ n ih =>
    have hrest := ih h.poke
    rw [Nat.add_right_comm, Nat.add_assoc k] at hrest
    exact hrest

theorem Filling.At.bytes (h : c.At m d v n k) : Filled m (byteFill v c.n c.mem c.d) d v n := by
  have hrest := byteFill_filled (n := c.n) h.filled
  rw [Nat.add_comm k, h.left] at hrest
  rw [h.dest]
  exact hrest

theorem memset_filled (m : Mem) (d : Nat) (value : Int) (count : Nat) :
    Filled m (memset m d value count) d (UInt8.ofInt value) count := by
  obtain ⟨k₁, h₁⟩ := alignFill_at (n := count) (Filled.start m d (UInt8.ofInt value))
  obtain ⟨k₂, h₂⟩ := blockFill_at h₁ (Nat.mul_div_le _ 64)
  obtain ⟨k₃, h₃⟩ := wordFill_at h₂ (Nat.mul_div_le _ 8)
  exact h₃.bytes

end memset

section memcmp

variable {m : Mem} {a b n : Nat} {r : Int}

/-- What `memcmp` answers: 0 for equal bytes, and else the difference of the first two that
differ. -/
structure Compares (m : Mem) (a b n : Nat) (r : Int) : Prop where
  equal : (∀ i < n, m (a + i) = m (b + i)) → r = 0
  first : ∀ k < n, (∀ i < k, m (a + i) = m (b + i)) → m (a + k) ≠ m (b + k) →
    r = (m (a + k)).toNat - (m (b + k)).toNat

theorem Compares.skip {j : Nat} (h : Compares m (a + j) (b + j) n r)
    (heq : ∀ i < j, m (a + i) = m (b + i)) : Compares m a b (n + j) r := by
  constructor
  · intro hall
    apply h.equal
    intro i hi
    rw [Nat.add_assoc, Nat.add_assoc]
    exact hall (j + i) (by omega)
  · intro k hk hall hne
    have hjk : j ≤ k := by
      by_contra hlt
      exact hne (heq k (Nat.lt_of_not_le hlt))
    obtain ⟨i, rfl⟩ := Nat.exists_eq_add_of_le hjk
    rw [← Nat.add_assoc, ← Nat.add_assoc] at hne ⊢
    refine h.first i (by omega) (fun x hx => ?_) hne
    rw [Nat.add_assoc, Nat.add_assoc]
    exact hall (j + x) (by omega)

theorem compares_diff {j : Nat} (heq : ∀ i < j, m (a + i) = m (b + i)) (hj : j < n)
    (hne : m (a + j) ≠ m (b + j)) : Compares m a b n (byteDiff m (a + j) (b + j)) := by
  constructor
  · intro hall
    exact absurd (hall j hj) hne
  · intro k hk hall hne'
    have hjk : j = k := by
      rcases Nat.lt_trichotomy j k with hlt | heq' | hgt
      · exact absurd (hall j hlt) hne
      · exact heq'
      · exact absurd (heq k hgt) hne'
    rw [hjk]
    rfl

theorem compares_byte (h : Compares m (a + 1) (b + 1) n r) :
    Compares m a b (n + 1) (if m a ≠ m b then byteDiff m a b else r) := by
  split
  · rename_i hne
    have hdiff := compares_diff (j := 0) (n := n + 1) (fun i hi => absurd hi (Nat.not_lt_zero i))
      (Nat.succ_pos n) hne
    exact hdiff
  · rename_i heq
    refine h.skip fun i hi => ?_
    rw [Nat.lt_one_iff.mp hi]
    exact not_not.mp heq

theorem cmpBytes_compares (m : Mem) (n a b : Nat) : Compares m a b n (cmpBytes m n a b) := by
  induction n generalizing a b with
  | zero => exact ⟨fun _ => rfl, fun k hk => absurd hk (Nat.not_lt_zero k)⟩
  | succ n ih => exact compares_byte (ih (a + 1) (b + 1))

/-- Words with the same bytes are equal, and others are not. -/
theorem loadLE_eq_iff (m : Mem) (a b : Nat) (n : Nat) :
    loadLE m a n = loadLE m b n ↔ ∀ i < n, m (a + i) = m (b + i) := by
  constructor
  · intro h i hi
    have hbyte := loadLE_byte m a hi
    rw [h, loadLE_byte m b hi] at hbyte
    exact (UInt8.toNat_inj.mp hbyte).symm
  · exact fun h => (loadLE_shift h)

theorem cmpWords_compares (m : Mem) {rounds : Nat} : ∀ {n a b : Nat}, 8 * rounds ≤ n →
    Compares m a b n (cmpWords m rounds n a b) := by
  induction rounds with
  | zero => exact fun _ => cmpBytes_compares m _ _ _
  | succ rounds ih =>
    intro n a b hn
    have hrest := @ih (n - 8) (a + 8) (b + 8) (by omega)
    have hsplit : n - 8 + 8 = n := by omega
    unfold cmpWords
    by_cases heq : loadLE m a 8 = loadLE m b 8
    · rw [if_neg (not_not.mpr heq)]
      have hskip := hrest.skip ((loadLE_eq_iff m a b 8).mp heq)
      rw [hsplit] at hskip
      exact hskip
    · rw [if_pos heq, cmpInner]
      cases hfind : (List.range 8).find? fun i => m (a + i) ≠ m (b + i) with
      | none =>
        rw [List.find?_eq_none] at hfind
        refine absurd ((loadLE_eq_iff m a b 8).mpr fun i hi => ?_) heq
        simpa using hfind i (List.mem_range.mpr hi)
      | some j =>
        obtain ⟨hj, hmem, hfirst⟩ := List.find?_range_eq_some.mp hfind
        have hlt := List.mem_range.mp hmem
        refine compares_diff (fun i hi => ?_) (by omega) (by simpa using hj)
        simpa using hfirst i hi

theorem memcmp_compares (m : Mem) (n a b : Nat) : Compares m a b n (memcmp m n a b) := by
  induction n generalizing a b with
  | zero => exact ⟨fun _ => rfl, fun k hk => absurd hk (Nat.not_lt_zero k)⟩
  | succ n ih =>
    unfold memcmp
    split
    · exact cmpWords_compares m (Nat.mul_div_le _ 8)
    · exact compares_byte (ih (a + 1) (b + 1))

end memcmp

section strlen

theorem hasZero_testBit (v : UInt64) (j : Nat) : (hasZero v).toNat.testBit j =
    ((ZeroBytes.lowered 8 v.toNat).testBit j && !v.toNat.testBit j &&
      (0x8080808080808080 : Nat).testBit j) := by
  have hlow : (v - 0x0101010101010101).toNat = ZeroBytes.lowered 8 v.toNat := by
    rw [UInt64.toNat_sub]
    rfl
  have hnot : (~~~v).toNat = 2 ^ 64 - (v.toNat + 1) := by
    rw [UInt64.toNat_not, Nat.sub_sub, Nat.add_comm 1]
    rfl
  have hlt : ZeroBytes.lowered 8 v.toNat < 2 ^ 64 := Nat.mod_lt _ (by decide)
  have hmask : (0x8080808080808080 : UInt64).toNat = 0x8080808080808080 := rfl
  rw [hasZero, UInt64.toNat_and, UInt64.toNat_and, hlow, hnot, hmask, Nat.testBit_and,
    Nat.testBit_and, Nat.testBit_two_pow_sub_succ v.toNat_lt]
  by_cases hj : j < 64
  · rw [decide_eq_true hj, Bool.true_and]
  · have hhigh := Nat.testBit_lt_two_pow (Nat.lt_of_lt_of_le hlt
      (Nat.pow_le_pow_right (by decide) (Nat.le_of_not_lt hj)))
    rw [hhigh, Bool.false_and, Bool.false_and, Bool.false_and, Bool.false_and]

theorem hasZero_iff (v : UInt64) : hasZero v ≠ 0 ↔ ∃ i < 8, v.toNat / 256 ^ i % 256 = 0 := by
  have hmask : ∀ j < 64, (0x8080808080808080 : Nat).testBit j = true → j % 8 = 7 := by decide
  have hhigh : ∀ i < 8, (0x8080808080808080 : Nat).testBit (8 * i + 7) = true := by decide
  rw [← ZeroBytes.marks_iff]
  constructor
  · intro hne
    have hnat : (hasZero v).toNat ≠ 0 := fun h => hne (UInt64.toNat_inj.mp h)
    obtain ⟨j, hj⟩ := Nat.exists_testBit_of_ne_zero hnat
    have hlt : j < 64 := by
      by_contra hge
      have hsmall := Nat.testBit_lt_two_pow (Nat.lt_of_lt_of_le (hasZero v).toNat_lt
        (Nat.pow_le_pow_right (by decide) (Nat.le_of_not_lt hge)))
      rw [hsmall] at hj
      cases hj
    rw [hasZero_testBit] at hj
    simp only [Bool.and_eq_true, Bool.not_eq_true'] at hj
    have hmod := hmask j hlt hj.2
    refine ⟨j / 8, by omega, ?_⟩
    have hplace : 8 * (j / 8) + 7 = j := by omega
    rw [ZeroBytes.Marks, hplace]
    exact hj.1
  · rintro ⟨i, hi, hset, hclear⟩ hzero
    have hbit := hasZero_testBit v (8 * i + 7)
    rw [hzero, hset, hclear, hhigh i hi] at hbit
    have hfalse := hbit.symm.trans (Nat.zero_testBit _)
    cases hfalse

variable {m : Mem} {str len fuel : Nat} {c c' : Scan}

structure EndsAt (m : Mem) (str len : Nat) : Prop where
  before : ∀ i < len, m (str + i) ≠ 0
  null : m (str + len) = 0

/-- A word is read whole, and up to which word, counted in words of 8 bytes, memory is read. -/
def Load.Within (l : Load) (top : Nat) : Prop :=
  (l.start + l.width - 1) / 8 ≤ top / 8 ∧ (l.width = 8 → l.start % 8 = 0)

structure Scan.Before (c : Scan) (str len : Nat) : Prop where
  start : str ≤ c.place
  stop : c.place ≤ str + len
  loads : ∀ l ∈ c.loads, l.Within (str + len)

theorem Scan.Before.load (h : c.Before str len) {width : Nat}
    (hwidth : (⟨c.place, width⟩ : Load).Within (str + len)) :
    ∀ l ∈ c.loads ++ [⟨c.place, width⟩], l.Within (str + len) := by
  intro l hl
  rcases List.mem_append.mp hl with hl | hl
  · exact h.loads l hl
  · rw [List.mem_singleton.mp hl]
    exact hwidth

theorem Scan.Before.byte (h : c.Before str len) : c.byte.Before str len := by
  have hstop := h.stop
  exact ⟨h.start, hstop, h.load ⟨by dsimp only; omega, nofun⟩⟩

theorem Scan.Before.word (h : c.Before str len) (hal : c.place % 8 = 0) :
    c.word.Before str len := by
  have hstop := h.stop
  exact ⟨h.start, hstop, h.load ⟨by dsimp only; omega, fun _ => hal⟩⟩

theorem EndsAt.eq (h : EndsAt m str len) (hc : c.Before str len) (h0 : m c.place = 0) :
    c.place = str + len := by
  have hstart := hc.start
  have hstop := hc.stop
  by_contra hne
  have hbyte := h.before (c.place - str) (by omega)
  rw [show str + (c.place - str) = c.place by omega] at hbyte
  exact hbyte h0

/-- A byte that is not the end is followed by one that is still in the string. -/
theorem EndsAt.move (h : EndsAt m str len) (hc : c.Before str len) (h0 : m c.place ≠ 0) :
    (c.byte.move 1).Before str len ∧ str + len - (c.byte.move 1).place < str + len - c.place := by
  have hne : c.place ≠ str + len := fun he => h0 (by rw [he]; exact h.null)
  have hbyte := hc.byte
  have hstop := hc.stop
  have hplace : (c.byte.move 1).place = c.place + 1 := rfl
  rw [hplace]
  exact ⟨⟨Nat.le_succ_of_le hbyte.start, by rw [hplace]; omega, hbyte.loads⟩, by omega⟩

/-- An aligned word without a zero is followed by one that is still in the string. -/
theorem EndsAt.skip (h : EndsAt m str len) (hc : c.Before str len) (hal : c.place % 8 = 0)
    (hno : hasZero (UInt64.ofNat (loadLE m c.place 8)) = 0) :
    (c.word.move 8).Before str len ∧ str + len - (c.word.move 8).place < str + len - c.place := by
  have hstop := hc.stop
  have hsmall := loadLE_lt m c.place 8
  have hword : (UInt64.ofNat (loadLE m c.place 8)).toNat = loadLE m c.place 8 := by
    rw [UInt64.toNat_ofNat']
    exact Nat.mod_eq_of_lt hsmall
  have hfar : c.place + 8 ≤ str + len := by
    by_contra hlt
    refine (hasZero_iff _).mpr ⟨str + len - c.place, by omega, ?_⟩ hno
    rw [hword, loadLE_byte m _ (by omega), show c.place + (str + len - c.place) = str + len by omega,
      h.null]
    rfl
  have hw := hc.word hal
  have hplace : (c.word.move 8).place = c.place + 8 := rfl
  rw [hplace]
  exact ⟨⟨Nat.le_add_right_of_le hw.start, by rw [hplace]; exact hfar, hw.loads⟩, by omega⟩

theorem EndsAt.alignRound (h : EndsAt m str len) {t : Scan} (hc : c.Before str len)
    (hagain : alignRound m c = .again t) :
    t.Before str len ∧ str + len - t.place < str + len - c.place := by
  unfold Kstring.alignRound at hagain
  split at hagain
  · cases hagain
  · split at hagain
    · cases hagain
    · rename_i h0
      cases hagain
      exact h.move hc h0

/-- The first loop comes to the end of the string or to an aligned place in it. -/
theorem EndsAt.alignLoop (h : EndsAt m str len) (hc : c.Before str len) (hf : len < fuel) :
    ∃ ended c', loopFor (Kstring.alignRound m) fuel c = some (ended, c') ∧ c'.Before str len ∧
      (if ended then c'.place = str + len else c'.place % 8 = 0) := by
  have hstart := hc.start
  obtain ⟨⟨ended, c'⟩, t, hr, ht, hdone⟩ := Turn.loopFor_last (fun c : Scan => c.Before str len)
    (fun c : Scan => str + len - c.place) (fun s t hs => h.alignRound hs) hc (n := fuel) (by omega)
  refine ⟨ended, c', hr, ?_⟩
  unfold Kstring.alignRound at hdone
  split at hdone
  · rename_i hal
    cases hdone
    exact ⟨ht, hal⟩
  · split at hdone
    · rename_i h0
      cases hdone
      have hplace : t.byte.place = t.place := rfl
      exact ⟨ht.byte, hplace.trans (h.eq ht h0)⟩
    · cases hdone

theorem EndsAt.wordRound (h : EndsAt m str len) {t : Scan}
    (hc : c.Before str len ∧ c.place % 8 = 0) (hagain : wordRound m c = .again t) :
    (t.Before str len ∧ t.place % 8 = 0) ∧ str + len - t.place < str + len - c.place := by
  unfold Kstring.wordRound at hagain
  split at hagain
  · rename_i hno
    cases hagain
    obtain ⟨hbefore, hless⟩ := h.skip hc.1 hc.2 hno
    have hplace : (c.word.move 8).place = c.place + 8 := rfl
    exact ⟨⟨hbefore, by have := hc.2; omega⟩, hless⟩
  · cases hagain

theorem EndsAt.wordLoop (h : EndsAt m str len) (hc : c.Before str len) (hal : c.place % 8 = 0)
    (hf : len < fuel) : ∃ c', loopFor (Kstring.wordRound m) fuel c = some c' ∧ c'.Before str len := by
  have hstart := hc.start
  obtain ⟨c', t, hr, ht, hdone⟩ := Turn.loopFor_last
    (fun c : Scan => c.Before str len ∧ c.place % 8 = 0) (fun c : Scan => str + len - c.place)
    (fun s t hs => h.wordRound hs) ⟨hc, hal⟩ (n := fuel) (by omega)
  refine ⟨c', hr, ?_⟩
  unfold Kstring.wordRound at hdone
  split at hdone
  · cases hdone
  · cases hdone
    exact ht.1.word ht.2

theorem EndsAt.byteRound (h : EndsAt m str len) {t : Scan} (hc : c.Before str len)
    (hagain : byteRound m c = .again t) :
    t.Before str len ∧ str + len - t.place < str + len - c.place := by
  unfold Kstring.byteRound at hagain
  split at hagain
  · cases hagain
  · rename_i h0
    cases hagain
    exact h.move hc h0

theorem EndsAt.byteLoop (h : EndsAt m str len) (hc : c.Before str len) (hf : len < fuel) :
    ∃ c', loopFor (Kstring.byteRound m) fuel c = some c' ∧ c'.Before str len ∧
      c'.place = str + len := by
  have hstart := hc.start
  obtain ⟨c', t, hr, ht, hdone⟩ := Turn.loopFor_last (fun c : Scan => c.Before str len)
    (fun c : Scan => str + len - c.place) (fun s t hs => h.byteRound hs) hc (n := fuel) (by omega)
  refine ⟨c', hr, ?_⟩
  unfold Kstring.byteRound at hdone
  split at hdone
  · rename_i h0
    cases hdone
    have hplace : t.byte.place = t.place := rfl
    exact ⟨ht.byte, hplace.trans (h.eq ht h0)⟩
  · cases hdone

/-- `strlen` finds the end, and loads from no word behind it. -/
theorem EndsAt.strlen (h : EndsAt m str len) (hf : len < fuel) :
    ∃ loads, strlen m fuel str = some (len, loads) ∧ ∀ l ∈ loads, l.Within (str + len) := by
  have hc : (⟨str, []⟩ : Scan).Before str len := ⟨Nat.le_refl _, Nat.le_add_right _ _, nofun⟩
  obtain ⟨ended, c₁, h₁, hc₁, hend⟩ := h.alignLoop hc hf
  rw [Kstring.strlen, h₁, Option.bind_eq_bind, Option.bind_some]
  cases ended with
  | true =>
    have hlen : c₁.place - str = len := by
      rw [if_pos rfl] at hend
      omega
    refine ⟨c₁.loads, ?_, hc₁.loads⟩
    dsimp only
    rw [if_pos rfl, hlen]
  | false =>
    obtain ⟨c₂, h₂, hc₂⟩ := h.wordLoop hc₁ (by simpa using hend) hf
    obtain ⟨c₃, h₃, hc₃, hend₃⟩ := h.byteLoop hc₂ hf
    have hlen : c₃.place - str = len := by omega
    refine ⟨c₃.loads, ?_, hc₃.loads⟩
    dsimp only
    rw [if_neg (by decide), h₂, Option.bind_eq_bind, Option.bind_some, h₃, Option.bind_some, hlen]

end strlen

/-- The functions on words do what they would do byte by byte: `memset` sets the bytes of the range
and no others, `memcmp` answers for the first difference, `strlen` comes to the index of the first
null byte with no load from a word behind it, and its trick is exact. -/
theorem words_as_bytes (m : Mem) :
    (∀ d value count, (∀ i < count, memset m d value count (d + i) = UInt8.ofInt value) ∧
      ∀ x, x < d ∨ d + count ≤ x → memset m d value count x = m x) ∧
    (∀ a b n, Compares m a b n (memcmp m n a b)) ∧
    (∀ str len fuel, EndsAt m str len → len < fuel →
      ∃ loads, strlen m fuel str = some (len, loads) ∧ ∀ l ∈ loads, l.Within (str + len)) ∧
    ∀ v, hasZero v ≠ 0 ↔ ∃ i < 8, v.toNat / 256 ^ i % 256 = 0 :=
  ⟨fun d value count => ⟨(memset_filled m d value count).inside, (memset_filled m d value count).outside⟩,
    fun a b n => memcmp_compares m n a b, fun _ _ _ h hf => h.strlen hf, hasZero_iff⟩

def longString : Mem := fun x => if 3 ≤ x ∧ x < 30 then 65 else 0

theorem words_as_bytes_long : ∃ loads, strlen longString 28 3 = some (27, loads) ∧
    ∀ l ∈ loads, l.Within 30 := by
  have hends : EndsAt longString 3 27 := by
    refine ⟨?_, rfl⟩
    intro i hi
    rw [longString, if_pos (by omega)]
    decide
  exact (words_as_bytes longString).2.2.1 3 27 28 hends (by decide)

end LosTacOS.Kstring
