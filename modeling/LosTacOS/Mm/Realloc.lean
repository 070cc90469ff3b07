import LosTacOS.Mm.UserHeap

/-! `malloc`, `realloc` and `free` of the C library. Every block is a mapping of its own, nothing
remembers how long it is, and `realloc` copies as many bytes as the new one has. -/
namespace LosTacOS.Mm

open ByteMemory

section code

def Machine.userMove (m : Machine) (r d s w : Nat) : Option Machine := do
  let bs ← m.userLoads r s w
  m.userStores r d bs

/-- The destination, the source and the count of a copy that is under way. -/
structure Copy where
  m : Machine
  d : Nat
  s : Nat
  n : Nat

def alignLoop (r : Nat) : Nat → Machine → Nat → Nat → Option Copy
  | 0, m, d, s => some ⟨m, d, s, 0⟩
  | n + 1, m, d, s =>
    if d % 8 = 0 then some ⟨m, d, s, n + 1⟩
    else (m.userMove r d s 1).bind fun m => alignLoop r n m (d + 1) (s + 1)

/-- The loop `while (n >= 8)`, for its `n / 8` rounds. -/
def wordLoop (r : Nat) : Nat → Copy → Option Copy
  | 0, c => some c
  | rounds + 1, c =>
    (c.m.userMove r c.d c.s 8).bind fun m => wordLoop r rounds ⟨m, c.d + 8, c.s + 8, c.n - 8⟩

def byteLoop (r : Nat) : Nat → Machine → Nat → Nat → Option Machine
  | 0, m, _, _ => some m
  | n + 1, m, d, s => (m.userMove r d s 1).bind fun m => byteLoop r n m (d + 1) (s + 1)

def Machine.memcpy (m : Machine) (r d s n : Nat) : Option Machine := do
  let c ← alignLoop r n m d s
  let c ← wordLoop r (c.n / 8) c
  byteLoop r c.n c.m c.d c.s

/-- `sys_munmap` does nothing. -/
def Machine.sysMunmap (m : Machine) (p : Proc) (ptr : Nat) : Nat × Proc × Machine :=
  if ptr = 0 then (2^64 - 1, p, m) else (0, p, m)

def Machine.malloc (m : Machine) (p : Proc) (size : Nat) : Nat × Proc × Machine :=
  if size = 0 then (0, p, m) else m.sysMmap p size

def Machine.free (m : Machine) (p : Proc) (ptr : Nat) : Proc × Machine :=
  if ptr = 0 then (p, m) else (m.sysMunmap p ptr).2

/-- `realloc`; `none` is a page fault. -/
def Machine.realloc (m : Machine) (p : Proc) (ptr size : Nat) : Option (Nat × Proc × Machine) :=
  if ptr = 0 then some (m.malloc p size)
  else if size = 0 then some (0, m.free p ptr)
  else
    let (newPtr, p, m) := m.malloc p size
    if newPtr ≠ 0 ∧ ptr ≠ 0 then do
      let m ← m.memcpy p.pml4 newPtr ptr size
      return (newPtr, m.free p ptr)
    else some (newPtr, p, m)

end code

inductive HeapCall where
  | malloc (size : Nat)
  | realloc (ptr size : Nat)
  | free (ptr : Nat)

def HeapCall.ptr : HeapCall → Nat
  | .malloc _ => 0
  | .realloc ptr _ => ptr
  | .free ptr => ptr

/-- The length that `SYS_MMAP` is asked for, where it is asked. -/
def HeapCall.request : HeapCall → Nat
  | .malloc size => size
  | .realloc _ size => size
  | .free _ => 0

def Machine.heapCall (m : Machine) (p : Proc) : HeapCall → Option (Nat × Proc × Machine)
  | .malloc size => some (m.malloc p size)
  | .realloc ptr size => m.realloc p ptr size
  | .free ptr => some (0, m.free p ptr)

/-- The calls of a process whose requests all meet a condition, with the blocks that it has been
given (pointer and length), freed or not. Between the calls memory changes in any way that leaves
the pages of the blocks where they are. -/
inductive HeapRun (C : Machine → Proc → Nat → Prop) : Machine → Proc → List (Nat × Nat) → Prop
  | start {m : Machine} {r : Nat} : Tidy r m → HeapRun C m ⟨r, 0⟩ []
  | call {m m' : Machine} {p p' : Proc} {blocks : List (Nat × Nat)} {q : Nat} (c : HeapCall) :
      HeapRun C m p blocks → (c.ptr ≠ 0 → ∃ len, (c.ptr, len) ∈ blocks) →
      (c.request ≠ 0 → C m p c.request) → m.heapCall p c = some (q, p', m') →
      HeapRun C m' p' (if q = 0 then blocks else (q, c.request) :: blocks)
  | meanwhile {m m' : Machine} {p : Proc} {blocks : List (Nat × Nat)} :
      HeapRun C m p blocks → Leaves p.pml4 p.mmapAddr m m' → HeapRun C m' p blocks

def Machine.Succeeds (m : Machine) (p : Proc) (len : Nat) : Prop :=
  len + 0xFFF < 2^64 ∧ (m.sysMmap p len).1 ≠ 0

def Machine.Granted (m : Machine) (p : Proc) (len : Nat) : Prop :=
  len + 0xFFF < 2^64 ∧ m.freshGranted p.pml4 (fun _ => none) (mmapPages len) p.mmapAddr = true

/-- `realloc` of a block of `len` bytes touches mapped memory only, and what it returns begins with
what the block held. -/
def Machine.ReallocOk (m : Machine) (p : Proc) (ptr len size : Nat) : Prop :=
  ∃ q p' m', m.realloc p ptr size = some (q, p', m') ∧
    (q ≠ 0 → ∀ i < min len size, ∃ b,
      m.userLoad p.pml4 (ptr + i) = some b ∧ m'.userLoad p.pml4 (q + i) = some b)

section copy

variable {m m₁ : Machine} {r d s n k top : Nat} {c : Copy}

theorem Heap.move {w : Nat} (h : Heap r m top) (hd : mmapBase ≤ d) (hdt : d + w ≤ top)
    (hs : mmapBase ≤ s) (hst : s + w ≤ top) : ∃ m', m.userMove r d s w = some m' ∧
      Leaves r top m m' ∧ m'.heapBytes r top = move (m.heapBytes r top) d s w := by
  have hloads := h.loads (n := w) hs hst
  obtain ⟨m', hstores, hleaves, hbytes⟩ := @Heap.stores m r d s top w (m.heapBytes r top) h hd hdt
  refine ⟨m', ?_, hleaves, hbytes⟩
  rw [Machine.userMove, hloads]
  exact hstores

structure Carried (r top : Nat) (m m' : Machine) (d s k : Nat) : Prop where
  leaves : Leaves r top m m'
  moved : Forward (m.heapBytes r top) (m'.heapBytes r top) d s k

structure Inside (top d s n : Nat) : Prop where
  dest : mmapBase ≤ d
  destTop : d + n ≤ top
  source : mmapBase ≤ s
  sourceTop : s + n ≤ top

/-- The next `w` bytes. -/
theorem Carried.step {w : Nat} (hH : Heap r m top) (hin : Inside top d s n)
    (h : Carried r top m m₁ d s k) (hw : k + w ≤ n) :
    ∃ m', m₁.userMove r (d + k) (s + k) w = some m' ∧ Carried r top m m' d s (k + w) := by
  obtain ⟨hd, hdt, hs, hst⟩ := hin
  obtain ⟨m', hmove, hleaves, hbytes⟩ := (h.leaves.heap hH).move (w := w)
    (show mmapBase ≤ d + k by omega) (by omega) (show mmapBase ≤ s + k by omega) (by omega)
  refine ⟨m', hmove, h.leaves.trans hleaves, ?_⟩
  rw [hbytes]
  exact h.moved.move w

structure Copy.At (c : Copy) (r top : Nat) (m : Machine) (d s n k : Nat) : Prop where
  carried : Carried r top m c.m d s k
  dest : c.d = d + k
  source : c.s = s + k
  left : c.n + k = n

theorem alignLoop_at {rest : Nat} (hH : Heap r m top) (hin : Inside top d s n)
    (h : Carried r top m m₁ d s k) (hn : rest + k = n) :
    ∃ c k', alignLoop r rest m₁ (d + k) (s + k) = some c ∧ c.At r top m d s n k' := by
  induction rest generalizing m₁ k with
  | zero => exact ⟨_, k, rfl, h, rfl, rfl, hn⟩
  | succ rest ih =>
    unfold alignLoop
    split
    · exact ⟨_, k, rfl, h, rfl, rfl, hn⟩
    · obtain ⟨m', hmove, hnext⟩ := h.step hH hin (show k + 1 ≤ n by omega)
      rw [hmove]
      exact ih hnext (by omega)

theorem wordLoop_at {rounds : Nat} (hH : Heap r m top) (hin : Inside top d s n)
    (h : c.At r top m d s n k) (hn : 8 * rounds ≤ c.n) :
    ∃ c' k', wordLoop r rounds c = some c' ∧ c'.At r top m d s n k' := by
  induction rounds generalizing c k with
  | zero => exact ⟨c, k, rfl, h⟩
  | succ rounds ih =>
    have hleft := h.left
    obtain ⟨m', hmove, hnext⟩ := h.carried.step hH hin (show k + 8 ≤ n by omega)
    rw [wordLoop, h.dest, h.source, hmove]
    exact ih ⟨hnext, rfl, rfl, by dsimp only; omega⟩ (by dsimp only; omega)

theorem byteLoop_carried {rest : Nat} (hH : Heap r m top) (hin : Inside top d s n)
    (h : Carried r top m m₁ d s k) (hn : rest + k = n) :
    ∃ m', byteLoop r rest m₁ (d + k) (s + k) = some m' ∧ Carried r top m m' d s n := by
  induction rest generalizing m₁ k with
  | zero =>
    rw [Nat.zero_add] at hn
    subst hn
    exact ⟨m₁, rfl, h⟩
  | succ rest ih =>
    obtain ⟨m', hmove, hnext⟩ := h.step hH hin (show k + 1 ≤ n by omega)
    rw [byteLoop, hmove]
    exact ih hnext (by omega)

/-- A copy within the heap meets no page fault, and moves every byte, apart from those of the source
that it has written before. -/
theorem Heap.memcpy (hH : Heap r m top) (hin : Inside top d s n) :
    ∃ m', m.memcpy r d s n = some m' ∧ Carried r top m m' d s n := by
  have hstart : Carried r top m m d s 0 := ⟨Leaves.refl hH.tidy, Forward.start _ d s⟩
  obtain ⟨c₁, k₁, he₁, h₁⟩ := @alignLoop_at m m r d s n 0 top n hH hin hstart rfl
  obtain ⟨c₂, k₂, he₂, h₂⟩ := wordLoop_at hH hin h₁ (Nat.mul_div_le _ 8)
  obtain ⟨m', he₃, h₃⟩ := byteLoop_carried hH hin h₂.carried h₂.left
  refine ⟨m', ?_, h₃⟩
  rw [Nat.add_zero, Nat.add_zero] at he₁
  rw [← h₂.dest, ← h₂.source] at he₃
  simp only [Machine.memcpy, he₁, he₂, Option.bind_eq_bind, Option.bind_some, he₃]

end copy

section calls

variable {m m' : Machine} {p p' : Proc} {blocks : List (Nat × Nat)} {ptr len size q : Nat}

structure Given (m : Machine) (p : Proc) (size : Nat) (m' : Machine) (p' : Proc) : Prop where
  root : p'.pml4 = p.pml4
  room : p.mmapAddr + size ≤ p'.mmapAddr
  heap : Heap p'.pml4 m' p'.mmapAddr

theorem Heap.malloc (h : Heap p.pml4 m p.mmapAddr) (hsize : size ≠ 0) (hg : m.Granted p size) :
    ∃ p' m', m.malloc p size = (p.mmapAddr, p', m') ∧ Given m p size m' p' ∧
      ∀ {a}, mmapBase ≤ a → a < p.mmapAddr →
        m'.heapBytes p'.pml4 p'.mmapAddr a = m.heapBytes p.pml4 p.mmapAddr a := by
  have hpos : 0 < size := Nat.pos_of_ne_zero hsize
  obtain ⟨hle, -, hpages⟩ := mmapPages_eq hpos hg.1
  obtain ⟨hdone, hH, hbytes⟩ := h.grow hg.2
  have hnext : p.mmapAddr + mmapPages size * 0x1000 ≠ 0 := by omega
  have haddr : (Proc.mk p.pml4 (p.mmapAddr + mmapPages size * 0x1000)).mmapAddr =
      p.mmapAddr + mmapPages size * 4096 := if_neg hnext
  have hcall : m.malloc p size = (p.mmapAddr, ⟨p.pml4, p.mmapAddr + mmapPages size * 0x1000⟩,
      (m.mapFresh p.pml4 (fun _ => none) (mmapPages size) p.mmapAddr).2) := by
    rw [Machine.malloc, if_neg hsize, sysMmap_done hpos hdone]
  refine ⟨_, _, hcall, ⟨rfl, ?_, ?_⟩, ?_⟩
  · rw [haddr]
    omega
  · rw [haddr]
    exact hH
  · rw [haddr]
    exact hbytes

structure Blocks (m : Machine) (p : Proc) (blocks : List (Nat × Nat)) : Prop where
  heap : Heap p.pml4 m p.mmapAddr
  inside : ∀ {ptr len}, (ptr, len) ∈ blocks → mmapBase ≤ ptr ∧ ptr + len ≤ p.mmapAddr

theorem Blocks.ptr_ne (h : Blocks m p blocks) (hb : (ptr, len) ∈ blocks) : ptr ≠ 0 := by
  have hlo := (h.inside hb).1
  simp only [mmapBase] at hlo
  omega

/-- The new block is the highest, so the bytes of the old one are read before they are written, and
what is read behind it belongs to the process. -/
theorem Blocks.realloc (h : Blocks m p blocks) (hb : (ptr, len) ∈ blocks) (hsize : size ≠ 0)
    (hg : m.Granted p size) : ∃ p' m', m.realloc p ptr size = some (p.mmapAddr, p', m') ∧
      Given m p size m' p' ∧ ∀ i < min len size,
        m'.heapBytes p'.pml4 p'.mmapAddr (p.mmapAddr + i) =
          m.heapBytes p.pml4 p.mmapAddr (ptr + i) := by
  have hptr := h.ptr_ne hb
  obtain ⟨hlo, hhi⟩ := h.inside hb
  obtain ⟨p', m₁, hnew, hgiven, hkeep⟩ := h.heap.malloc hsize hg
  have hroom := hgiven.room
  have hbase := h.heap.low
  have hin : Inside p'.mmapAddr p.mmapAddr ptr size := ⟨hbase, hroom, hlo, by omega⟩
  obtain ⟨m', hcopy, hcarried⟩ := hgiven.heap.memcpy hin
  refine ⟨p', m', ?_, ⟨hgiven.root, hroom, hcarried.leaves.heap hgiven.heap⟩, fun i hi => ?_⟩
  · have hfree : m'.free p' ptr = (p', m') := by
      rw [Machine.free, if_neg hptr, Machine.sysMunmap, if_neg hptr]
    simp only [Machine.realloc, if_neg hptr, if_neg hsize, hnew, hcopy]
    rw [if_pos ⟨mmapAddr_pos p, hptr⟩, ← hfree]
    rfl
  · have hil := (Nat.lt_min.mp hi).1
    rw [hcarried.moved.inside i (Nat.lt_min.mp hi).2 (Or.inr (by omega)),
      hkeep (show mmapBase ≤ ptr + i by omega) (by omega)]

/-- What a call comes to: nothing at all, or a block more. -/
theorem Blocks.result {c : HeapCall} (h : Blocks m p blocks)
    (hptr : c.ptr ≠ 0 → ∃ len, (c.ptr, len) ∈ blocks) (hg : c.request ≠ 0 → m.Granted p c.request)
    (he : m.heapCall p c = some (q, p', m')) :
    q = 0 ∧ p' = p ∧ m' = m ∨ q = p.mmapAddr ∧ Given m p c.request m' p' := by
  have hmalloc : ∀ size, (size ≠ 0 → m.Granted p size) → m.malloc p size = (q, p', m') →
      q = 0 ∧ p' = p ∧ m' = m ∨ q = p.mmapAddr ∧ Given m p size m' p' := by
    intro size hg he
    by_cases hsize : size = 0
    · rw [Machine.malloc, if_pos hsize] at he
      cases he
      exact Or.inl ⟨rfl, rfl, rfl⟩
    · obtain ⟨p₁, m₁, hnew, hgiven, -⟩ := h.heap.malloc hsize (hg hsize)
      rw [hnew] at he
      cases he
      exact Or.inr ⟨rfl, hgiven⟩
  have hfree : ∀ ptr, m.free p ptr = (p, m) := by
    intro ptr
    unfold Machine.free Machine.sysMunmap
    split <;> rfl
  cases c with
  | malloc size => exact hmalloc size hg (Option.some.inj he)
  | free ptr =>
    simp only [Machine.heapCall, hfree] at he
    cases he
    exact Or.inl ⟨rfl, rfl, rfl⟩
  | realloc ptr size =>
    simp only [Machine.heapCall] at he
    by_cases h0 : ptr = 0
    · rw [Machine.realloc, if_pos h0] at he
      exact hmalloc size hg (Option.some.inj he)
    · by_cases hsize : size = 0
      · rw [Machine.realloc, if_neg h0, if_pos hsize, hfree] at he
        cases he
        exact Or.inl ⟨rfl, rfl, rfl⟩
      · obtain ⟨len, hb⟩ := hptr h0
        obtain ⟨p₁, m₁, hnew, hgiven, -⟩ := h.realloc hb hsize (hg hsize)
        have hboth := hnew.symm.trans he
        cases hboth
        exact Or.inr ⟨rfl, hgiven⟩

theorem Blocks.call {c : HeapCall} (h : Blocks m p blocks)
    (hptr : c.ptr ≠ 0 → ∃ len, (c.ptr, len) ∈ blocks) (hg : c.request ≠ 0 → m.Granted p c.request)
    (he : m.heapCall p c = some (q, p', m')) :
    Blocks m' p' (if q = 0 then blocks else (q, c.request) :: blocks) := by
  cases h.result hptr hg he with
  | inl hnone =>
    obtain ⟨hq, rfl, rfl⟩ := hnone
    rw [if_pos hq]
    exact h
  | inr hsome =>
    obtain ⟨rfl, hgiven⟩ := hsome
    have hroom := hgiven.room
    rw [if_neg (mmapAddr_pos p)]
    refine ⟨hgiven.heap, fun {ptr len} hb => ?_⟩
    cases hb with
    | head => exact ⟨h.heap.low, hroom⟩
    | tail _ hb =>
      obtain ⟨hlo, hhi⟩ := h.inside hb
      exact ⟨hlo, by omega⟩

theorem HeapRun.inHeap (h : HeapRun Machine.Granted m p blocks) : Blocks m p blocks := by
  induction h with
  | start ht =>
    have haligned : mmapBase % 4096 = 0 := by decide
    refine ⟨⟨ht, haligned, Nat.le_refl _, fun hlo hhi => ?_, fun hlo hhi => ?_,
      fun hlo hhi => ?_⟩, fun hb => by cases hb⟩ <;> exact absurd hhi (Nat.not_lt.mpr hlo)
  | call c _ hptr hg he ih => exact ih.call hptr hg he
  | meanwhile _ hleaves ih => exact ⟨hleaves.heap ih.heap, ih.inside⟩

/-- In every run whose requests got all their pages and page tables, `realloc` touches mapped memory
only and keeps the bytes of the block, also when the two blocks overlap in the copy. -/
theorem realloc_keeps (h : HeapRun Machine.Granted m p blocks) (hb : (ptr, len) ∈ blocks)
    (hg : (m.sysMmap p size).1 ≠ 0 → m.Granted p size) : m.ReallocOk p ptr len size := by
  have hB := h.inHeap
  have hptr := hB.ptr_ne hb
  obtain ⟨hlo, hhi⟩ := hB.inside hb
  by_cases hsize : size = 0
  · exact ⟨0, m.free p ptr |>.1, m.free p ptr |>.2,
      by rw [Machine.realloc, if_neg hptr, if_pos hsize], fun hq => absurd rfl hq⟩
  · by_cases hnull : (m.sysMmap p size).1 = 0
    · refine ⟨0, (m.sysMmap p size).2.1, (m.sysMmap p size).2.2, ?_, fun hq => absurd rfl hq⟩
      simp only [Machine.realloc, if_neg hptr, if_neg hsize, Machine.malloc]
      rw [if_neg (fun hne => hne.1 hnull), ← hnull]
    · obtain ⟨p', m', he, hgiven, hbytes⟩ := hB.realloc hb hsize (hg hnull)
      have hroom := hgiven.room
      refine ⟨_, p', m', he, fun _ i hi => ?_⟩
      have hi' := Nat.lt_min.mp hi
      refine ⟨m.heapBytes p.pml4 p.mmapAddr (ptr + i), hB.heap.load (by omega) (by omega), ?_⟩
      have hload := hgiven.heap.load (a := p.mmapAddr + i) (by have := hB.heap.low; omega)
        (by omega)
      rw [← hbytes i hi, ← hgiven.root]
      exact hload

end calls

section runs

/-- The first block of a process, copied into a second one. -/
theorem realloc_keeps_first : (blankTable.malloc ⟨0x100, 0⟩ 1).2.2.ReallocOk ⟨0x100, 0x50001000⟩
    0x50000000 1 2 := by
  have hfirst : blankTable.Granted ⟨0x100, 0⟩ 1 := ⟨by norm_num, by decide +kernel⟩
  have hnext : (blankTable.malloc ⟨0x100, 0⟩ 1).2.2.Granted ⟨0x100, 0x50001000⟩ 2 :=
    ⟨by norm_num, by decide +kernel⟩
  have hrun : HeapRun Machine.Granted (blankTable.malloc ⟨0x100, 0⟩ 1).2.2 ⟨0x100, 0x50001000⟩
      [(0x50000000, 1)] :=
    .call (.malloc 1) (.start blankTable_tidy) (fun h => absurd rfl h) (fun _ => hfirst) rfl
  exact realloc_keeps hrun List.mem_cons_self fun _ => hnext

def lastLowPage : Machine := ⟨⟨fun page => page < 0xFFFF, 0, 0, 0xFFFF⟩, fun _ _ => 0⟩

def pagesBack : Machine := ⟨⟨fun page => page < 0x200 || page == 0xFFFF, 0, 0, 0x200⟩, fun _ _ => 0⟩

/-- The page for a block is granted and the table for it is not, and `malloc` returns the block all
the same. When there is memory again, `realloc` reads from it. -/
theorem realloc_faults :
    ¬ ∀ (m : Machine) (p : Proc) (blocks : List (Nat × Nat)) (ptr len size : Nat),
      HeapRun Machine.Succeeds m p blocks → (ptr, len) ∈ blocks → size + 0xFFF < 2^64 →
      (size ≠ 0 → m.Succeeds p size) → m.ReallocOk p ptr len size := by
  intro hall
  have htidy : Tidy 0x100 lastLowPage := blank_tidy (by decide)
  have hfirst : lastLowPage.Succeeds ⟨0x100, 0⟩ 1 := ⟨by norm_num, by decide +kernel⟩
  have hrun : HeapRun Machine.Succeeds (lastLowPage.malloc ⟨0x100, 0⟩ 1).2.2 ⟨0x100, 0x50001000⟩
      [(0x50000000, 1)] :=
    .call (.malloc 1) (.start htidy) (fun h => absurd rfl h) (fun _ => hfirst) rfl
  have hhole : ∀ a, mmapBase ≤ a → a < 0x50001000 →
      leafEntry (lastLowPage.malloc ⟨0x100, 0⟩ 1).2.2.ram 0x100 a = none := by
    intro a hlo hhi
    have hsame : SamePage 0x50000000 a := by
      simp only [mmapBase] at hlo
      rw [samePage_iff (by norm_num) (by omega)]
      omega
    rw [hsame.leafEntry]
    decide +kernel
  have hleaves : Leaves 0x100 0x50001000 (lastLowPage.malloc ⟨0x100, 0⟩ 1).2.2 pagesBack := by
    refine ⟨blank_tidy (by decide), fun {a w} hlo hhi _ hw => ?_⟩
    rw [hhole a hlo hhi] at hw
    cases hw
  have hnext : pagesBack.Succeeds ⟨0x100, 0x50001000⟩ 1 := ⟨by norm_num, by decide +kernel⟩
  obtain ⟨q, p', m', he, -⟩ := hall pagesBack ⟨0x100, 0x50001000⟩ _ 0x50000000 1 1
    (.meanwhile hrun hleaves) List.mem_cons_self (by norm_num) fun _ => hnext
  have hfault : (pagesBack.realloc ⟨0x100, 0x50001000⟩ 0x50000000 1).isNone = true := by
    decide +kernel
  rw [he] at hfault
  cases hfault

end runs
end LosTacOS.Mm
