import LosTacOS.Heap.Alloc
import LosTacOS.Heap.Layout
import Mathlib.Tactic.SplitIfs

/-! The heap in memory represents a tiling: headers, links and footers spell out the block
list. `kmalloc` and `kfree` on memory simulate `malloc` and `release` on the tiling. -/
namespace LosTacOS.Heap
open ByteMemory

section Run

variable {α β : Type}

@[simp] theorem bind_run (x : HeapM α) (f : α → HeapM β) (h : HeapState) :
    (x >>= f) h = (x h).bind fun p => f p.1 p.2 := (rfl)
theorem some_bind (a : α) (f : α → Option β) : (some a).bind f = f a := (rfl)
@[simp] theorem map_run (f : α → β) (x : HeapM α) (h : HeapState) :
    (f <$> x) h = (x h).bind fun p => some (f p.1, p.2) := (rfl)
@[simp] theorem pure_run (a : α) (h : HeapState) : (pure a : HeapM α) h = some (a, h) := (rfl)
@[simp] theorem get_run (h : HeapState) : (get : HeapM HeapState) h = some (h, h) := (rfl)
@[simp] theorem modify_run (f : HeapState → HeapState) (h : HeapState) :
    (modify f : HeapM Unit) h = some ((), f h) := (rfl)
@[simp] theorem load_run (a n : Nat) (h : HeapState) :
    load a n h = some (loadLE h.mem a n, h.touch a n) := (rfl)
@[simp] theorem store_run (a n v : Nat) (h : HeapState) : store a n v h = some ((), h.put a n v) := (rfl)
@[simp] theorem setCursor_run (b : Nat) (h : HeapState) :
    setCursor b h = some ((), { h with allocCursor := b }) := (rfl)

@[simp] theorem getSize_run (b : Nat) (h : HeapState) :
    getSize b h = some (loadLE h.mem b 8, h.touch b 8) := (rfl)
@[simp] theorem setSize_run (b v : Nat) (h : HeapState) :
    setSize b v h = some ((), h.put b 8 v) := (rfl)
@[simp] theorem setFree_run (b : Nat) (f : Bool) (h : HeapState) :
    setFree b f h = some ((), h.put (b + 8) 1 (if f then 1 else 0)) := (rfl)
@[simp] theorem getNext_run (b : Nat) (h : HeapState) :
    getNext b h = some (loadLE h.mem (b + 16) 8, h.touch (b + 16) 8) := (rfl)
@[simp] theorem setNext_run (b p : Nat) (h : HeapState) :
    setNext b p h = some ((), h.put (b + 16) 8 p) := (rfl)

end Run

@[simp] theorem touch_mem (h : HeapState) (a n : Nat) : (h.touch a n).mem = h.mem := (rfl)
@[simp] theorem touch_head (h : HeapState) (a n : Nat) : (h.touch a n).heapHead = h.heapHead := (rfl)
@[simp] theorem touch_cursor (h : HeapState) (a n : Nat) :
    (h.touch a n).allocCursor = h.allocCursor := (rfl)
@[simp] theorem touch_initialized (h : HeapState) (a n : Nat) :
    (h.touch a n).heapInitialized = h.heapInitialized := (rfl)
@[simp] theorem put_mem (h : HeapState) (a n v : Nat) : (h.put a n v).mem = storeLE h.mem a n v := (rfl)
@[simp] theorem put_head (h : HeapState) (a n v : Nat) : (h.put a n v).heapHead = h.heapHead := (rfl)
@[simp] theorem put_cursor (h : HeapState) (a n v : Nat) :
    (h.put a n v).allocCursor = h.allocCursor := (rfl)

theorem wrap_of_lt {x : Nat} (h : x < 2^64) : wrap x = x := Nat.mod_eq_of_lt h

def Within (h : HeapState) : Prop :=
  ∀ x ∈ h.touched, heapStart ≤ x.1 ∧ x.1 + x.2 ≤ heapStart + heapSize

structure Cell (m : Mem) (a : Nat) (b : Blk) (nx : Nat) : Prop where
  size : loadLE m a 8 = b.size
  free : loadLE m (a + 8) 1 = if b.free then 1 else 0
  next : loadLE m (a + 16) 8 = nx
  footer : loadLE m (a + 24 + b.size) 8 = b.size

/-- The blocks stand in memory from `a` upward, each linked to its physical successor and
the last one to `nx`. -/
def Rep (m : Mem) : Nat → List Blk → Nat → Prop
  | _, [], _ => True
  | a, b :: bs, nx =>
    Cell m a b (if bs = [] then nx else a + 32 + b.size) ∧ Rep m (a + 32 + b.size) bs nx

theorem Cell.congr {m w : Mem} {a nx : Nat} {b : Blk} (h : Cell m a b nx)
    (hh : AgreeOn m w a (a + 24)) (hf : AgreeOn m w (a + 24 + b.size) (a + 32 + b.size)) :
    Cell w a b nx := by
  refine ⟨?_, ?_, ?_, ?_⟩
  · rw [loadLE_congr (hh.mono (by omega) (by omega)), h.size]
  · rw [loadLE_congr (hh.mono (by omega) (by omega)), h.free]
  · rw [loadLE_congr (hh.mono (by omega) (by omega)), h.next]
  · rw [loadLE_congr (hf.mono (by omega) (by omega)), h.footer]

theorem Rep.congr {m m' : Mem} {a nx : Nat} {bs : List Blk} (h : Rep m a bs nx)
    (ha : AgreeOn m m' a (a + span bs)) : Rep m' a bs nx := by
  induction bs generalizing a with
  | nil => trivial
  | cons b bs ih =>
    obtain ⟨hc, ht⟩ := h
    simp only [span_cons] at ha
    exact ⟨hc.congr (ha.mono (by omega) (by omega)) (ha.mono (by omega) (by omega)),
      ih ht (ha.mono (by omega) (by omega))⟩

theorem rep_append {m : Mem} {a nx : Nat} {u v : List Blk} :
    Rep m a (u ++ v) nx ↔
      Rep m a u (if v = [] then nx else a + span u) ∧ Rep m (a + span u) v nx := by
  induction u generalizing a with
  | nil => simp [Rep]
  | cons b u ih =>
    have he : a + 32 + b.size + span u = a + span (b :: u) := by simp only [span_cons]; omega
    simp only [List.cons_append, Rep, ih, he, List.append_eq_nil_iff]
    by_cases hu : u = []
    · subst hu
      by_cases hv : v = [] <;> simp [Rep, hv, Nat.add_assoc]
    · simp only [hu, false_and, if_false]
      tauto

theorem Rep.replace {m w : Mem} {a nx : Nat} {u x y v : List Blk}
    (h : Rep m a (u ++ x ++ v) nx) (hx : x ≠ []) (hy : y ≠ []) (hs : span y = span x)
    (hl : AgreeOn m w a (a + span u))
    (hr : AgreeOn m w (a + span u + span x) (a + span u + span x + span v))
    (hm : Rep w (a + span u) y (if v = [] then nx else a + span u + span x)) :
    Rep w a (u ++ y ++ v) nx := by
  rw [List.append_assoc, rep_append] at h ⊢
  simp only [List.append_eq_nil_iff, hx, hy, false_and, if_false] at h ⊢
  obtain ⟨hu, hxv⟩ := h
  rw [rep_append] at hxv ⊢
  refine ⟨hu.congr hl, ?_, ?_⟩
  · simpa only [hs] using hm
  · rw [hs]
    exact hxv.2.congr hr

theorem Rep.cell {m : Mem} {a nx : Nat} {u v : List Blk} {b : Blk}
    (h : Rep m a (u ++ b :: v) nx) :
    Cell m (a + span u) b (if v = [] then nx else a + span u + 32 + b.size) := by
  rw [rep_append] at h
  exact h.2.1

structure Represents (h : HeapState) (L : Layout) : Prop where
  head : h.heapHead = heapStart
  rep : Rep h.mem heapStart L.blocks 0
  cursor : h.allocCursor = heapStart + span (L.blocks.take L.cursor)

theorem getFree_run {h : HeapState} {a nx : Nat} {b : Blk} (hc : Cell h.mem a b nx) :
    getFree a h = some (b.free, h.touch (a + 8) 1) := by
  have hf := hc.free
  cases hb : b.free <;> simp [getFree, hf, hb]

theorem setFooter_run {h : HeapState} {a s : Nat} (hs : loadLE h.mem a 8 = s)
    (hb : a + 32 + s < 2^64) :
    setFooter a h = some ((), ((h.touch a 8).touch a 8).put (a + 24 + s) 8 s) := by
  have hw : wrap (a + 32 + s - 8) = a + 24 + s := by rw [wrap_of_lt (by omega)]; omega
  simp [setFooter, footer, hs, hw]

/-- Memory after a block of size `s` at `c` was split for a request of `need` bytes. -/
def splitMem (m : Mem) (c s need nx : Nat) : Mem :=
  let n := c + 32 + need
  let r := s - need - 32
  let m := storeLE (storeLE (storeLE m n 8 r) (n + 8) 1 1) (n + 16) 8 nx
  let m := storeLE m (n + 24 + r) 8 r
  storeLE (storeLE (storeLE m (c + 16) 8 n) c 8 need) (c + 24 + need) 8 need

theorem splitBlock_run {h : HeapState} {c s need nx : Nat} (hs : loadLE h.mem c 8 = s)
    (hn : loadLE h.mem (c + 16) 8 = nx) (hle : need + 48 ≤ s) (hb : c + 32 + s < 2^64) :
    ∃ t, splitBlock c need h =
      some ((), { h with mem := splitMem h.mem c s need nx, touched := t }) := by
  have hnew : wrap (c + 32 + need) = c + 32 + need := wrap_of_lt (by omega)
  have hrest : wrap (s + 2^64 - need - 32) = s - need - 32 := by
    unfold wrap; omega
  have hr64 : (s - need - 32) % 256^8 = s - need - 32 := Nat.mod_eq_of_lt (by omega)
  have hn64 : need % 256^8 = need := Nat.mod_eq_of_lt (by omega)
  simp only [splitBlock, bind_run, getSize_run, setSize_run, setFree_run, getNext_run, setNext_run,
    some_bind, hnew, hs, hrest, touch_mem, put_mem, if_true]
  rw [setFooter_run (s := s - need - 32) ?_ (by omega)]
  simp only [some_bind]
  rw [setFooter_run (s := need) ?_ (by omega)]
  · simp (disch := omega) only [loadLE_storeLE_disjoint, hn]
    simp only [HeapState.put, HeapState.touch, splitMem]
    exact ⟨_, rfl⟩
  · simp only [put_mem]
    rw [loadLE_storeLE_same, hn64]
  · simp (disch := omega) only [put_mem, touch_mem, loadLE_storeLE_disjoint, loadLE_storeLE_same, hr64]

theorem splitMem_agree {m : Mem} {c s need nx lo hi : Nat} (hle : need + 48 ≤ s)
    (h : hi ≤ c ∨ c + 32 + s ≤ lo) : AgreeOn m (splitMem m c s need nx) lo hi := by
  intro x hx hx'
  have hd : ∀ (m : Mem) (a n v : Nat), (x < a ∨ a + n ≤ x) → storeLE m a n v x = m x := by
    intro m a n v hv
    have hag : AgreeOn m (storeLE m a n v) x (x + 1) := storeLE_agree (by omega)
    exact hag x le_rfl (by omega)
  simp (disch := omega) only [splitMem, hd]

theorem splitMem_rep {m : Mem} {c s need nx : Nat} (hle : need + 48 ≤ s) (hb : c + 32 + s < 2^64)
    (hnx : nx < 2^64) (hf : loadLE m (c + 8) 1 = 1) :
    Rep (splitMem m c s need nx) c [⟨need, true⟩, ⟨s - need - 32, true⟩] nx := by
  have hr64 : (s - need - 32) % 256^8 = s - need - 32 := Nat.mod_eq_of_lt (by omega)
  have hn64 : need % 256^8 = need := Nat.mod_eq_of_lt (by omega)
  have hx64 : nx % 256^8 = nx := Nat.mod_eq_of_lt (by omega)
  have hc64 : (c + 32 + need) % 256^8 = c + 32 + need := Nat.mod_eq_of_lt (by omega)
  refine ⟨⟨?_, ?_, ?_, ?_⟩, ⟨?_, ?_, ?_, ?_⟩, trivial⟩
  all_goals simp (disch := omega) only [splitMem, loadLE_storeLE_disjoint, loadLE_storeLE_same,
    List.cons_ne_self, if_true, if_false, hr64, hn64, hx64, hc64]
  · exact hf
  · rfl

theorem Rep.mark {m : Mem} {a nx : Nat} {u v : List Blk} {b : Blk} (f : Bool)
    (h : Rep m a (u ++ b :: v) nx) :
    Rep (storeLE m (a + span u + 8) 1 (if f then 1 else 0)) a (u ++ ⟨b.size, f⟩ :: v) nx := by
  have hc := h.cell
  have h' : Rep m a (u ++ [b] ++ v) nx := by simpa using h
  have hmid : Rep (storeLE m (a + span u + 8) 1 (if f then 1 else 0)) (a + span u) [⟨b.size, f⟩]
      (if v = [] then nx else a + span u + span [b]) := by
    refine ⟨⟨?_, ?_, ?_, ?_⟩, trivial⟩
    · rw [loadLE_storeLE_disjoint _ _ (by omega), hc.size]
    · rw [loadLE_storeLE_same]
      cases f <;> rfl
    · rw [loadLE_storeLE_disjoint _ _ (by omega), hc.next]
      simp [Nat.add_assoc]
    · rw [loadLE_storeLE_disjoint _ _ (by simp only; omega), hc.footer]
  have key := h'.replace (y := [⟨b.size, f⟩]) (by simp) (by simp) (by simp)
    (storeLE_agree (by omega)) (storeLE_agree (by simp only [span_cons, span_nil]; omega)) hmid
  simpa using key

theorem Rep.split {m : Mem} {a nx need : Nat} {u v : List Blk} {b : Blk}
    (h : Rep m a (u ++ b :: v) nx) (hf : b.free = true) (hle : need + 48 ≤ b.size)
    (hb : a + span u + 32 + b.size < 2^64) (hnx : nx < 2^64) :
    Rep (splitMem m (a + span u) b.size need (if v = [] then nx else a + span u + 32 + b.size)) a
      (u ++ ⟨need, true⟩ :: ⟨b.size - need - 32, true⟩ :: v) nx := by
  have hc := h.cell
  have hlink : (if v = [] then nx else a + span u + 32 + b.size) < 2^64 := by split_ifs <;> omega
  have hmid := splitMem_rep (m := m) hle hb hlink (by rw [hc.free, hf]; rfl)
  have h' : Rep m a (u ++ [b] ++ v) nx := by simpa using h
  have key := h'.replace (y := [⟨need, true⟩, ⟨b.size - need - 32, true⟩])
    (w := splitMem m (a + span u) b.size need (if v = [] then nx else a + span u + 32 + b.size))
    (by simp) (by simp) (by simp only [span_cons, span_nil]; omega) (splitMem_agree hle (by omega))
    (splitMem_agree hle (by simp only [span_cons, span_nil]; omega))
    (by simpa [Nat.add_assoc] using hmid)
  simpa using key

theorem takeBlock_run {h : HeapState} {u v : List Blk} {b : Blk} {need : Nat}
    (hrep : Rep h.mem heapStart (u ++ b :: v) 0) (hs : span (u ++ b :: v) = heapSize)
    (hf : fits need b = true) :
    ∃ h', takeBlock (heapStart + span u) need h = some (heapStart + span u + 32, h') ∧
      Rep h'.mem heapStart (u ++ carve need b ++ v) 0 ∧ h'.heapHead = h.heapHead ∧
      h'.allocCursor = heapStart + span u := by
  have hc := hrep.cell
  obtain ⟨hfree, hle⟩ : b.free = true ∧ need ≤ b.size := by simpa [fits] using hf
  simp only [span_append, span_cons, heapSize] at hs
  have hbound : heapStart + span u + 32 + b.size < 2^64 := by simp only [heapStart]; omega
  have hptr : wrap (heapStart + span u + 32) = heapStart + span u + 32 := wrap_of_lt (by omega)
  have hlim : wrap (need + 32 + 16) = need + 48 := wrap_of_lt (by omega)
  by_cases hsp : need + 48 ≤ b.size
  · obtain ⟨t, ht⟩ := splitBlock_run (h := h.touch (heapStart + span u) 8) hc.size hc.next hsp hbound
    have hmark := (hrep.split hfree hsp hbound (by omega)).mark false
    simp only [takeBlock, bind_run, getSize_run, some_bind, hc.size, hlim, if_pos hsp, ht,
      setFree_run, setCursor_run, pure_run, hptr]
    exact ⟨_, rfl, by simpa [carve, hsp] using hmark, rfl, rfl⟩
  · have hmark := hrep.mark false
    simp only [takeBlock, bind_run, getSize_run, some_bind, hc.size, hlim, if_neg hsp,
      setFree_run, setCursor_run, pure_run, hptr]
    exact ⟨_, rfl, by simpa [carve, hsp] using hmark, rfl, rfl⟩

theorem fitsAt_run (need : Nat) {h : HeapState} {a nx : Nat} {b : Blk} (hc : Cell h.mem a b nx) :
    ∃ t, fitsAt a need h = some (fits need b, { h with touched := t }) := by
  have hs := hc.size
  cases hb : b.free
  · simp only [fitsAt, bind_run, getFree_run hc, some_bind, hb, Bool.false_eq_true, if_false,
      pure_run, fits, Bool.false_and]
    exact ⟨_, rfl⟩
  · simp only [fitsAt, bind_run, getFree_run hc, some_bind, hb, if_true, getSize_run, pure_run,
      touch_mem, hs, fits, Bool.true_and]
    exact ⟨_, rfl⟩

/-- One sweep of the search over consecutive blocks that do not straddle the start of the
search: it ends in the first fitting block, or leaves the last block by its link. -/
theorem scan_run (need start : Nat) {ys : List Blk} :
    ∀ (fuel : Nat) {a nx : Nat} {h : HeapState}, Rep h.mem a ys nx → ys ≠ [] → ys.length ≤ fuel →
      (start ≤ a ∨ a + span ys ≤ start) →
      ∃ t, kmallocLoop need start fuel a h =
        match firstFit need ys with
        | some (u, _, _) => takeBlock (a + span u) need { h with touched := t }
        | none =>
          if (if nx = 0 then h.heapHead else nx) = start then some (0, { h with touched := t })
          else kmallocLoop need start (fuel - ys.length) (if nx = 0 then h.heapHead else nx)
            { h with touched := t } := by
  induction ys with
  | nil => intro _ _ _ _ _ hne; exact absurd rfl hne
  | cons b bs ih =>
    intro fuel a nx h hrep _ hfuel hstart
    obtain ⟨fuel, rfl⟩ : ∃ f, fuel = f + 1 := by
      cases fuel with
      | zero => simp at hfuel
      | succ f => exact ⟨f, rfl⟩
    obtain ⟨hc, hrest⟩ := hrep
    obtain ⟨t, ht⟩ := fitsAt_run need hc
    by_cases hfit : fits need b = true
    · refine ⟨t, ?_⟩
      simp only [kmallocLoop, bind_run, ht, some_bind, hfit, if_true, firstFit, span_nil, Nat.add_zero]
    · have hnext := hc.next
      cases bs with
      | nil =>
        refine ⟨(a + 16, 8) :: t, ?_⟩
        simp only [if_true] at hnext
        simp only [kmallocLoop, bind_run, ht, some_bind, hfit, Bool.false_eq_true, if_false,
          getNext_run, hnext, get_run, firstFit, Option.map_none, List.length_cons, List.length_nil,
          Nat.zero_add, Nat.add_sub_cancel, touch_head]
        split_ifs <;> simp only [pure_run, HeapState.touch]
      | cons c bs =>
        simp only [reduceCtorEq, if_false] at hnext
        have hne : a + 32 + b.size ≠ start := by
          simp only [span_cons] at hstart
          omega
        have hnz : a + 32 + b.size ≠ 0 := by omega
        obtain ⟨t', ht'⟩ := ih fuel
          (h := { h with touched := (a + 16, 8) :: t }) hrest (by simp)
          (by simpa using hfuel) (by simp only [span_cons] at hstart ⊢; omega)
        refine ⟨t', ?_⟩
        have hstep : kmallocLoop need start (fuel + 1) a h =
            kmallocLoop need start fuel (a + 32 + b.size) { h with touched := (a + 16, 8) :: t } := by
          simp only [kmallocLoop, bind_run, ht, some_bind, hfit, Bool.false_eq_true, if_false,
            getNext_run, hnext, get_run, if_neg hnz, if_neg hne, HeapState.touch]
        rw [hstep, ht']
        have hff := firstFit.eq_2 need b (c :: bs)
        rw [if_neg hfit] at hff
        rw [hff]
        cases hr : firstFit need (c :: bs) with
        | none =>
          simp only [Option.map_none]
          have hl : fuel - (c :: bs).length = fuel + 1 - (b :: c :: bs).length := by
            simp only [List.length_cons]; omega
          rw [hl]
        | some w =>
          obtain ⟨u, d, v⟩ := w
          simp only [Option.map_some, span_cons]
          have ha : a + 32 + b.size + span u = a + (32 + b.size + span u) := by omega
          rw [ha]

/-- The two sweeps of `kmalloc`: cursor to end, then start to cursor. -/
theorem kmalloc_search {h : HeapState} {pre post : List Blk} (size : Nat)
    (hhead : h.heapHead = heapStart) (hrep : Rep h.mem heapStart (pre ++ post) 0)
    (hcur : h.allocCursor = heapStart + span pre) (hpost : post ≠ [])
    (hspan : span (pre ++ post) = heapSize) :
    ∃ t, kmalloc size h =
      match firstFit (align size) post with
      | some (u, _, _) => takeBlock (heapStart + span (pre ++ u)) (align size) { h with touched := t }
      | none =>
        match firstFit (align size) pre with
        | some (u, _, _) => takeBlock (heapStart + span u) (align size) { h with touched := t }
        | none => some (0, { h with touched := t }) := by
  obtain ⟨hrpre, hrpost⟩ := rep_append.mp hrep
  simp only [hpost, if_false] at hrpre
  rw [← hcur] at hrpre hrpost
  have hlen := length_le_span (pre ++ post)
  rw [hspan, List.length_append] at hlen
  have hnz : h.allocCursor ≠ 0 := by rw [hcur]; simp only [heapStart]; omega
  obtain ⟨t, ht⟩ := scan_run (align size) h.allocCursor listFuel hrpost hpost
    (by simp only [listFuel]; omega) (Or.inl le_rfl)
  have hentry : kmalloc size h =
      kmallocLoop (align size) h.allocCursor listFuel h.allocCursor h := by
    simp only [kmalloc, bind_run, get_run, some_bind, if_neg hnz]
  rw [hentry, ht]
  cases hf : firstFit (align size) post with
  | some w =>
    obtain ⟨u, b, v⟩ := w
    refine ⟨t, ?_⟩
    simp only [span_append, ← Nat.add_assoc, ← hcur]
  | none =>
    simp only [if_true]
    by_cases hp : pre = []
    · subst hp
      refine ⟨t, ?_⟩
      have he : h.heapHead = h.allocCursor := by rw [hhead, hcur]; rfl
      simp only [if_pos he, firstFit]
    · have hpos : 32 ≤ span pre := by
        have := length_le_span pre
        have := List.length_pos_of_ne_nil hp
        omega
      have hne : h.heapHead ≠ h.allocCursor := by rw [hhead, hcur]; omega
      rw [← hhead] at hrpre hcur ⊢
      obtain ⟨t', ht'⟩ := scan_run (align size) h.allocCursor (listFuel - post.length)
        (h := { h with touched := t }) hrpre hp (by simp only [listFuel]; omega)
        (Or.inr (le_of_eq hcur.symm))
      refine ⟨t', ?_⟩
      rw [if_neg hne, ht']
      cases hf' : firstFit (align size) pre with
      | some w => rfl
      | none => simp only [if_neg hnz, if_true]

/-- `kmalloc` computes the next-fit allocation of the tiling. -/
theorem kmalloc_run {h : HeapState} {L : Layout} (hr : Represents h L) (hok : L.Ok heapSize)
    (size : Nat) :
    match L.malloc (align size) with
    | none => ∃ h', kmalloc size h = some (0, h') ∧ Represents h' L
    | some (p, L') => ∃ h', kmalloc size h = some (heapStart + p, h') ∧ Represents h' L' := by
  have hsplit : L.blocks = L.blocks.take L.cursor ++ L.blocks.drop L.cursor :=
    (List.take_append_drop _ _).symm
  have hpost : L.blocks.drop L.cursor ≠ [] := by
    have := hok.cursor_lt
    rw [Ne, List.drop_eq_nil_iff]
    omega
  have htake : ∀ t u b v, L.blocks = u ++ b :: v → fits (align size) b = true →
      ∃ h', takeBlock (heapStart + span u) (align size) { h with touched := t } =
        some (heapStart + (span u + 32), h') ∧
        Represents h' ⟨u ++ carve (align size) b ++ v, u.length⟩ := by
    intro t u b v he hb
    obtain ⟨h', hrun, hrep', hhead, hc'⟩ := takeBlock_run (h := { h with touched := t })
      (by rw [← he]; exact hr.rep) (by rw [← he]; exact hok.span_eq) hb
    refine ⟨h', hrun, hhead.trans hr.head, hrep', ?_⟩
    rw [hc', List.append_assoc, List.take_left]
  obtain ⟨t, ht⟩ := kmalloc_search size hr.head (hsplit ▸ hr.rep) hr.cursor hpost
    (hsplit ▸ hok.span_eq)
  rw [ht]
  unfold Layout.malloc
  cases hf : firstFit (align size) (L.blocks.drop L.cursor) with
  | some w =>
    obtain ⟨u, b, v⟩ := w
    obtain ⟨he, hb, -⟩ := firstFit_some hf
    exact htake t _ b v (by rw [List.append_assoc, ← he, ← hsplit]) hb
  | none =>
    cases hf' : firstFit (align size) (L.blocks.take L.cursor) with
    | some w =>
      obtain ⟨u, b, v⟩ := w
      obtain ⟨he, hb, -⟩ := firstFit_some hf'
      exact htake t u b (v ++ L.blocks.drop L.cursor)
        (by rw [← List.cons_append, ← List.append_assoc, ← he, ← hsplit]) hb
    | none => exact ⟨_, rfl, hr.head, hr.rep, hr.cursor⟩

theorem Within.touch {h : HeapState} (hw : Within h) {a n : Nat} (hl : heapStart ≤ a)
    (hu : a + n ≤ heapStart + heapSize) : Within (h.touch a n) := by
  intro x hx
  rcases List.mem_cons.mp hx with rfl | hx
  · exact ⟨hl, hu⟩
  · exact hw x hx

theorem Within.put {h : HeapState} (hw : Within h) {a n v : Nat} (hl : heapStart ≤ a)
    (hu : a + n ≤ heapStart + heapSize) : Within (h.put a n v) := hw.touch hl hu

theorem Within.setCursor {h : HeapState} (hw : Within h) (c : Nat) :
    Within { h with allocCursor := c } := hw

/-- Memory after the block at `c` grew to size `s` with link `nx`. -/
def mergeMem (m : Mem) (c s nx : Nat) : Mem :=
  storeLE (storeLE (storeLE m c 8 s) (c + 16) 8 nx) (c + 24 + s) 8 s

theorem absorb_run {h : HeapState} {c n s k nx : Nat} (hs : loadLE h.mem c 8 = s)
    (hk : loadLE h.mem n 8 = k) (hx : loadLE h.mem (n + 16) 8 = nx) (hn : n = c + 32 + s)
    (hl : heapStart ≤ c) (hu : n + 32 + k ≤ heapStart + heapSize) :
    ∃ t, absorb c n h =
        some ((), { h with mem := mergeMem h.mem c (s + 32 + k) nx, touched := t }) ∧
      (Within h → Within { h with mem := mergeMem h.mem c (s + 32 + k) nx, touched := t }) := by
  subst hn
  simp only [heapStart, heapSize] at hl hu
  have hw : wrap (s + 32 + k) = s + 32 + k := wrap_of_lt (by omega)
  have h64 : (s + 32 + k) % 256^8 = s + 32 + k := Nat.mod_eq_of_lt (by omega)
  simp only [absorb, bind_run, getSize_run, setSize_run, getNext_run, setNext_run, some_bind, hs,
    touch_mem, put_mem, hk, hw]
  rw [setFooter_run (s := s + 32 + k) ?_ (by omega)]
  · simp (disch := omega) only [loadLE_storeLE_disjoint, hx]
    refine ⟨_, rfl, fun hin => ?_⟩
    have h1 := ((hin.touch (a := c) (n := 8) hl (by simp only [heapStart, heapSize]; omega)).touch
      (a := c + 32 + s) (n := 8) (by simp only [heapStart]; omega)
      (by simp only [heapStart, heapSize]; omega)).put (a := c) (n := 8) (v := s + 32 + k) hl
      (by simp only [heapStart, heapSize]; omega)
    have h2 := (h1.touch (a := c + 32 + s + 16) (n := 8) (by simp only [heapStart]; omega)
      (by simp only [heapStart, heapSize]; omega)).put (a := c + 16) (n := 8) (v := nx)
      (by simp only [heapStart]; omega) (by simp only [heapStart, heapSize]; omega)
    exact ((h2.touch (a := c) (n := 8) hl (by simp only [heapStart, heapSize]; omega)).touch
      (a := c) (n := 8) hl (by simp only [heapStart, heapSize]; omega)).put
      (a := c + 24 + (s + 32 + k)) (n := 8) (v := s + 32 + k) (by simp only [heapStart]; omega)
      (by simp only [heapStart, heapSize]; omega)
  · simp (disch := omega) only [put_mem, touch_mem, loadLE_storeLE_disjoint, loadLE_storeLE_same, h64]

theorem mergeMem_agree {m : Mem} {c s nx lo hi : Nat} (h : hi ≤ c ∨ c + 32 + s ≤ lo) :
    AgreeOn m (mergeMem m c s nx) lo hi :=
  ((storeLE_agree (by omega)).trans (storeLE_agree (by omega))).trans (storeLE_agree (by omega))

theorem Rep.merge {m : Mem} {a nx : Nat} {u v : List Blk} {b n : Blk}
    (h : Rep m a (u ++ b :: n :: v) nx) (hf : b.free = true) (hnx : nx < 2^64)
    (hb : a + span u + 32 + b.size + 32 + n.size < 2^64) :
    Rep (mergeMem m (a + span u) (b.size + 32 + n.size)
        (if v = [] then nx else a + span u + 32 + b.size + 32 + n.size)) a
      (u ++ ⟨b.size + 32 + n.size, true⟩ :: v) nx := by
  have hc := h.cell
  have h' : Rep m a (u ++ [b, n] ++ v) nx := by simpa using h
  have h64 : (b.size + 32 + n.size) % 256^8 = b.size + 32 + n.size := Nat.mod_eq_of_lt (by omega)
  have hlink : (if v = [] then nx else a + span u + 32 + b.size + 32 + n.size) % 256^8 =
      if v = [] then nx else a + span u + 32 + b.size + 32 + n.size :=
    Nat.mod_eq_of_lt (by split_ifs <;> omega)
  have hspan : a + span u + span [b, n] = a + span u + 32 + b.size + 32 + n.size := by
    simp only [span_cons, span_nil]; omega
  have hmid : Rep (mergeMem m (a + span u) (b.size + 32 + n.size)
      (if v = [] then nx else a + span u + 32 + b.size + 32 + n.size)) (a + span u)
      [⟨b.size + 32 + n.size, true⟩] (if v = [] then nx else a + span u + span [b, n]) := by
    rw [hspan]
    refine ⟨⟨?_, ?_, ?_, ?_⟩, trivial⟩
    · simp (disch := omega) only [mergeMem, loadLE_storeLE_disjoint, loadLE_storeLE_same, h64]
    · simp (disch := omega) only [mergeMem, loadLE_storeLE_disjoint, hc.free, hf]
    · simp (disch := omega) only [mergeMem, loadLE_storeLE_disjoint, loadLE_storeLE_same, hlink,
        if_true]
    · simp only [mergeMem, loadLE_storeLE_same, h64]
  have key := h'.replace (y := [⟨b.size + 32 + n.size, true⟩]) (by simp) (by simp)
    (by simp only [span_cons, span_nil]; omega) (mergeMem_agree (by omega))
    (mergeMem_agree (by omega)) hmid
  simpa using key

/-- The walk over the tail of the list passes no block below its start and ends. -/
theorem walkList_run (block : Nat) {ys : List Blk} :
    ∀ (fuel : Nat) {a : Nat} {h : HeapState}, Rep h.mem a ys 0 → ys.length < fuel → block < a →
      heapStart ≤ a → a + span ys ≤ heapStart + heapSize →
      ∃ t, walkList block fuel (if ys = [] then 0 else a) h = some ((), { h with touched := t }) ∧
        (Within h → Within { h with touched := t }) := by
  induction ys with
  | nil =>
    intro fuel a h _ hfuel _ _ _
    obtain ⟨fuel, rfl⟩ : ∃ f, fuel = f + 1 := ⟨fuel - 1, by simp only [List.length_nil] at hfuel; omega⟩
    rw [if_pos rfl, walkList, if_pos (Or.inl rfl)]
    exact ⟨h.touched, rfl, id⟩
  | cons b bs ih =>
    intro fuel a h hrep hfuel hblock hl hu
    simp only [List.length_cons] at hfuel
    obtain ⟨fuel, rfl⟩ : ∃ f, fuel = f + 1 := ⟨fuel - 1, by omega⟩
    obtain ⟨hc, hrest⟩ := hrep
    have hne : ¬ (a = 0 ∨ a = block) := by
      simp only [heapStart] at hl
      omega
    simp only [span_cons] at hu
    have hin : Within h → Within (h.touch (a + 16) 8) := fun hw => hw.touch (by omega) (by omega)
    rw [if_neg (by simp), walkList, if_neg hne]
    simp only [bind_run, getNext_run, some_bind, hc.next]
    obtain ⟨t, ht, hin'⟩ := ih fuel (h := h.touch (a + 16) 8) hrest
      (by omega) (by omega) (by omega) (by omega)
    exact ⟨t, ht, fun hw => hin' (hin hw)⟩

theorem mergeNext_run {h : HeapState} {u v : List Blk} {s : Nat}
    (hrep : Rep h.mem heapStart (u ++ ⟨s, true⟩ :: v) 0)
    (hs : span (u ++ ⟨s, true⟩ :: v) = heapSize) (hcur : h.allocCursor ≤ heapStart + span u) :
    ∃ m t, mergeNext (heapStart + span u) h = some ((), { h with mem := m, touched := t }) ∧
      Rep m heapStart (u ++ (joinNext ⟨s, true⟩ v).1 :: (joinNext ⟨s, true⟩ v).2) 0 ∧
      (Within h → Within { h with mem := m, touched := t }) := by
  have hc := hrep.cell
  simp only [span_append, span_cons] at hs
  have hlt : heapStart + span u + 32 + s < 2^64 := by simp only [heapStart, heapSize] at hs ⊢; omega
  have hin1 : Within h → Within (h.touch (heapStart + span u) 8) :=
    fun hw => hw.touch (by omega) (by omega)
  have hnext : nextBlock (heapStart + span u) h =
      some (if v = [] then 0 else heapStart + span u + 32 + s, h.touch (heapStart + span u) 8) := by
    simp only [nextBlock, bind_run, getSize_run, some_bind, pure_run, hc.size, wrap_of_lt hlt]
    cases v with
    | nil =>
      simp only [span_nil] at hs
      rw [if_pos (by omega), if_pos rfl]
    | cons n v =>
      simp only [span_cons] at hs
      rw [if_neg (by omega), if_neg (by simp)]
  cases v with
  | nil =>
    refine ⟨h.mem, (heapStart + span u, 8) :: h.touched, ?_, ?_, hin1⟩
    · simp only [mergeNext, bind_run, hnext, some_bind, if_true, freeAt, pure_run,
        Bool.false_eq_true, if_false, HeapState.touch]
    · simpa [joinNext] using hrep
  | cons n v =>
    simp only [reduceCtorEq, if_false] at hnext
    simp only [span_cons] at hs
    have hrn : Rep h.mem (heapStart + span u + 32 + s) (n :: v) 0 := (rep_append.mp hrep).2.2
    have hcn := hrn.1
    have hnz : heapStart + span u + 32 + s ≠ 0 := by omega
    have hin2 : Within h → Within ((h.touch (heapStart + span u) 8).touch
        (heapStart + span u + 32 + s + 8) 1) := fun hw => (hin1 hw).touch (by omega) (by omega)
    have hfree : freeAt (heapStart + span u + 32 + s) (h.touch (heapStart + span u) 8) =
        some (n.free, (h.touch (heapStart + span u) 8).touch (heapStart + span u + 32 + s + 8) 1) := by
      rw [freeAt, if_neg hnz]
      exact getFree_run hcn
    by_cases hn : n.free = true
    · -- the walk over the rest of the list has no effect, then the successor is absorbed
      have hlen := length_le_span v
      obtain ⟨t, hwalk, hint⟩ := walkList_run (heapStart + span u) listFuel
        (h := ((h.touch (heapStart + span u) 8).touch (heapStart + span u + 32 + s + 8) 1).touch
          (heapStart + span u + 32 + s + 16) 8) hrn.2
        (by simp only [heapSize, listFuel] at hs ⊢; omega) (by omega) (by omega) (by omega)
      obtain ⟨t', habs, hint'⟩ := absorb_run (h := { h with touched := t }) hc.size hcn.size hcn.next
        rfl (by omega) (by omega)
      have hmerge := hrep.merge rfl (by omega) (by simp only [heapStart, heapSize] at hs ⊢; omega)
      have hcne : h.allocCursor ≠ heapStart + span u + 32 + s := by omega
      refine ⟨_, t', ?_, by simpa [joinNext, hn] using hmerge,
        fun hw => hint' (hint ((hin2 hw).touch (by omega) (by omega)))⟩
      have hwin : heapStart + span u + 32 + s < heapStart + heapSize := by omega
      simp only [mergeNext, bind_run, hnext, some_bind, hfree, hn, if_true, if_pos hwin, getNext_run,
        touch_mem, hcn.next, hwalk, touch_head, touch_cursor, touch_initialized, habs, get_run,
        if_neg hcne, pure_run]
    · refine ⟨h.mem, _, ?_, ?_, hin2⟩
      · simp only [mergeNext, bind_run, hnext, some_bind, hfree, hn, Bool.false_eq_true, if_false,
          pure_run]
        rfl
      · simpa [joinNext, hn] using hrep

theorem prevBlock_run {h : HeapState} {u v : List Blk} {p b : Blk}
    (hrep : Rep h.mem heapStart (u ++ p :: b :: v) 0) (hs : span (u ++ p :: b :: v) = heapSize) :
    prevBlock (heapStart + span u + 32 + p.size) h =
      some (heapStart + span u, h.touch (heapStart + span u + 24 + p.size) 8) := by
  have hc := hrep.cell
  simp only [span_append, span_cons, heapSize] at hs
  have hw : wrap (heapStart + span u + 32 + p.size - 32 + (2^64 - p.size)) = heapStart + span u := by
    simp only [wrap, heapStart]
    omega
  have ha : heapStart + span u + 32 + p.size - 8 = heapStart + span u + 24 + p.size := by omega
  rw [prevBlock, if_neg (by omega)]
  simp only [bind_run, load_run, ha, hc.footer, some_bind, pure_run, hw]

theorem mergePrev_run {h : HeapState} {u v : List Blk} {b : Blk}
    (hrep : Rep h.mem heapStart (u ++ b :: v) 0) (hs : span (u ++ b :: v) = heapSize) :
    ∃ m t, mergePrev (heapStart + span u) h =
        some ((), { h with
          mem := m, touched := t,
          allocCursor := if h.allocCursor = heapStart + span u then
            heapStart + span (joinPrev u b).1 else h.allocCursor }) ∧
      Rep m heapStart ((joinPrev u b).1 ++ (joinPrev u b).2 :: v) 0 ∧
      (Within h → Within { h with mem := m, touched := t }) := by
  rcases List.eq_nil_or_concat u with rfl | ⟨w, p, rfl⟩
  · -- the first block has no predecessor
    refine ⟨h.mem, h.touched, ?_, by simpa using hrep, id⟩
    have hz : prevBlock (heapStart + span []) h = some (0, h) := by
      rw [prevBlock, if_pos (by simp)]
      rfl
    have hcur : (if h.allocCursor = heapStart + span [] then heapStart + span (joinPrev [] b).1
        else h.allocCursor) = h.allocCursor := by
      simp only [joinPrev_nil]
      split_ifs with he
      · exact he.symm
      · rfl
    rw [hcur]
    simp only [mergePrev, bind_run, hz, some_bind, freeAt, if_true, pure_run, Bool.false_eq_true,
      if_false]
  · rw [List.concat_eq_append] at hrep hs ⊢
    rw [List.append_assoc, List.singleton_append] at hrep hs
    have hc := hrep.cell
    have hcb : Cell h.mem (heapStart + span w + 32 + p.size) b
        (if v = [] then 0 else heapStart + span w + 32 + p.size + 32 + b.size) :=
      (rep_append.mp hrep).2.2.1
    have hprev := prevBlock_run hrep hs
    have haddr : heapStart + span (w ++ [p]) = heapStart + span w + 32 + p.size := by
      simp only [span_append, span_cons, span_nil]; omega
    rw [haddr]
    simp only [span_append, span_cons] at hs
    have hin1 : Within h → Within (h.touch (heapStart + span w + 24 + p.size) 8) :=
      fun hw => hw.touch (by omega) (by omega)
    have hin2 : Within h → Within ((h.touch (heapStart + span w + 24 + p.size) 8).touch
        (heapStart + span w + 8) 1) := fun hw => (hin1 hw).touch (by omega) (by omega)
    have hnz : heapStart + span w ≠ 0 := by simp only [heapStart]; omega
    have hfree : freeAt (heapStart + span w) (h.touch (heapStart + span w + 24 + p.size) 8) =
        some (p.free, (h.touch (heapStart + span w + 24 + p.size) 8).touch
          (heapStart + span w + 8) 1) := by
      rw [freeAt, if_neg hnz]
      exact getFree_run hc
    by_cases hp : p.free = true
    · -- the footer led to the predecessor, which links back: no search is made
      have hlink : loadLE h.mem (heapStart + span w + 16) 8 = heapStart + span w + 32 + p.size :=
        hc.next
      obtain ⟨t, habs, hint⟩ := absorb_run
        (h := ((((h.touch (heapStart + span w + 24 + p.size) 8).touch (heapStart + span w + 8) 1).touch
          (heapStart + span w + 16) 8).touch (heapStart + span w + 8) 1).touch
          (heapStart + span w + 16) 8) hc.size hcb.size hcb.next rfl (by omega) (by omega)
      have hmerge := hrep.merge hp (by omega) (by simp only [heapStart, heapSize] at hs ⊢; omega)
      have hne : heapStart + span w ≠ heapStart + span w + 32 + p.size := by omega
      have hflag : getFree (heapStart + span w) (((h.touch (heapStart + span w + 24 + p.size) 8).touch
          (heapStart + span w + 8) 1).touch (heapStart + span w + 16) 8) =
          some (true, (((h.touch (heapStart + span w + 24 + p.size) 8).touch
            (heapStart + span w + 8) 1).touch (heapStart + span w + 16) 8).touch
            (heapStart + span w + 8) 1) := by
        rw [← hp]
        exact getFree_run hc
      refine ⟨_, t, ?_, by simpa [hp] using hmerge, fun hw => hint (((hin2 hw).touch (by omega)
        (by omega)).touch (by omega) (by omega) |>.touch (by omega) (by omega))⟩
      simp only [mergePrev, bind_run, hprev, some_bind, hfree, hp, if_true, if_pos hne, getNext_run,
        touch_mem, hlink, ne_eq, not_true, if_false, pure_run, hflag, habs, get_run, touch_cursor,
        touch_head, touch_initialized, joinPrev_concat]
      split_ifs with hcur <;> simp only [setCursor_run, pure_run]
    · have hcur : (if h.allocCursor = heapStart + span w + 32 + p.size then
          heapStart + span (joinPrev (w ++ [p]) b).1 else h.allocCursor) = h.allocCursor := by
        simp only [joinPrev_concat, hp, Bool.false_eq_true, if_false]
        split_ifs with he
        · rw [haddr, he]
        · rfl
      rw [hcur]
      refine ⟨h.mem, _, ?_, by simpa [hp] using hrep, hin2⟩
      simp only [mergePrev, bind_run, hprev, some_bind, hfree, hp, Bool.false_eq_true, if_false,
        pure_run]
      rfl

theorem span_take_lt {bs : List Blk} {i j : Nat} (h : i < j) (hj : j ≤ bs.length) :
    span (bs.take i) < span (bs.take j) := by
  have hsplit : bs.take j = bs.take i ++ (bs.drop i).take (j - i) := by
    rw [← List.take_add, Nat.add_sub_cancel' h.le]
  have hlen : ((bs.drop i).take (j - i)).length = j - i := by
    simp only [List.length_take, List.length_drop]; omega
  have := length_le_span ((bs.drop i).take (j - i))
  rw [hsplit, span_append]
  omega

theorem joinPrev_prefix (u : List Blk) (x : Blk) :
    ∃ l, u = (joinPrev u x).1 ++ l ∧ l.length ≤ 1 := by
  rcases List.eq_nil_or_concat u with rfl | ⟨w, p, rfl⟩
  · exact ⟨[], by simp⟩
  · rw [List.concat_eq_append]
    by_cases hp : p.free = true
    · exact ⟨[p], by simp [hp]⟩
    · exact ⟨[], by simp [hp]⟩

/-- The cursor after a release: pulled down to the released block, then to the block that
absorbed it, and untouched when it stood below both. -/
theorem cursor_release {u v r : List Blk} {b x : Blk} {k : Nat} (hk : k < (u ++ b :: v).length) :
    (if (if span u < span ((u ++ b :: v).take k) then span u else span ((u ++ b :: v).take k)) = span u
      then span (joinPrev u x).1
      else if span u < span ((u ++ b :: v).take k) then span u else span ((u ++ b :: v).take k)) =
    span (((joinPrev u x).1 ++ r).take (if u.length ≤ k then (joinPrev u x).1.length else k)) := by
  obtain ⟨l, hl, hlen⟩ := joinPrev_prefix u x
  have hu : span u = span ((u ++ b :: v).take u.length) := by rw [List.take_left]
  by_cases hle : u.length ≤ k
  · have hge : span u ≤ span ((u ++ b :: v).take k) := by
      rcases Nat.lt_or_eq_of_le hle with hlt | heq
      · rw [hu]
        exact (span_take_lt hlt (by omega)).le
      · rw [hu, heq]
    have hmin : (if span u < span ((u ++ b :: v).take k) then span u
        else span ((u ++ b :: v).take k)) = span u := by
      split_ifs <;> omega
    rw [hmin, if_pos rfl, if_pos hle, List.take_left]
  · have hlt : span ((u ++ b :: v).take k) < span u := by
      rw [hu]
      exact span_take_lt (by omega) (by simp)
    have hkq : k ≤ (joinPrev u x).1.length := by
      have := congrArg List.length hl
      simp only [List.length_append] at this
      omega
    rw [if_neg (by omega : ¬ span u < span ((u ++ b :: v).take k)), if_neg (by omega), if_neg hle,
      List.take_append_of_le_length hkq, List.take_append_of_le_length (by omega)]
    conv_lhs => rw [hl, List.take_append_of_le_length hkq]

/-- The straight-line part of `kfree` up to the two merges. -/
theorem kfree_entry {h : HeapState} {a : Nat} (hl : heapStart ≤ a)
    (hu : a + 32 < heapStart + heapSize) (hc : h.allocCursor ≠ 0)
    (hflag : getFree a h = some (false, h.touch (a + 8) 1)) :
    kfree (a + 32) h =
      (mergeNext a { (h.touch (a + 8) 1).put (a + 8) 1 1 with
        allocCursor := if a < h.allocCursor then a else h.allocCursor }).bind
        fun q => mergePrev a q.2 := by
  have hz : a + 32 ≠ 0 := by omega
  have hwin : ¬ (a + 32 < heapStart + 32 ∨ heapStart + heapSize ≤ a + 32) := by omega
  simp only [kfree, if_neg hz, if_neg hwin, Nat.add_sub_cancel, bind_run, hflag, some_bind,
    Bool.false_eq_true, if_false, setFree_run, if_true, get_run, put_cursor, touch_cursor]
  by_cases hbelow : a < h.allocCursor
  · rw [if_pos ⟨hc, hbelow⟩]
    simp only [bind_run, setCursor_run, some_bind, if_pos hbelow]
  · rw [if_neg fun hcb => hbelow hcb.2]
    simp only [bind_run, if_neg hbelow]
    rfl

theorem span_joinNext (b : Blk) (v : List Blk) :
    span ((joinNext b v).1 :: (joinNext b v).2) = span (b :: v) := by
  cases v with
  | nil => simp [joinNext]
  | cons n v =>
    by_cases hn : n.free = true
    · simp only [joinNext, hn, if_true, span_cons]; omega
    · simp [joinNext, hn]

/-- `kfree` of an address in use releases its block, and stays inside the window. -/
theorem kfree_run {h : HeapState} {L : Layout} (hr : Represents h L) (hok : L.Ok heapSize)
    {p : Nat} (hp : p ∈ payloads 0 L.blocks) :
    ∃ h', kfree (heapStart + p) h = some ((), h') ∧ Represents h' (L.release p) ∧
      (Within h → Within h') := by
  obtain ⟨u, b, v, he, hb, rfl⟩ := mem_payloads.mp hp
  obtain ⟨bs, k⟩ := L
  obtain rfl : bs = u ++ b :: v := he
  have hspan : span u + span (b :: v) = heapSize := by rw [← span_append]; exact hok.span_eq
  have hrep : Rep h.mem heapStart (u ++ b :: v) 0 := hr.rep
  have hroom : 0 < b.size + span v := by
    cases v with
    | nil => have := hok.last_pos b (by simp); omega
    | cons c v => simp only [span_cons]; omega
  have hcur : h.allocCursor = heapStart + span ((u ++ b :: v).take k) := hr.cursor
  have hflag : getFree (heapStart + span u) h = some (false, h.touch (heapStart + span u + 8) 1) := by
    rw [getFree_run hrep.cell, hb]
  rw [span_cons] at hspan
  have hentry := kfree_entry (h := h) (a := heapStart + span u) (by omega) (by omega)
    (by rw [hcur]; simp only [heapStart]; omega) hflag
  have hlow : (if heapStart + span u < h.allocCursor then heapStart + span u else h.allocCursor) ≤
      heapStart + span u := by
    split_ifs <;> omega
  obtain ⟨m2, t2, hnext, hrep2, hin2⟩ := mergeNext_run
    (h := { (h.touch (heapStart + span u + 8) 1).put (heapStart + span u + 8) 1 1 with
        allocCursor := if heapStart + span u < h.allocCursor then heapStart + span u
          else h.allocCursor }) (hrep.mark true)
    (by simp only [span_append, span_cons]; exact hspan) hlow
  have hjoin : joinNext ⟨b.size, true⟩ v = joinNext b v := by cases v <;> rfl
  rw [hjoin] at hrep2
  obtain ⟨m3, t3, hprev, hrep3, hin3⟩ := mergePrev_run
    (h := { (h.touch (heapStart + span u + 8) 1).put (heapStart + span u + 8) 1 1 with
        mem := m2, touched := t2,
        allocCursor := if heapStart + span u < h.allocCursor then heapStart + span u
          else h.allocCursor }) hrep2 (by rw [span_append, span_joinNext, span_cons]; exact hspan)
  rw [Nat.zero_add, Layout.release_eq hb, ← Nat.add_assoc, hentry, hnext, some_bind, hprev]
  refine ⟨_, rfl, ⟨hr.head, hrep3, ?_⟩, fun hw => hin3 (hin2 ?_)⟩
  · have hk : k < (u ++ b :: v).length := hok.cursor_lt
    have key := cursor_release (r := (joinPrev u (joinNext b v).1).2 :: (joinNext b v).2)
      (x := (joinNext b v).1) hk
    simp only [hcur, Nat.add_lt_add_iff_left]
    rw [← key]
    split_ifs <;> omega
  · exact (hw.touch (by omega) (by omega)).put (v := 1) (by omega) (by omega)

end LosTacOS.Heap
