import LosTacOS.Heap.Refine

/-! Whole runs of the heap: any sequence of `kmalloc`, `kfree` and client writes from
`heap::init` on. -/
namespace LosTacOS.Heap
open ByteMemory

inductive Event where
  | kmalloc (size : Nat)
  | kfree (p : Nat)
  /-- a client stores one byte -/
  | write (a : Nat) (v : UInt8)
deriving DecidableEq

/-- The heap together with what its clients hold: live pointers with the sizes they asked for,
the results handed out (newest first), and the accesses made by `kfree`. -/
structure Client where
  heap : HeapState
  live : List (Nat × Nat)
  returned : List Nat
  kfreeTouched : List (Nat × Nat)

def Client.step (c : Client) : Event → Option Client
  | .kmalloc size => do
    let (p, h) ← Heap.kmalloc size c.heap
    return { c with
      heap := h
      live := if p = 0 then c.live else (p, size) :: c.live
      returned := p :: c.returned }
  | .kfree p => do
    let (_, h) ← Heap.kfree p { c.heap with touched := [] }
    return { c with
      heap := h
      live := c.live.filter fun q => q.1 ≠ p
      kfreeTouched := h.touched ++ c.kfreeTouched }
  | .write a v => some { c with heap := { c.heap with mem := poke c.heap.mem a v } }

def Client.exec : Client → List Event → Option Client
  | c, [] => some c
  | c, e :: es => (c.step e).bind fun c => c.exec es

def Client.Follows (P : Client → Event → Prop) : Client → List Event → Prop
  | _, [] => True
  | c, e :: es => P c e ∧ ∀ c', c.step e = some c' → c'.Follows P es

instance decidableFollows (P : Client → Event → Prop) [∀ c e, Decidable (P c e)] :
    ∀ (c : Client) (es : List Event), Decidable (c.Follows P es)
  | _, [] => .isTrue trivial
  | c, e :: es =>
    have : Decidable (∀ c', c.step e = some c' → c'.Follows P es) :=
      match h : c.step e with
      | none => .isTrue (by simp)
      | some c' =>
        have := decidableFollows P c' es
        decidable_of_iff (c'.Follows P es) (by simp)
    inferInstanceAs (Decidable (_ ∧ _))

/-- The heap after `heap::init`, over whatever bytes the memory holds. -/
def Client.boot (m : Mem) : Option Client := do
  let (_, h) ← Heap.init ⟨m, 0, 0, false, []⟩
  return ⟨h, [], [], []⟩

structure Block where
  addr : Nat
  size : Nat
  free : Bool
  next : Nat
deriving DecidableEq

def readBlock (m : Mem) (a : Nat) : Block :=
  ⟨a, loadLE m a 8, loadLE m (a + 8) 1 != 0, loadLE m (a + 16) 8⟩

def Listed (m : Mem) : Nat → List Block → Prop
  | p, [] => p = 0
  | p, b :: bs => p ≠ 0 ∧ b = readBlock m p ∧ Listed m b.next bs

def Tiles (lo : Nat) : List Block → Nat → Prop
  | [], hi => lo = hi
  | b :: bs, hi => b.addr = lo ∧ Tiles (lo + sizeofBlock + b.size) bs hi

structure WellFormed (h : HeapState) (live : List Nat) : Prop where
  blocks : ∃ bs : List Block, Listed h.mem h.heapHead bs ∧
    Tiles heapStart bs (heapStart + heapSize) ∧
    (∀ b ∈ bs, b.size % 16 = 0) ∧
    (∀ b ∈ bs, loadLE h.mem (b.addr + sizeofBlock + b.size - 8) 8 = b.size) ∧
    bs.IsChain (fun b c => ¬ (b.free = true ∧ c.free = true)) ∧
    h.allocCursor ∈ bs.map Block.addr ∧
    ∀ p, p ∈ live ↔ ∃ b ∈ bs, b.free = false ∧ p = b.addr + sizeofBlock

/-- Calls as the kernel may make them, and writes that stay in a live block's payload and off
its last eight bytes. -/
def Client.Permits (c : Client) : Event → Prop
  | .kmalloc size => size < 2^64
  | .kfree p => p = 0 ∨ p < heapStart ∨ heapStart + heapSize ≤ p ∨ p ∈ c.live.map Prod.fst
  | .write a _ => ∃ p ∈ c.live.map Prod.fst,
      p ≤ a ∧ a + 8 < p + loadLE c.heap.mem (p - sizeofBlock) 8

instance (c : Client) : DecidablePred c.Permits
  | .kmalloc _ => inferInstanceAs (Decidable (_ < _))
  | .kfree _ => inferInstanceAs (Decidable (_ ∨ _))
  | .write _ _ => inferInstanceAs (Decidable (∃ p ∈ _, _))

structure Client.Sim (c : Client) (L : Layout) : Prop where
  rep : Represents c.heap L
  ok : L.Ok heapSize
  live : ∀ p, p ∈ c.live.map Prod.fst ↔ p ∈ payloads heapStart L.blocks

theorem payloads_shift (a : Nat) (bs : List Blk) (p : Nat) :
    p ∈ payloads a bs ↔ a ≤ p ∧ p - a ∈ payloads 0 bs := by
  simp only [mem_payloads]
  constructor
  · rintro ⟨u, b, v, rfl, hb, rfl⟩
    exact ⟨by omega, u, b, v, rfl, hb, by omega⟩
  · rintro ⟨hle, u, b, v, rfl, hb, he⟩
    exact ⟨u, b, v, rfl, hb, by omega⟩

def Layout.step (L : Layout) : Event → Layout
  | .kmalloc size => ((L.malloc (align size)).map Prod.snd).getD L
  | .kfree p => if p ∈ payloads heapStart L.blocks then L.release (p - heapStart) else L
  | .write _ _ => L

def Layout.result (L : Layout) : Event → List Nat
  | .kmalloc size => [((L.malloc (align size)).map fun q => heapStart + q.1).getD 0]
  | _ => []

theorem align_mod (size : Nat) : align size % 16 = 0 := by
  unfold align; omega

theorem poke_rep {m : Mem} {a nx x : Nat} {w : UInt8} {u v : List Blk} {b : Blk}
    (h : Rep m a (u ++ b :: v) nx) (hl : a + span u + 32 ≤ x)
    (hu : x + 8 < a + span u + 32 + b.size) : Rep (poke m x w) a (u ++ b :: v) nx := by
  have h' : Rep m a (u ++ [b] ++ v) nx := by simpa using h
  have hmid : Rep (poke m x w) (a + span u) [b] (if v = [] then nx else a + span u + span [b]) := by
    refine ⟨?_, trivial⟩
    have hc := h.cell.congr (w := poke m x w) (poke_agree (by omega)) (poke_agree (by omega))
    simpa [Nat.add_assoc] using hc
  have key := h'.replace (y := [b]) (by simp) (by simp) rfl (poke_agree (by omega))
    (poke_agree (by simp only [span_cons, span_nil]; omega)) hmid
  simpa using key

theorem Represents.poke {h : HeapState} {L : Layout} (hr : Represents h L) {p a : Nat} (w : UInt8)
    (hp : p ∈ payloads heapStart L.blocks) (hl : p ≤ a)
    (hu : a + 8 < p + loadLE h.mem (p - 32) 8) :
    Represents { h with mem := ByteMemory.poke h.mem a w } L := by
  obtain ⟨u, b, v, he, -, rfl⟩ := mem_payloads.mp hp
  have hrep := hr.rep
  rw [he] at hrep
  rw [Nat.add_sub_cancel, hrep.cell.size] at hu
  refine ⟨hr.head, ?_, hr.cursor⟩
  rw [he]
  exact poke_rep hrep hl hu

theorem kfree_ignored {h : HeapState} {p : Nat}
    (hp : p = 0 ∨ p < heapStart ∨ heapStart + heapSize ≤ p) : kfree p h = some ((), h) := by
  by_cases hz : p = 0
  · simp only [kfree, if_pos hz, pure_run]
  · have hout : p < heapStart + 32 ∨ heapStart + heapSize ≤ p := by omega
    simp only [kfree, if_neg hz, if_pos hout, pure_run]

/-- Every logged access of `kfree` lies inside the heap window. -/
def Client.Confined (c : Client) : Prop :=
  ∀ x ∈ c.kfreeTouched, heapStart ≤ x.1 ∧ x.1 + x.2 ≤ heapStart + heapSize

theorem Client.Sim.kmalloc {c : Client} {L : Layout} (h : c.Sim L) (size : Nat) :
    ∃ c', c.step (.kmalloc size) = some c' ∧ c'.Sim (L.step (.kmalloc size)) ∧
      c'.returned = L.result (.kmalloc size) ++ c.returned ∧ (c.Confined → c'.Confined) := by
  have hrun := kmalloc_run h.rep h.ok size
  cases hm : L.malloc (align size) with
  | none =>
    rw [hm] at hrun
    obtain ⟨h', hk, hr'⟩ := hrun
    refine ⟨⟨h', c.live, 0 :: c.returned, c.kfreeTouched⟩, ?_, ?_, ?_, id⟩
    · simp [Client.step, hk]
    · simp only [Layout.step, hm, Option.map_none, Option.getD_none]
      exact ⟨hr', h.ok, h.live⟩
    · simp [Layout.result, hm]
  | some q =>
    obtain ⟨p, L'⟩ := q
    rw [hm] at hrun
    obtain ⟨h', hk, hr'⟩ := hrun
    refine ⟨⟨h', (heapStart + p, size) :: c.live, (heapStart + p) :: c.returned, c.kfreeTouched⟩,
      ?_, ?_, ?_, id⟩
    · simp [Client.step, hk]
    · simp only [Layout.step, hm, Option.map_some, Option.getD_some]
      refine ⟨hr', Layout.malloc_ok h.ok (align_mod size) hm, fun r => ?_⟩
      simp only [List.map_cons, List.mem_cons, h.live, payloads_shift heapStart,
        Layout.mem_payloads_malloc hm]
      constructor
      · rintro (rfl | ⟨hle, hr⟩)
        · exact ⟨by omega, Or.inr (by omega)⟩
        · exact ⟨hle, Or.inl hr⟩
      · rintro ⟨hle, hr | hr⟩
        · exact Or.inr ⟨hle, hr⟩
        · exact Or.inl (by omega)
    · simp [Layout.result, hm]

theorem Client.Sim.kfree {c : Client} {L : Layout} (h : c.Sim L) {p : Nat}
    (hp : p ∈ c.live.map Prod.fst) :
    ∃ c', c.step (.kfree p) = some c' ∧ c'.Sim (L.step (.kfree p)) ∧
      c'.returned = c.returned ∧ (c.Confined → c'.Confined) := by
  have hpay := (h.live p).mp hp
  obtain ⟨hle, hoff⟩ := (payloads_shift heapStart L.blocks p).mp hpay
  have hr0 : Represents { c.heap with touched := [] } L := ⟨h.rep.head, h.rep.rep, h.rep.cursor⟩
  obtain ⟨h', hk, hr', hin⟩ := kfree_run hr0 h.ok hoff
  rw [Nat.add_sub_cancel' hle] at hk
  refine ⟨⟨h', c.live.filter fun q => q.1 ≠ p, c.returned, h'.touched ++ c.kfreeTouched⟩,
    ?_, ?_, rfl, ?_⟩
  · simp [Client.step, hk]
  · simp only [Layout.step, if_pos hpay]
    refine ⟨hr', Layout.release_ok h.ok hoff, fun r => ?_⟩
    have hmem : r ∈ (c.live.filter fun q => q.1 ≠ p).map Prod.fst ↔
        r ∈ c.live.map Prod.fst ∧ r ≠ p := by
      simp only [List.mem_map, List.mem_filter, decide_eq_true_eq]
      constructor
      · rintro ⟨q, ⟨hq, hne⟩, rfl⟩
        exact ⟨⟨q, hq, rfl⟩, hne⟩
      · rintro ⟨⟨q, hq, rfl⟩, hne⟩
        exact ⟨q, ⟨hq, hne⟩, rfl⟩
    rw [hmem, h.live, payloads_shift heapStart, payloads_shift heapStart,
      Layout.mem_payloads_release h.ok hoff]
    constructor
    · rintro ⟨⟨hr, hm⟩, hne⟩
      exact ⟨hr, hm, by omega⟩
    · rintro ⟨hr, hm, hne⟩
      exact ⟨⟨hr, hm⟩, by omega⟩
  · intro hc x hx
    have hwin : Within h' := hin (by simp [Within])
    rcases List.mem_append.mp hx with hx | hx
    · exact hwin x hx
    · exact hc x hx

theorem Client.Sim.step {c : Client} {L : Layout} (h : c.Sim L) {e : Event} (he : c.Permits e) :
    ∃ c', c.step e = some c' ∧ c'.Sim (L.step e) ∧ c'.returned = L.result e ++ c.returned ∧
      (c.Confined → c'.Confined) := by
  cases e with
  | kmalloc size => exact h.kmalloc size
  | kfree p =>
    by_cases hp : p ∈ c.live.map Prod.fst
    · simpa [Layout.result] using h.kfree hp
    · -- a pointer the heap never handed out, outside the window: nothing happens
      have hout : p = 0 ∨ p < heapStart ∨ heapStart + heapSize ≤ p := by
        rcases he with h0 | h1 | h2 | h3
        · exact Or.inl h0
        · exact Or.inr (Or.inl h1)
        · exact Or.inr (Or.inr h2)
        · exact absurd h3 hp
      refine ⟨⟨{ c.heap with touched := [] }, c.live.filter fun q => q.1 ≠ p, c.returned,
        c.kfreeTouched⟩, ?_, ?_, by simp [Layout.result], id⟩
      · simp [Client.step, kfree_ignored hout]
      · have hsame : c.live.filter (fun q => q.1 ≠ p) = c.live := by
          rw [List.filter_eq_self]
          intro q hq
          have : q.1 ≠ p := fun heq => hp (List.mem_map.mpr ⟨q, hq, heq⟩)
          simpa using this
        simp only [Layout.step, if_neg fun hpay => hp ((h.live p).mpr hpay), hsame]
        exact ⟨⟨h.rep.head, h.rep.rep, h.rep.cursor⟩, h.ok, h.live⟩
  | write a v =>
    obtain ⟨p, hp, hl, hu⟩ := he
    exact ⟨_, rfl, ⟨h.rep.poke v ((h.live p).mp hp) hl hu, h.ok, h.live⟩, rfl, id⟩

/-- One block written by hand: size, flag, null link, footer. -/
theorem rep_fresh (m : Mem) {a s : Nat} (hs : s < 2^64) :
    loadLE (storeLE (storeLE (storeLE m a 8 s) (a + 8) 1 1) (a + 16) 8 0) a 8 = s ∧
    Rep (storeLE (storeLE (storeLE (storeLE m a 8 s) (a + 8) 1 1) (a + 16) 8 0) (a + 24 + s) 8 s) a
      [⟨s, true⟩] 0 := by
  have h64 : s % 256^8 = s := Nat.mod_eq_of_lt (by omega)
  refine ⟨?_, ⟨?_, ?_, ?_, ?_⟩, trivial⟩
  all_goals simp (disch := omega) only [loadLE_storeLE_disjoint, loadLE_storeLE_same, h64,
    Nat.zero_mod, if_true]
  norm_num

theorem init_run (m : Mem) :
    ∃ h, init ⟨m, 0, 0, false, []⟩ = some ((), h) ∧ Represents h (Layout.initial heapSize) := by
  have hlt : heapSize - 32 < 2^64 := by simp only [heapSize]; omega
  obtain ⟨hsize, hrep⟩ := rep_fresh m (a := heapStart) hlt
  simp only [init, bind_run, get_run, some_bind, Bool.false_eq_true, if_false, modify_run,
    setSize_run, setFree_run, setNext_run, if_true]
  rw [setFooter_run (s := heapSize - 32) ?_ (by simp only [heapStart, heapSize]; omega)]
  · simp only [some_bind, setCursor_run]
    exact ⟨_, rfl, rfl, hrep, by simp [Layout.initial]⟩
  · exact hsize

theorem Client.boot_sim (m : Mem) :
    ∃ c, Client.boot m = some c ∧ c.Sim (Layout.initial heapSize) ∧ c.returned = [] ∧
      c.Confined := by
  obtain ⟨h, hi, hr⟩ := init_run m
  refine ⟨⟨h, [], [], []⟩, by simp [Client.boot, hi], ⟨hr, ?_, ?_⟩, rfl, by simp [Confined]⟩
  · exact Layout.initial_ok (by simp only [heapSize]; omega) (by simp only [heapSize])
  · simp [Layout.initial, payloads]

def Layout.exec : Layout → List Event → Layout
  | L, [] => L
  | L, e :: es => (L.step e).exec es

def Layout.results : Layout → List Event → List Nat
  | _, [] => []
  | L, e :: es => (L.step e).results es ++ L.result e

/-- A permitted run ends, and its heap represents the tiling's run. -/
theorem Client.Sim.exec {P : Client → Event → Prop}
    (hP : ∀ {c : Client} {L : Layout} {e : Event}, c.Sim L → P c e →
      ∃ c', c.step e = some c' ∧ c'.Sim (L.step e) ∧ c'.returned = L.result e ++ c.returned ∧
        (c.Confined → c'.Confined))
    {es : List Event} : ∀ {c : Client} {L : Layout}, c.Sim L → c.Follows P es → c.Confined →
      ∃ c', c.exec es = some c' ∧ c'.Sim (L.exec es) ∧ c'.returned = L.results es ++ c.returned ∧
        c'.Confined := by
  induction es with
  | nil => intro c L h _ hc; exact ⟨c, rfl, h, rfl, hc⟩
  | cons e es ih =>
    intro c L h hf hc
    obtain ⟨c1, h1, hs1, hr1, hc1⟩ := hP h hf.1
    obtain ⟨c2, h2, hs2, hr2, hc2⟩ := ih hs1 (hf.2 c1 h1) (hc1 hc)
    refine ⟨c2, ?_, hs2, ?_, hc2⟩
    · rw [Client.exec, h1, some_bind, h2]
    · rw [hr2, hr1, Layout.results, List.append_assoc]

/-- The header list that represents a tiling laid out from `a`. -/
def views (a : Nat) : List Blk → List Block
  | [] => []
  | b :: bs => ⟨a, b.size, b.free, if bs = [] then 0 else a + 32 + b.size⟩ :: views (a + 32 + b.size) bs

theorem Rep.listed {m : Mem} {a : Nat} {bs : List Blk} (h : Rep m a bs 0) (ha : 0 < a) :
    Listed m (if bs = [] then 0 else a) (views a bs) := by
  induction bs generalizing a with
  | nil => simp [views, Listed]
  | cons b bs ih =>
    obtain ⟨hc, ht⟩ := h
    rw [if_neg (by simp)]
    refine ⟨by omega, ?_, ih ht (by omega)⟩
    have hflag : (loadLE m (a + 8) 1 != 0) = b.free := by
      rw [hc.free]
      cases b.free <;> rfl
    simp only [readBlock, hc.size, hc.next, hflag]

theorem views_tiles (a : Nat) (bs : List Blk) : Tiles a (views a bs) (a + span bs) := by
  induction bs generalizing a with
  | nil => simp [views, Tiles]
  | cons b bs ih =>
    refine ⟨rfl, ?_⟩
    have := ih (a + 32 + b.size)
    rwa [show a + 32 + b.size + span bs = a + span (b :: bs) by simp only [span_cons]; omega] at this

theorem mem_views {a : Nat} {bs : List Blk} {x : Block} (h : x ∈ views a bs) :
    ∃ u b v, bs = u ++ b :: v ∧ x.addr = a + span u ∧ x.size = b.size ∧ x.free = b.free := by
  induction bs generalizing a with
  | nil => simp [views] at h
  | cons b bs ih =>
    rcases List.mem_cons.mp h with rfl | h
    · exact ⟨[], b, bs, rfl, by simp⟩
    · obtain ⟨u, c, v, rfl, ha, hs, hf⟩ := ih h
      exact ⟨b :: u, c, v, rfl, by simp only [span_cons]; omega, hs, hf⟩

theorem views_mem (a : Nat) (u v : List Blk) (b : Blk) :
    ∃ x ∈ views a (u ++ b :: v), x.addr = a + span u ∧ x.free = b.free := by
  induction u generalizing a with
  | nil => exact ⟨_, List.mem_cons_self, by simp⟩
  | cons c u ih =>
    obtain ⟨x, hx, ha, hf⟩ := ih (a + 32 + c.size)
    exact ⟨x, List.mem_cons_of_mem _ hx, by simp only [span_cons]; omega, hf⟩

theorem views_chain {a : Nat} {bs : List Blk} (h : bs.IsChain Apart) :
    (views a bs).IsChain fun b c => ¬ (b.free = true ∧ c.free = true) := by
  induction bs generalizing a with
  | nil => simp [views]
  | cons b bs ih =>
    cases bs with
    | nil => simp [views]
    | cons c bs =>
      obtain ⟨hbc, ht⟩ := List.isChain_cons_cons.mp h
      exact List.isChain_cons_cons.mpr ⟨hbc, ih ht⟩

theorem Client.Sim.listed {c : Client} {L : Layout} (h : c.Sim L) :
    Listed c.heap.mem c.heap.heapHead (views heapStart L.blocks) := by
  have hne : L.blocks ≠ [] := by
    intro he
    have := h.ok.cursor_lt
    simp [he] at this
  have := h.rep.rep.listed (by simp only [heapStart]; omega)
  rw [if_neg hne] at this
  rw [h.rep.head]
  exact this

/-- The live pointers are the payloads of the blocks in use. -/
theorem Client.Sim.live_iff {c : Client} {L : Layout} (h : c.Sim L) (p : Nat) :
    p ∈ c.live.map Prod.fst ↔
      ∃ b ∈ views heapStart L.blocks, b.free = false ∧ p = b.addr + sizeofBlock := by
  rw [h.live, mem_payloads]
  constructor
  · rintro ⟨u, b, v, he, hb, rfl⟩
    obtain ⟨x, hx, ha, hf⟩ := views_mem heapStart u v b
    exact ⟨x, he ▸ hx, hf.trans hb, by rw [ha]⟩
  · rintro ⟨x, hx, hf, rfl⟩
    obtain ⟨u, b, v, he, ha, -, hf'⟩ := mem_views hx
    exact ⟨u, b, v, he, hf'.symm.trans hf, by rw [ha]⟩

/-- The correspondence implies the invariant on memory. -/
theorem Client.Sim.wellFormed {c : Client} {L : Layout} (h : c.Sim L) :
    WellFormed c.heap (c.live.map Prod.fst) := by
  refine ⟨views heapStart L.blocks, h.listed, ?_, ?_, ?_, views_chain h.ok.coalesced, ?_, ?_⟩
  · have := views_tiles heapStart L.blocks
    rwa [h.ok.span_eq] at this
  · intro x hx
    obtain ⟨u, b, v, he, -, hs, -⟩ := mem_views hx
    rw [hs]
    exact h.ok.aligned b (by simp [he])
  · intro x hx
    obtain ⟨u, b, v, he, ha, hs, -⟩ := mem_views hx
    have hrep := h.rep.rep
    rw [he] at hrep
    have haddr : x.addr + 32 + x.size - 8 = heapStart + span u + 24 + b.size := by omega
    rw [haddr, hs]
    exact hrep.cell.footer
  · have hsplit := (List.take_append_drop L.cursor L.blocks).symm
    obtain ⟨b, v, hd⟩ := List.exists_cons_of_ne_nil
      (show L.blocks.drop L.cursor ≠ [] by rw [Ne, List.drop_eq_nil_iff]; have := h.ok.cursor_lt; omega)
    rw [hd] at hsplit
    obtain ⟨x, hx, ha, -⟩ := views_mem heapStart (L.blocks.take L.cursor) v b
    rw [← hsplit] at hx
    exact List.mem_map.mpr ⟨x, hx, ha.trans h.rep.cursor.symm⟩
  · exact h.live_iff

/-- From `heap::init` on, every permitted run keeps the heap well formed, with the live
pointers exactly the payloads of the blocks in use. -/
theorem heap_well_formed (m : Mem) (es : List Event) :
    ∃ c₀, Client.boot m = some c₀ ∧
      (c₀.Follows Client.Permits es →
        ∃ c, c₀.exec es = some c ∧ WellFormed c.heap (c.live.map Prod.fst)) := by
  obtain ⟨c₀, hb, hs, -, hc⟩ := Client.boot_sim m
  refine ⟨c₀, hb, fun hf => ?_⟩
  obtain ⟨c, he, hs', -, -⟩ := Client.Sim.exec (fun h hp => h.step hp) hs hf hc
  exact ⟨c, he, hs'.wellFormed⟩

/-- Three blocks, a byte written into the second, a forward and a backward merge. -/
theorem heap_well_formed_three_blocks :
    ∃ c₀ c, Client.boot (fun _ => 0) = some c₀ ∧
      c₀.exec [.kmalloc 16, .kmalloc 40, .kmalloc 0, .write (heapStart + 80) 7,
        .kfree (heapStart + 80), .kfree (heapStart + 32), .kfree 0] = some c ∧
      WellFormed c.heap (c.live.map Prod.fst) := by
  obtain ⟨c₀, hb, hrun⟩ := heap_well_formed (fun _ => 0) [.kmalloc 16, .kmalloc 40, .kmalloc 0,
    .write (heapStart + 80) 7, .kfree (heapStart + 80), .kfree (heapStart + 32), .kfree 0]
  have hok : ∀ c ∈ Client.boot (fun _ => 0), c.Follows Client.Permits [.kmalloc 16, .kmalloc 40,
      .kmalloc 0, .write (heapStart + 80) 7, .kfree (heapStart + 80), .kfree (heapStart + 32),
      .kfree 0] := by
    decide +kernel
  obtain ⟨c, he, hw⟩ := hrun (hok c₀ hb)
  exact ⟨c₀, c, hb, he, hw⟩

end LosTacOS.Heap
