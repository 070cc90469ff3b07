import Mathlib.Data.List.Chain

/-! What the heap is for: a window tiled by blocks of a 32-byte header and a payload,
served next-fit from a cursor and coalesced on release. Addresses here are offsets
from the start of the window; no memory is involved. -/
namespace LosTacOS.Heap

structure Blk where
  size : Nat
  free : Bool
deriving DecidableEq, Repr

def span : List Blk → Nat
  | [] => 0
  | b :: bs => 32 + b.size + span bs

@[simp] theorem span_nil : span [] = 0 := rfl
@[simp] theorem span_cons (b : Blk) (bs : List Blk) : span (b :: bs) = 32 + b.size + span bs := rfl
@[simp] theorem span_append (u v : List Blk) : span (u ++ v) = span u + span v := by
  induction u with
  | nil => simp
  | cons b u ih => simp only [List.cons_append, span_cons, ih]; omega

theorem length_le_span (bs : List Blk) : 32 * bs.length ≤ span bs := by
  induction bs with
  | nil => simp
  | cons b bs ih => simp only [List.length_cons, span_cons]; omega

theorem span_aligned {bs : List Blk} (h : ∀ b ∈ bs, b.size % 16 = 0) : span bs % 16 = 0 := by
  induction bs with
  | nil => simp
  | cons c bs ih =>
    have h1 := h c (by simp)
    have h2 := ih fun d hd => h d (by simp [hd])
    simp only [span_cons]
    omega

/-- Payload addresses of the blocks in use, for blocks laid out from `a` upward. -/
def payloads (a : Nat) : List Blk → List Nat
  | [] => []
  | b :: bs => (if b.free then [] else [a + 32]) ++ payloads (a + 32 + b.size) bs

theorem payloads_append (a : Nat) (u v : List Blk) :
    payloads a (u ++ v) = payloads a u ++ payloads (a + span u) v := by
  induction u generalizing a with
  | nil => simp [payloads]
  | cons b u ih =>
    simp only [List.cons_append, payloads, span_cons, ih, List.append_assoc]
    congr 3
    omega

theorem mem_payloads {a p : Nat} {bs : List Blk} :
    p ∈ payloads a bs ↔ ∃ u b v, bs = u ++ b :: v ∧ b.free = false ∧ p = a + span u + 32 := by
  induction bs generalizing a with
  | nil => simp [payloads]
  | cons c bs ih =>
    simp only [payloads, List.mem_append, ih]
    constructor
    · rintro (h | ⟨u, b, v, rfl, hb, rfl⟩)
      · by_cases hc : c.free = true
        · simp [hc] at h
        · refine ⟨[], c, bs, rfl, by simpa using hc, ?_⟩
          simpa [hc] using h
      · exact ⟨c :: u, b, v, rfl, hb, by simp only [span_cons]; omega⟩
    · rintro ⟨u, b, v, he, hb, rfl⟩
      cases u with
      | nil =>
        obtain ⟨rfl, rfl⟩ := List.cons.inj he
        exact Or.inl (by simp [hb])
      | cons d u =>
        obtain ⟨rfl, rfl⟩ := List.cons.inj he
        exact Or.inr ⟨u, b, v, rfl, hb, by simp only [span_cons]; omega⟩

theorem payloads_lower {a p : Nat} {bs : List Blk} (h : p ∈ payloads a bs) : a + 32 ≤ p := by
  obtain ⟨u, b, v, -, -, rfl⟩ := mem_payloads.mp h
  omega

/-- Payload addresses of a prefix lie below the blocks after it, up to a trailing empty block. -/
theorem payloads_upper {a p : Nat} {bs : List Blk} (h : p ∈ payloads a bs) : p ≤ a + span bs := by
  obtain ⟨u, b, v, rfl, -, rfl⟩ := mem_payloads.mp h
  simp only [span_append, span_cons]
  omega

theorem payloads_of_free (a : Nat) {bs : List Blk} (h : ∀ c ∈ bs, c.free = true) :
    payloads a bs = [] := by
  induction bs generalizing a with
  | nil => rfl
  | cons c bs ih => simp [payloads, h c (by simp), ih _ fun d hd => h d (by simp [hd])]

def fits (need : Nat) (b : Blk) : Bool := b.free && decide (need ≤ b.size)

def firstFit (need : Nat) : List Blk → Option (List Blk × Blk × List Blk)
  | [] => none
  | b :: bs =>
    if fits need b then some ([], b, bs)
    else (firstFit need bs).map fun (u, c, v) => (b :: u, c, v)

theorem firstFit_some {need : Nat} {bs u v : List Blk} {b : Blk}
    (h : firstFit need bs = some (u, b, v)) :
    bs = u ++ b :: v ∧ fits need b = true ∧ ∀ c ∈ u, fits need c = false := by
  induction bs generalizing u with
  | nil => simp [firstFit] at h
  | cons d bs ih =>
    by_cases hd : fits need d = true
    · simp only [firstFit, if_pos hd, Option.some.injEq, Prod.mk.injEq] at h
      obtain ⟨rfl, rfl, rfl⟩ := h
      exact ⟨rfl, hd, by simp⟩
    · simp only [firstFit, if_neg hd, Option.map_eq_some_iff, Prod.mk.injEq, Prod.exists] at h
      obtain ⟨u', c, v', hf, rfl, rfl, rfl⟩ := h
      obtain ⟨rfl, hc, hu⟩ := ih hf
      refine ⟨rfl, hc, ?_⟩
      intro e he
      rcases List.mem_cons.mp he with rfl | he
      · simpa using hd
      · exact hu e he

theorem firstFit_none {need : Nat} {bs : List Blk} :
    firstFit need bs = none ↔ ∀ c ∈ bs, fits need c = false := by
  induction bs with
  | nil => simp [firstFit]
  | cons d bs ih =>
    by_cases hd : fits need d = true
    · simp [firstFit, hd]
    · simp [firstFit, hd, ih]

/-- What a taken block becomes: with 48 bytes to spare the rest is split off. -/
def carve (need : Nat) (b : Blk) : List Blk :=
  if need + 48 ≤ b.size then [⟨need, false⟩, ⟨b.size - need - 32, true⟩] else [⟨b.size, false⟩]

theorem span_carve (need : Nat) (b : Blk) : span (carve need b) = 32 + b.size := by
  by_cases h : need + 48 ≤ b.size
  · simp only [carve, if_pos h, span_cons, span_nil]; omega
  · simp [carve, h]

structure Layout where
  blocks : List Blk
  cursor : Nat
deriving DecidableEq

def Layout.malloc (L : Layout) (need : Nat) : Option (Nat × Layout) :=
  match firstFit need (L.blocks.drop L.cursor) with
  | some (u, b, v) =>
    let w := L.blocks.take L.cursor ++ u
    some (span w + 32, ⟨w ++ carve need b ++ v, w.length⟩)
  | none =>
    match firstFit need (L.blocks.take L.cursor) with
    | some (u, b, v) =>
      some (span u + 32, ⟨u ++ carve need b ++ (v ++ L.blocks.drop L.cursor), u.length⟩)
    | none => none

/-- The block whose payload is at `p`, for blocks laid out from `a` upward. -/
def cutAt (p a : Nat) : List Blk → Option (List Blk × Blk × List Blk)
  | [] => none
  | b :: bs =>
    if a + 32 = p then some ([], b, bs)
    else (cutAt p (a + 32 + b.size) bs).map fun (u, c, v) => (b :: u, c, v)

theorem cutAt_append_cons (a : Nat) (u v : List Blk) (b : Blk) :
    cutAt (a + span u + 32) a (u ++ b :: v) = some (u, b, v) := by
  induction u generalizing a with
  | nil => simp [cutAt]
  | cons d u ih =>
    have hne : a + 32 ≠ a + span (d :: u) + 32 := by simp only [span_cons]; omega
    have ha : a + span (d :: u) + 32 = a + 32 + d.size + span u + 32 := by
      simp only [span_cons]; omega
    simp only [List.cons_append, cutAt, if_neg hne]
    rw [ha, ih]
    rfl

def joinNext (b : Blk) : List Blk → Blk × List Blk
  | [] => (⟨b.size, true⟩, [])
  | n :: v => if n.free then (⟨b.size + 32 + n.size, true⟩, v) else (⟨b.size, true⟩, n :: v)

def joinPrev (u : List Blk) (b : Blk) : List Blk × Blk :=
  match u.getLast? with
  | none => (u, b)
  | some p => if p.free then (u.dropLast, ⟨p.size + 32 + b.size, true⟩) else (u, b)

@[simp] theorem joinPrev_nil (b : Blk) : joinPrev [] b = ([], b) := rfl
@[simp] theorem joinPrev_concat (u : List Blk) (p b : Blk) :
    joinPrev (u ++ [p]) b =
      if p.free then (u, ⟨p.size + 32 + b.size, true⟩) else (u ++ [p], b) := by
  simp [joinPrev]

/-- Release of the block whose payload is at `p`; anything else is ignored. -/
def Layout.release (L : Layout) (p : Nat) : Layout :=
  match cutAt p 0 L.blocks with
  | none => L
  | some (u, b, v) =>
    if b.free then L
    else
      let n := joinNext b v
      let q := joinPrev u n.1
      ⟨q.1 ++ q.2 :: n.2, if u.length ≤ L.cursor then q.1.length else L.cursor⟩

def Apart (b c : Blk) : Prop := ¬ (b.free = true ∧ c.free = true)

/-- The invariant of the tiling of a window of `total` bytes. A zero-size block is never
last: a payload address at the very end of the window would not be released. -/
structure Layout.Ok (total : Nat) (L : Layout) : Prop where
  cursor_lt : L.cursor < L.blocks.length
  span_eq : span L.blocks = total
  aligned : ∀ b ∈ L.blocks, b.size % 16 = 0
  coalesced : L.blocks.IsChain Apart
  last_pos : ∀ b ∈ L.blocks.getLast?, 0 < b.size

/-- Exchanging a stretch of blocks for one of equal span keeps the invariant when both
seams stay coalesced. -/
theorem Layout.Ok.replace {total : Nat} {u x y v : List Blk} {k j : Nat}
    (h : (Layout.mk (u ++ x ++ v) k).Ok total) (hy : y ≠ [])
    (hs : span y = span x) (ha : ∀ b ∈ y, b.size % 16 = 0) (hc : y.IsChain Apart)
    (hl : ∀ c ∈ u.getLast?, ∀ d ∈ y.head?, Apart c d)
    (hr : ∀ c ∈ y.getLast?, ∀ d ∈ v.head?, Apart c d)
    (hp : v = [] → ∀ b ∈ y.getLast?, 0 < b.size) (hk : j < (u ++ y ++ v).length) :
    (Layout.mk (u ++ y ++ v) j).Ok total := by
  have hcu : u.IsChain Apart := (h.coalesced.left_of_append).left_of_append
  have hcv : v.IsChain Apart := h.coalesced.right_of_append
  refine ⟨hk, ?_, ?_, ?_, ?_⟩
  · have he := h.span_eq
    simp only [span_append] at he ⊢
    omega
  · intro b hb
    simp only [List.mem_append] at hb
    rcases hb with (hb | hb) | hb
    · exact h.aligned b (by simp [hb])
    · exact ha b hb
    · exact h.aligned b (by simp [hb])
  · refine (hcu.append hc hl).append hcv ?_
    intro c hc' d hd
    rw [List.getLast?_append_of_ne_nil _ hy] at hc'
    exact hr c hc' d hd
  · intro b hb
    cases v with
    | nil =>
      rw [List.append_nil, List.getLast?_append_of_ne_nil _ hy] at hb
      exact hp rfl b hb
    | cons c v =>
      rw [List.getLast?_append_of_ne_nil _ (by simp)] at hb
      exact h.last_pos b (by rw [List.getLast?_append_of_ne_nil _ (by simp)]; exact hb)

def Layout.initial (total : Nat) : Layout := ⟨[⟨total - 32, true⟩], 0⟩

theorem Layout.initial_ok {total : Nat} (h : 32 < total) (ha : total % 16 = 0) :
    (Layout.initial total).Ok total := by
  refine ⟨by simp [initial], ?_, ?_, by simp [initial], ?_⟩
  · simp only [initial, span_cons, span_nil]; omega
  · simp only [initial, List.mem_singleton, forall_eq]; omega
  · simp only [initial, List.getLast?_singleton, Option.mem_some_iff, forall_eq']; omega

/-- Where an allocation is taken from: some fitting block of the list. -/
theorem Layout.malloc_some {L L' : Layout} {need p : Nat} (h : L.malloc need = some (p, L')) :
    ∃ u b v, L.blocks = u ++ b :: v ∧ fits need b = true ∧ p = span u + 32 ∧
      L' = ⟨u ++ carve need b ++ v, u.length⟩ := by
  unfold Layout.malloc at h
  split at h
  case h_1 u b v hf =>
    obtain ⟨he, hb, -⟩ := firstFit_some hf
    obtain ⟨rfl, rfl⟩ := Prod.mk.inj (Option.some.inj h)
    refine ⟨L.blocks.take L.cursor ++ u, b, v, ?_, hb, rfl, rfl⟩
    rw [List.append_assoc, ← he, List.take_append_drop]
  case h_2 hn =>
    split at h
    case h_1 u b v hf =>
      obtain ⟨he, hb, -⟩ := firstFit_some hf
      obtain ⟨rfl, rfl⟩ := Prod.mk.inj (Option.some.inj h)
      refine ⟨u, b, v ++ L.blocks.drop L.cursor, ?_, hb, rfl, rfl⟩
      rw [← List.cons_append, ← List.append_assoc, ← he, List.take_append_drop]
    case h_2 => cases h

theorem carve_ne_nil (need : Nat) (b : Blk) : carve need b ≠ [] := by
  by_cases h : need + 48 ≤ b.size <;> simp [carve, h]

theorem Layout.malloc_ok {total need p : Nat} {L L' : Layout} (h : L.Ok total)
    (hn : need % 16 = 0) (hm : L.malloc need = some (p, L')) : L'.Ok total := by
  obtain ⟨u, b, v, he, hb, -, rfl⟩ := malloc_some hm
  obtain ⟨bs, k⟩ := L
  subst he
  have hfree : b.free = true ∧ need ≤ b.size := by simpa [fits] using hb
  have hba : b.size % 16 = 0 := h.aligned b (by simp)
  have h' : (Layout.mk (u ++ [b] ++ v) k).Ok total := by simpa using h
  have hseam := (List.isChain_append.mp h'.coalesced).2.2
  have hbv : ∀ d ∈ v.head?, d.free = false := by
    intro d hd
    have := hseam b (by simp) d hd
    simpa [Apart, hfree.1] using this
  refine h'.replace (carve_ne_nil need b) ?_ ?_ ?_ ?_ ?_ ?_ ?_
  · rw [span_carve]; simp
  · by_cases hs : need + 48 ≤ b.size
    · simp only [carve, if_pos hs, List.mem_cons, List.not_mem_nil, or_false, forall_eq_or_imp,
        forall_eq]
      omega
    · simpa [carve, hs] using hba
  · by_cases hs : need + 48 ≤ b.size <;> simp [carve, hs, Apart]
  · intro c hc d hd
    by_cases hs : need + 48 ≤ b.size <;>
      (simp only [carve, hs, if_true, if_false, List.head?_cons, Option.mem_some_iff] at hd
       subst hd
       simp [Apart])
  · intro c _ d hd
    simp [Apart, hbv d hd]
  · intro hv c hc
    subst hv
    have hpos : 0 < b.size := h'.last_pos b (by simp)
    by_cases hs : need + 48 ≤ b.size <;>
      simp only [carve, hs, if_true, if_false, List.getLast?_cons_cons, List.getLast?_singleton,
        Option.mem_some_iff] at hc <;> subst hc <;> simp only <;> omega
  · have := List.length_pos_of_ne_nil (carve_ne_nil need b)
    simp only [List.length_append]
    omega

/-- An allocation adds its result to the addresses in use. -/
theorem Layout.mem_payloads_malloc {need p : Nat} {L L' : Layout}
    (hm : L.malloc need = some (p, L')) (q : Nat) :
    q ∈ payloads 0 L'.blocks ↔ q ∈ payloads 0 L.blocks ∨ q = p := by
  obtain ⟨u, b, v, he, hb, rfl, rfl⟩ := malloc_some hm
  have hfree : b.free = true := by simp only [fits, Bool.and_eq_true] at hb; exact hb.1
  have hcarve : payloads (0 + span u) (carve need b) = [span u + 32] := by
    by_cases hs : need + 48 ≤ b.size <;> simp [carve, hs, payloads]
  rw [he]
  simp only [payloads_append, hcarve, List.mem_append, List.mem_singleton, span_append, span_carve]
  simp only [payloads, hfree, if_true, List.nil_append, Nat.zero_add, Nat.add_assoc]
  tauto

/-- One statement of what a release does to the tiling: the block swallows at most one free
neighbour on each side, and what is left on both sides is in use. -/
theorem joined {u v : List Blk} {b : Blk} (hc : (u ++ b :: v).IsChain Apart) :
    ∃ l r, u = (joinPrev u (joinNext b v).1).1 ++ l ∧ v = r ++ (joinNext b v).2 ∧
      (∀ c ∈ l ++ r, c.free = true) ∧ l.length ≤ 1 ∧ r.length ≤ 1 ∧
      (joinPrev u (joinNext b v).1).2 = ⟨span (l ++ b :: r) - 32, true⟩ ∧
      (∀ c ∈ (joinPrev u (joinNext b v).1).1.getLast?, c.free = false) ∧
      (∀ c ∈ (joinNext b v).2.head?, c.free = false) := by
  obtain ⟨hu, hbv, -⟩ := List.isChain_append.mp hc
  -- the successor side
  have hright : ∃ r, v = r ++ (joinNext b v).2 ∧ (∀ c ∈ r, c.free = true) ∧ r.length ≤ 1 ∧
      (joinNext b v).1 = ⟨b.size + span r, true⟩ ∧ (∀ c ∈ (joinNext b v).2.head?, c.free = false) := by
    cases v with
    | nil => exact ⟨[], by simp [joinNext]⟩
    | cons n v =>
      by_cases hn : n.free = true
      · refine ⟨[n], by simp [joinNext, hn], by simp [hn], by simp, ?_, ?_⟩
        · simp [joinNext, hn, Nat.add_assoc]
        · intro c hcv
          simp only [joinNext, hn, if_true] at hcv
          have hap := (List.isChain_cons.mp hbv).2.rel_head? hcv
          simpa [Apart, hn] using hap
      · exact ⟨[], by simp [joinNext, hn]⟩
  obtain ⟨r, hv, hrf, hrl, hnb, hvh⟩ := hright
  -- the predecessor side
  rcases List.eq_nil_or_concat u with rfl | ⟨w, p, rfl⟩
  · refine ⟨[], r, by simp, hv, by simpa using hrf, by simp, hrl, ?_, by simp, hvh⟩
    simp only [joinPrev_nil, hnb, List.nil_append, span_cons]
    congr 1
    omega
  · rw [List.concat_eq_append] at hu ⊢
    by_cases hp : p.free = true
    · refine ⟨[p], r, by simp [hp], hv, ?_, by simp, hrl, ?_, ?_, hvh⟩
      · intro c hcm
        rcases List.mem_append.mp hcm with h | h
        · simpa [List.mem_singleton.mp h] using hp
        · exact hrf c h
      · simp only [joinPrev_concat, hp, if_true, hnb, List.singleton_append, span_cons]
        congr 1
        omega
      · intro c hcw
        simp only [joinPrev_concat, hp, if_true] at hcw
        have hap := (List.isChain_append.mp hu).2.2 c hcw p (by simp)
        simpa [Apart, hp] using hap
    · refine ⟨[], r, by simp [hp], hv, by simpa using hrf, by simp, hrl, ?_, ?_, hvh⟩
      · simp only [joinPrev_concat, hp, Bool.false_eq_true, if_false, hnb, List.nil_append,
          span_cons]
        congr 1
        omega
      · intro c hcw
        simp only [joinPrev_concat, hp, Bool.false_eq_true, if_false, List.getLast?_concat,
          Option.mem_some_iff] at hcw
        simpa [← hcw] using hp

theorem Layout.release_eq {u v : List Blk} {b : Blk} {k : Nat} (hb : b.free = false) :
    (Layout.mk (u ++ b :: v) k).release (span u + 32) =
      ⟨(joinPrev u (joinNext b v).1).1 ++ (joinPrev u (joinNext b v).1).2 :: (joinNext b v).2,
        if u.length ≤ k then (joinPrev u (joinNext b v).1).1.length else k⟩ := by
  have hcut : cutAt (span u + 32) 0 (u ++ b :: v) = some (u, b, v) := by
    simpa using cutAt_append_cons 0 u v b
  simp [Layout.release, hcut, hb]

theorem Layout.release_ok {total p : Nat} {L : Layout} (h : L.Ok total)
    (hp : p ∈ payloads 0 L.blocks) : (L.release p).Ok total := by
  obtain ⟨u, b, v, he, hb, rfl⟩ := mem_payloads.mp hp
  obtain ⟨bs, k⟩ := L
  subst he
  rw [Nat.zero_add, release_eq hb]
  obtain ⟨l, r, hu, hv, -, hll, hrl, hq, hlast, hhead⟩ := joined h.coalesced
  generalize (joinPrev u (joinNext b v).1).1 = u' at hu hq hlast ⊢
  generalize (joinNext b v).2 = v' at hv hq hhead ⊢
  rw [hq]
  subst hu hv
  have h' : (Layout.mk (u' ++ (l ++ b :: r) ++ v') k).Ok total := by simpa using h
  have hpos : 32 ≤ span (l ++ b :: r) := by simp only [span_append, span_cons]; omega
  have hal : span (l ++ b :: r) % 16 = 0 :=
    span_aligned fun c hc => h'.aligned c (List.mem_append_left _ (List.mem_append_right _ hc))
  have hsize : (span (l ++ b :: r) - 32) % 16 = 0 := by omega
  have key := h'.replace (y := [⟨span (l ++ b :: r) - 32, true⟩])
    (j := if (u' ++ l).length ≤ k then u'.length else k) (by simp)
    (by simp only [span_cons, span_nil]; omega)
    (by intro c hc; rw [List.mem_singleton.mp hc]; exact hsize) (by simp)
    (by intro c hc d _; simp [Apart, hlast c hc])
    (by intro c _ d hd; simp [Apart, hhead d hd])
    ?_ ?_
  · simpa using key
  · intro hv c hc
    subst hv
    simp only [List.getLast?_singleton, Option.mem_some_iff] at hc
    subst hc
    have hbig : 0 < span (l ++ b :: r) - 32 := by
      rcases List.eq_nil_or_concat r with rfl | ⟨r', n, rfl⟩
      · have hlp := h'.last_pos b (by simp)
        simp only [span_append, span_cons]
        omega
      · simp only [List.concat_eq_append, span_append, span_cons]
        omega
    exact hbig
  · have hk := h'.cursor_lt
    simp only [List.length_append, List.length_cons, List.length_nil] at hk hll hrl ⊢
    split_ifs <;> omega

/-- A release takes exactly its argument out of the addresses in use. -/
theorem Layout.mem_payloads_release {total p : Nat} {L : Layout} (h : L.Ok total)
    (hp : p ∈ payloads 0 L.blocks) (q : Nat) :
    q ∈ payloads 0 (L.release p).blocks ↔ q ∈ payloads 0 L.blocks ∧ q ≠ p := by
  obtain ⟨u, b, v, he, hb, rfl⟩ := mem_payloads.mp hp
  obtain ⟨bs, k⟩ := L
  subst he
  rw [Nat.zero_add, release_eq hb]
  obtain ⟨l, r, hu, hv, hfree, -, -, hq, -, -⟩ := joined h.coalesced
  generalize (joinPrev u (joinNext b v).1).1 = u' at hu hq ⊢
  generalize (joinNext b v).2 = v' at hv hq ⊢
  rw [hq]
  subst hu hv
  have hl : ∀ a, payloads a l = [] := fun a => payloads_of_free a fun c hc => hfree c (by simp [hc])
  have hr : ∀ a, payloads a r = [] := fun a => payloads_of_free a fun c hc => hfree c (by simp [hc])
  have hend : 32 + (span (l ++ b :: r) - 32) = span (l ++ b :: r) := by
    simp only [span_append, span_cons]; omega
  have hold : payloads 0 (u' ++ l ++ b :: (r ++ v')) =
      payloads 0 u' ++ (span (u' ++ l) + 32) :: payloads (span u' + span (l ++ b :: r)) v' := by
    simp only [payloads_append, payloads, hl, hr, hb, span_append, span_cons, List.append_nil,
      List.nil_append, Nat.zero_add, Bool.false_eq_true, if_false, List.singleton_append]
    congr 3
    omega
  have hnew : payloads 0 (u' ++ ⟨span (l ++ b :: r) - 32, true⟩ :: v') =
      payloads 0 u' ++ payloads (span u' + span (l ++ b :: r)) v' := by
    simp only [payloads_append, payloads, if_true, List.nil_append, Nat.zero_add, Nat.add_assoc,
      hend]
  rw [hold, hnew]
  have hlow : ∀ x ∈ payloads 0 u', x ≠ span (u' ++ l) + 32 := by
    intro x hx
    have := payloads_upper hx
    simp only [span_append]
    omega
  have hup : ∀ x ∈ payloads (span u' + span (l ++ b :: r)) v', x ≠ span (u' ++ l) + 32 := by
    intro x hx
    have := payloads_lower hx
    simp only [span_append, span_cons] at this ⊢
    omega
  simp only [List.mem_append, List.mem_cons]
  constructor
  · rintro (hx | hx)
    · exact ⟨Or.inl hx, hlow q hx⟩
    · exact ⟨Or.inr (Or.inr hx), hup q hx⟩
  · rintro ⟨hx | hx | hx, hne⟩
    · exact Or.inl hx
    · exact absurd hx hne
    · exact Or.inr hx

end LosTacOS.Heap
