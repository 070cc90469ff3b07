import LosTacOS.Lib.Moves
import LosTacOS.Mm.Mmap

/-! The memory that `sys_mmap` has given to a process, as the process itself reads and writes it. -/
namespace LosTacOS.Mm

open ByteMemory

section code

/-- A load in user mode; `none` is a page fault. -/
def Machine.userLoad (m : Machine) (r a : Nat) : Option UInt8 :=
  if a < userTop then
    (translate m.ram r a).bind fun t =>
      if t.user then some (byteOf (m.ram t.frame) (a % 4096)) else none
  else none

/-- Byte `o` of frame `f` is set, within its word. -/
def Machine.setByte (m : Machine) (f o : Nat) (b : UInt8) : Machine :=
  m.store f (o / 8) (loadLE (poke (byteOf (m.ram f)) o b) (8 * (o / 8)) 8)

def Machine.userStore (m : Machine) (r a : Nat) (b : UInt8) : Option Machine :=
  if a < userTop then
    (translate m.ram r a).bind fun t =>
      if t.user && t.writable then some (m.setByte t.frame (a % 4096) b) else none
  else none

def Machine.userLoads (m : Machine) (r a : Nat) : Nat → Option (List UInt8)
  | 0 => some []
  | n + 1 => do
    let b ← m.userLoad r a
    let bs ← userLoads m r (a + 1) n
    return b :: bs

def Machine.userStores (r : Nat) : Nat → List UInt8 → Machine → Option Machine
  | _, [], m => some m
  | a, b :: bs, m => do
    let m ← m.userStore r a b
    userStores r (a + 1) bs m

end code

/-- The pages from the base of the mappings up to `top` are the user's, each a frame of its own that
is none of the tables. -/
structure Heap (r : Nat) (m : Machine) (top : Nat) : Prop where
  tidy : Tidy r m
  aligned : top % 4096 = 0
  low : mmapBase ≤ top
  writes : ∀ {a}, mmapBase ≤ a → a < top → Writes m.ram r a
  frame : ∀ {a w}, mmapBase ≤ a → a < top → leafEntry m.ram r a = some w →
    frameOf w * pageSize < identityMapLimit ∧ Idle r m (frameOf w)
  apart : ∀ {a b w v}, mmapBase ≤ a → a < top → mmapBase ≤ b → b < top →
    leafEntry m.ram r a = some w → leafEntry m.ram r b = some v → frameOf w = frameOf v →
    a / 4096 = b / 4096

def Machine.heapBytes (m : Machine) (r top : Nat) : Mem := fun a =>
  if mmapBase ≤ a ∧ a < top then (m.userLoad r a).getD 0 else 0

section pages

variable {m m' : Machine} {r a top : Nat}

theorem Writes.leaf {ram : Ram} (h : Writes ram r a) :
    ∃ w, leafEntry ram r a = some w ∧ translate ram r a = some ⟨frameOf w, true, true⟩ := by
  have hb := h.backed
  obtain ⟨f, hf⟩ := h
  cases hl : leafEntry ram r a with
  | none =>
    rw [translate_none hl] at hf
    cases hf
  | some w =>
    refine ⟨w, rfl, ?_⟩
    rw [Backed, hl, hf, Option.map_some, Option.some.injEq, Translation.mk.injEq] at hb
    rw [hf, hb.1]

/-- A page has one frame, and there are not more frames below the identity map's end. -/
theorem Heap.top_le (h : Heap r m top) : top ≤ mmapBase + identityMapLimit := by
  have hal := h.aligned
  have hlow := h.low
  have hbase : mmapBase % 4096 = 0 := by decide
  have hin : ∀ i < (top - mmapBase) / 4096, mmapBase + i * 4096 < top := by omega
  have hcard := Finset.card_le_card_of_injOn (s := Finset.range ((top - mmapBase) / 4096))
    (t := Finset.range 0x10000)
    (fun i => ((leafEntry m.ram r (mmapBase + i * 4096)).map frameOf).getD 0) ?_ ?_
  · rw [Finset.card_range, Finset.card_range] at hcard
    simp only [identityMapLimit]
    omega
  · intro i hi
    have hi := hin i (Finset.mem_range.mp hi)
    obtain ⟨w, hw, -⟩ := (h.writes (Nat.le_add_right _ _) hi).leaf
    have hlim := (h.frame (Nat.le_add_right _ _) hi hw).1
    simp only [identityMapLimit, pageSize] at hlim
    simp only [hw, Option.map_some, Option.getD_some, Finset.coe_range, Set.mem_Iio]
    omega
  · intro i hi j hj he
    have hi := hin i (Finset.mem_range.mp hi)
    have hj := hin j (Finset.mem_range.mp hj)
    obtain ⟨w, hw, -⟩ := (h.writes (Nat.le_add_right _ _) hi).leaf
    obtain ⟨v, hv, -⟩ := (h.writes (Nat.le_add_right _ _) hj).leaf
    simp only [hw, hv, Option.map_some, Option.getD_some] at he
    have hpage := h.apart (Nat.le_add_right _ _) hi (Nat.le_add_right _ _) hj hw hv he
    omega

theorem Heap.lt_userTop (h : Heap r m top) (hhi : a < top) : a < userTop := by
  have htop := h.top_le
  simp only [mmapBase, identityMapLimit, userTop] at htop ⊢
  omega

theorem Heap.load (h : Heap r m top) (hlo : mmapBase ≤ a) (hhi : a < top) :
    m.userLoad r a = some (m.heapBytes r top a) := by
  obtain ⟨w, -, ht⟩ := (h.writes hlo hhi).leaf
  have hload : m.userLoad r a = some (byteOf (m.ram (frameOf w)) (a % 4096)) := by
    rw [Machine.userLoad, if_pos (h.lt_userTop hhi), ht]
    rfl
  rw [Machine.heapBytes, if_pos ⟨hlo, hhi⟩, hload, Option.getD_some]

theorem Heap.bytes_eq {w : Nat} (h : Heap r m top) (hlo : mmapBase ≤ a) (hhi : a < top)
    (hw : leafEntry m.ram r a = some w) :
    m.heapBytes r top a = byteOf (m.ram (frameOf w)) (a % 4096) := by
  obtain ⟨v, hv, ht⟩ := (h.writes hlo hhi).leaf
  rw [hw] at hv
  cases hv
  rw [Machine.heapBytes, if_pos ⟨hlo, hhi⟩, Machine.userLoad, if_pos (h.lt_userTop hhi), ht]
  rfl

end pages

section store

variable {m m' : Machine} {r a d s k top : Nat} {b : UInt8}

theorem setByte_same (m : Machine) (f o : Nat) (b : UInt8) :
    byteOf ((m.setByte f o b).ram f) = poke (byteOf (m.ram f)) o b := by
  funext x
  simp only [Machine.setByte, Machine.store, Function.update_self]
  by_cases hx : x / 8 = o / 8
  · rw [byteOf, hx, Function.update_self, loadLE_digit _ _ 8 _ (Nat.mod_lt x (by decide)), ← hx,
      Nat.div_add_mod]
    exact UInt8.ofNat_toNat
  · have hne : x ≠ o := fun he => hx (by rw [he])
    rw [byteOf, Function.update_of_ne hx, poke, if_neg hne, byteOf]

theorem setByte_other {f x : Nat} (o : Nat) (b : UInt8) (h : x ≠ f) :
    (m.setByte f o b).ram x = m.ram x := by
  simp only [Machine.setByte, Machine.store, Function.update_of_ne h]

structure Leaves (r top : Nat) (m m' : Machine) : Prop where
  tidy : Tidy r m'
  page : ∀ {a w}, mmapBase ≤ a → a < top → Writes m.ram r a → leafEntry m.ram r a = some w →
    Idle r m (frameOf w) →
    Writes m'.ram r a ∧ leafEntry m'.ram r a = some w ∧ Idle r m' (frameOf w)

theorem Leaves.heap (h : Leaves r top m m') (hH : Heap r m top) : Heap r m' top := by
  have hleaf : ∀ {a}, mmapBase ≤ a → a < top → ∃ w, leafEntry m.ram r a = some w ∧
      Writes m'.ram r a ∧ leafEntry m'.ram r a = some w ∧ Idle r m' (frameOf w) := by
    intro a hlo hhi
    have hwr := hH.writes hlo hhi
    obtain ⟨w, hw, -⟩ := hwr.leaf
    exact ⟨w, hw, h.page hlo hhi hwr hw (hH.frame hlo hhi hw).2⟩
  refine ⟨h.tidy, hH.aligned, hH.low, fun hlo hhi => ?_, fun hlo hhi hw => ?_,
    fun hloa hhia hlob hhib hw hv he => ?_⟩
  · obtain ⟨-, -, hwr, -⟩ := hleaf hlo hhi
    exact hwr
  · obtain ⟨v, hv, -, hv', hidle⟩ := hleaf hlo hhi
    rw [hw] at hv'
    cases hv'
    exact ⟨(hH.frame hlo hhi hv).1, hidle⟩
  · obtain ⟨w', hw', -, hleafa, -⟩ := hleaf hloa hhia
    obtain ⟨v', hv', -, hleafb, -⟩ := hleaf hlob hhib
    rw [hw] at hleafa
    rw [hv] at hleafb
    cases hleafa
    cases hleafb
    exact hH.apart hloa hhia hlob hhib hw' hv' he

/-- A store into the heap changes one byte of it, and nothing about its pages. -/
theorem Heap.store (h : Heap r m top) (hlo : mmapBase ≤ a) (hhi : a < top) (b : UInt8) :
    ∃ m', m.userStore r a b = some m' ∧ Leaves r top m m' ∧
      m'.heapBytes r top = poke (m.heapBytes r top) a b := by
  obtain ⟨w, hw, ht⟩ := (h.writes hlo hhi).leaf
  have hidle := (h.frame hlo hhi hw).2
  have hstore : m.userStore r a b = some (m.setByte (frameOf w) (a % 4096) b) := by
    rw [Machine.userStore, if_pos (h.lt_userTop hhi), ht]
    rfl
  have hram : ∀ {q x}, TablePath q → tableAt m.ram r q = some x →
      (m.setByte (frameOf w) (a % 4096) b).ram x = m.ram x :=
    fun hq hx => setByte_other _ _ fun he => hidle.2 _ hq (he ▸ hx)
  have hcalm : Calm r m (m.setByte (frameOf w) (a % 4096) b) := h.tidy.calm hram fun _ hx => hx
  have hleaves : Leaves r top m (m.setByte (frameOf w) (a % 4096) b) :=
    ⟨hcalm.tidy, fun hlo' hhi' hwr hv hx =>
      ⟨by rw [Writes, hcalm.translate hram]; exact hwr, by rw [hcalm.leaf, hv],
        hcalm.idle hx hx.1⟩⟩
  refine ⟨_, hstore, hleaves, ?_⟩
  have hH := hleaves.heap h
  funext x
  by_cases hx : mmapBase ≤ x ∧ x < top
  · obtain ⟨v, hv, -⟩ := (h.writes hx.1 hx.2).leaf
    have hv' : leafEntry (m.setByte (frameOf w) (a % 4096) b).ram r x = some v := by
      rw [hcalm.leaf, hv]
    rw [hH.bytes_eq hx.1 hx.2 hv', poke, h.bytes_eq hx.1 hx.2 hv]
    by_cases hf : frameOf v = frameOf w
    · -- the same frame is the same page
      have hpage := h.apart hx.1 hx.2 hlo hhi hv hw hf
      rw [hf, setByte_same, poke]
      have hoff : x % 4096 = a % 4096 ↔ x = a := by omega
      simp only [hoff]
    · have hne : x ≠ a := by
        intro he
        rw [he, hw] at hv
        cases hv
        exact hf rfl
      rw [setByte_other _ _ hf, if_neg hne]
  · have hne : x ≠ a := fun he => hx (he ▸ ⟨hlo, hhi⟩)
    rw [poke, if_neg hne, Machine.heapBytes, Machine.heapBytes, if_neg hx, if_neg hx]

theorem Leaves.refl (h : Tidy r m) : Leaves r top m m := ⟨h, fun _ _ hwr hw hx => ⟨hwr, hw, hx⟩⟩

theorem Leaves.trans {m₁ : Machine} (h : Leaves r top m m₁) (h' : Leaves r top m₁ m') :
    Leaves r top m m' := by
  refine ⟨h'.tidy, fun hlo hhi hwr hw hx => ?_⟩
  obtain ⟨hwr₁, hw₁, hx₁⟩ := h.page hlo hhi hwr hw hx
  exact h'.page hlo hhi hwr₁ hw₁ hx₁

theorem Heap.loads {n : Nat} (h : Heap r m top) (hlo : mmapBase ≤ a) (hhi : a + n ≤ top) :
    m.userLoads r a n = some ((List.range' a n).map (m.heapBytes r top)) := by
  induction n generalizing a with
  | zero => rfl
  | succ n ih =>
    have hrest := ih (a := a + 1) (by omega) (by omega)
    rw [Machine.userLoads, h.load hlo (by omega), hrest, List.range'_succ, List.map_cons]
    rfl

theorem Heap.stores {n : Nat} {src : Mem} (h : Heap r m top) (hlo : mmapBase ≤ d)
    (hhi : d + n ≤ top) : ∃ m', m.userStores r d ((List.range' s n).map src) = some m' ∧
      Leaves r top m m' ∧ m'.heapBytes r top = paste (m.heapBytes r top) d src s n := by
  induction n generalizing m d s with
  | zero => exact ⟨m, rfl, Leaves.refl h.tidy, (paste_zero _ _ _ _).symm⟩
  | succ n ih =>
    obtain ⟨m₁, hst, hleaves, hbytes⟩ := h.store hlo (by omega) (src s)
    obtain ⟨m₂, hrest, hleaves₂, hbytes₂⟩ :=
      ih (s := s + 1) (hleaves.heap h) (show mmapBase ≤ d + 1 by omega) (by omega)
    refine ⟨m₂, ?_, hleaves.trans hleaves₂, ?_⟩
    · rw [List.range'_succ, List.map_cons, Machine.userStores, hst]
      exact hrest
    · have hone : poke (m.heapBytes r top) d (src s) = paste (m.heapBytes r top) d src s 1 := by
        funext x
        by_cases hx : x = d
        · rw [hx, poke, if_pos rfl]
          exact (paste_in _ d src s (i := 0) Nat.one_pos).symm
        · rw [poke, if_neg hx, paste_out (by omega)]
      rw [hbytes₂, hbytes, hone, paste_append, Nat.add_comm 1 n]

end store

section growth

variable {m m₁ m₂ : Machine} {r f top : Nat}

theorem allocPage_low (m : Machine) : m.allocPage.1 * pageSize < identityMapLimit := by
  have hzero : 0 * pageSize < identityMapLimit := by decide
  unfold Machine.allocPage
  dsimp only
  split
  · exact hzero
  · split
    · exact hzero
    · rename_i hlim
      exact (Nat.div_mul_le_self m.pmm.allocPage.1 pageSize).trans_lt (Nat.lt_of_not_le hlim)

theorem Heap.page (h : Heap r m top) (ha : m.allocPage = (f, m₁)) (h0 : f ≠ 0)
    (hm : m₁.mapPage r top f 7 = (true, m₂)) :
    Heap r m₂ (top + 4096) ∧
      ∀ {a}, mmapBase ≤ a → a < top → m₂.heapBytes r (top + 4096) a = m.heapBytes r top a := by
  have hal := h.aligned
  have hlow := h.low
  have htop := h.top_le
  have hlim : f * pageSize < identityMapLimit := by
    have hlow := allocPage_low m
    rw [ha] at hlow
    exact hlow
  simp only [mmapBase, identityMapLimit] at htop
  have hd := h.tidy.drawn ha h0
  obtain ⟨htidy, hleaf, hother, hkeep⟩ := hd.calm.tidy.maps (by decide) hm
  have hfr : frameOf (entry f 7) = f := frameOf_entry (by decide)
  have hnot : ∀ {a}, a < top → ¬ SamePage top a := by
    intro a hhi
    rw [samePage_iff (by omega) (by omega)]
    omega
  have hsame : ∀ {a}, top ≤ a → a < top + 4096 → SamePage top a := by
    intro a hlo hhi
    rw [samePage_iff (by omega) (by omega)]
    omega
  have hold : ∀ {a}, a < top → leafEntry m₂.ram r a = leafEntry m.ram r a := by
    intro a hhi
    rw [hother a (hnot hhi), hd.calm.leaf]
  have hnew : ∀ {a}, top ≤ a → a < top + 4096 → leafEntry m₂.ram r a = some (entry f 7) := by
    intro a hlo hhi
    rw [(hsame hlo hhi).leafEntry, hleaf]
  have hframe : ∀ {a w}, mmapBase ≤ a → a < top → leafEntry m₂.ram r a = some w →
      frameOf w ≠ f ∧ m₂.ram (frameOf w) = m.ram (frameOf w) ∧ Idle r m₂ (frameOf w) := by
    intro a w hlo hhi hw
    rw [hold hhi] at hw
    have hx := (h.frame hlo hhi hw).2
    obtain ⟨hxf, hbit, hram⟩ := hd.others hx.1
    obtain ⟨hram₂, hx₂⟩ := hkeep (hd.calm.idle hx hbit)
    exact ⟨hxf, hram₂.trans hram, hx₂⟩
  have hH : Heap r m₂ (top + 4096) := by
    refine ⟨htidy, by omega, by omega, fun {a} hlo hhi => ?_, fun {a w} hlo hhi hw => ?_,
      fun {a b w v} hloa hhia hlob hhib hw hv he => ?_⟩
    · by_cases hlt : a < top
      · have hw₁ : Writes m₁.ram r a := by
          rw [Writes, hd.translate h.tidy]
          exact h.writes hlo hlt
        have hb := @Tidy.mapPage_backed m₁ r top a f 7 hd.calm.tidy (by decide) hw₁.backed
        have hl := @Tidy.mapPage_else m₁ r a top f 7 hd.calm.tidy (hnot hlt)
        rw [hm] at hb hl
        exact hw₁.of_backed hb hl
      · exact hd.calm.tidy.mapPage_writes hm (hsame (Nat.not_lt.mp hlt) hhi)
    · by_cases hlt : a < top
      · refine ⟨?_, (hframe hlo hlt hw).2.2⟩
        rw [hold hlt] at hw
        exact (h.frame hlo hlt hw).1
      · rw [hnew (Nat.not_lt.mp hlt) hhi] at hw
        cases hw
        rw [hfr]
        exact ⟨hlim, (hkeep hd.idle).2⟩
    · by_cases hlta : a < top
      · by_cases hltb : b < top
        · rw [hold hlta] at hw
          rw [hold hltb] at hv
          exact h.apart hloa hlta hlob hltb hw hv he
        · rw [hnew (Nat.not_lt.mp hltb) hhib] at hv
          cases hv
          exact absurd (he.trans hfr) (hframe hloa hlta hw).1
      · rw [hnew (Nat.not_lt.mp hlta) hhia] at hw
        cases hw
        by_cases hltb : b < top
        · exact absurd (he.symm.trans hfr) (hframe hlob hltb hv).1
        · omega
  refine ⟨hH, fun {a} hlo hhi => ?_⟩
  obtain ⟨w, hw, -⟩ := (h.writes hlo hhi).leaf
  have hw₂ : leafEntry m₂.ram r a = some w := by rw [hold hhi, hw]
  rw [h.bytes_eq hlo hhi hw, hH.bytes_eq hlo (by omega) hw₂, (hframe hlo hhi hw₂).2.1]

theorem Heap.grow {n : Nat} (h : Heap r m top) (hg : m.freshGranted r (fun _ => none) n top = true) :
    (m.mapFresh r (fun _ => none) n top).1 = n ∧
    Heap r (m.mapFresh r (fun _ => none) n top).2 (top + n * 4096) ∧
      ∀ {a}, mmapBase ≤ a → a < top →
        (m.mapFresh r (fun _ => none) n top).2.heapBytes r (top + n * 4096) a =
          m.heapBytes r top a := by
  induction n generalizing m top with
  | zero => exact ⟨rfl, by rwa [Nat.zero_mul, Nat.add_zero], fun _ _ => by rw [Nat.zero_mul]; rfl⟩
  | succ n ih =>
    cases ha : m.allocPage with
    | mk f m₁ =>
      cases hm : m₁.mapPage r top f 7 with
      | mk ok m₂ =>
        simp only [Machine.freshGranted, ha, hm, Bool.and_eq_true, decide_eq_true_eq,
          Machine.copyIn] at hg
        obtain ⟨⟨h0, rfl⟩, hg⟩ := hg
        obtain ⟨hH, hkeep⟩ := h.page ha h0 hm
        obtain ⟨hdone, hH', hkeep'⟩ := ih hH hg
        have htop : top + (n + 1) * 4096 = top + 4096 + n * 4096 := by omega
        simp only [Machine.mapFresh, ha, if_neg h0, hm, Machine.copyIn]
        rw [htop]
        refine ⟨by rw [hdone], hH', fun hlo hhi => ?_⟩
        rw [hkeep' hlo (by omega), hkeep hlo hhi]

end growth

end LosTacOS.Mm
