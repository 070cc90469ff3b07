import Mathlib.Data.Finset.Card
import Mathlib.Order.Bounds.Basic
import LosTacOS.Mm.Pmm

/-! Runs of the page allocator: the rolling cursor never passes a free page, and the count of free
pages is the number of clear bits. -/
namespace LosTacOS.Mm

def Pmm.clearBits (s : Pmm) : Finset Nat :=
  (Finset.range totalPagesMax).filter fun i => s.bitmap i = false

theorem Pmm.mem_clearBits {s : Pmm} {i : Nat} :
    i ∈ s.clearBits ↔ i < totalPagesMax ∧ s.bitmap i = false := by
  simp [Pmm.clearBits]

theorem Pmm.card_clearBits_le (s : Pmm) : s.clearBits.card ≤ totalPagesMax := by
  have h := Finset.card_filter_le (Finset.range totalPagesMax) fun i => s.bitmap i = false
  simpa [Pmm.clearBits] using h

section counting

variable {s t : Pmm} {i : Nat}

theorem Pmm.clearBits_set (h : ∀ k, t.bitmap k = if k = i then true else s.bitmap k) :
    t.clearBits = s.clearBits.erase i := by
  ext k
  rw [Finset.mem_erase, Pmm.mem_clearBits, Pmm.mem_clearBits, h k]
  by_cases hk : k = i
  · simp [hk]
  · simp [hk]

theorem Pmm.clearBits_clear (hi : i < totalPagesMax)
    (h : ∀ k, t.bitmap k = if k = i then false else s.bitmap k) :
    t.clearBits = insert i s.clearBits := by
  ext k
  rw [Finset.mem_insert, Pmm.mem_clearBits, Pmm.mem_clearBits, h k]
  by_cases hk : k = i
  · simp [hk, hi]
  · simp [hk]

def Pmm.Counted (s : Pmm) : Prop := s.freePagesCount.toNat = s.clearBits.card

theorem Pmm.Counted.used (hc : s.Counted) (hi : i < totalPagesMax) (hb : s.bitmap i = false)
    (h : ∀ k, t.bitmap k = if k = i then true else s.bitmap k)
    (ht : t.freePagesCount = s.freePagesCount - 1) : t.Counted := by
  have hmem : i ∈ s.clearBits := Pmm.mem_clearBits.mpr ⟨hi, hb⟩
  have hpos : 0 < s.clearBits.card := Finset.card_pos.mpr ⟨i, hmem⟩
  have hone : (1 : UInt64) ≤ s.freePagesCount := by
    rw [UInt64.le_iff_toNat_le, hc]
    exact hpos
  calc t.freePagesCount.toNat = s.freePagesCount.toNat - 1 := by
        rw [ht, UInt64.toNat_sub_of_le _ _ hone]
        rfl
    _ = s.clearBits.card - 1 := by rw [hc]
    _ = t.clearBits.card := by rw [Pmm.clearBits_set h, Finset.card_erase_of_mem hmem]

theorem Pmm.Counted.freed (hc : s.Counted) (hi : i < totalPagesMax) (hb : s.bitmap i = true)
    (h : ∀ k, t.bitmap k = if k = i then false else s.bitmap k)
    (ht : t.freePagesCount = s.freePagesCount + 1) : t.Counted := by
  have hmem : i ∉ s.clearBits := by
    rw [Pmm.mem_clearBits, hb]
    simp
  have hle := s.card_clearBits_le
  have hcard : s.freePagesCount.toNat = s.clearBits.card := hc
  calc t.freePagesCount.toNat = (s.freePagesCount.toNat + 1) % 2^64 := by
        rw [ht, UInt64.toNat_add]
        rfl
    _ = s.clearBits.card + 1 := by
        rw [hcard]
        exact Nat.mod_eq_of_lt (by simp only [totalPagesMax] at hle; omega)
    _ = t.clearBits.card := by
        rw [Pmm.clearBits_clear hi h, Finset.card_insert_of_notMem hmem]

theorem Pmm.Counted.reserveBit (hc : s.Counted) (i : Nat) : (s.reserveBit i).Counted := by
  by_cases hi : i < totalPagesMax
  · cases hb : s.bitmap i with
    | true => simpa [Pmm.reserveBit, hi, hb] using hc
    | false =>
      refine hc.used hi hb (fun k => ?_) (by simp [Pmm.reserveBit, hi, hb])
      simpa [hi] using reserveBit_bitmap s i k
  · simpa [Pmm.reserveBit, hi] using hc

theorem Pmm.Counted.freeBit (hc : s.Counted) (i : Nat) : (s.freeBit i).Counted := by
  by_cases hi : i < totalPagesMax
  · cases hb : s.bitmap i with
    | true =>
      refine hc.freed hi hb (fun k => ?_) (by simp [Pmm.freeBit, hi, hb])
      simpa [hi] using freeBit_bitmap s i k
    | false => simpa [Pmm.freeBit, hi, hb] using hc
  · simpa [Pmm.freeBit, hi] using hc

theorem Pmm.Counted.forPages {body : Pmm → Nat → Pmm}
    (hbody : ∀ {s : Pmm} (i : Nat), s.Counted → (body s i).Counted) (hc : s.Counted)
    (start stop : Nat) : (s.forPages body start stop).Counted := by
  unfold Pmm.forPages
  induction List.range' start (stop - start) generalizing s with
  | nil => exact hc
  | cons i is ih => exact ih (hbody i hc)

theorem Pmm.Counted.reserveRegion (hc : s.Counted) (addr length : UInt64) :
    (s.reserveRegion addr length).Counted :=
  Pmm.Counted.forPages (fun i h => h.reserveBit i) hc _ _

theorem Pmm.Counted.addEntry (hc : s.Counted) (e : MmapEntry) : (s.addEntry e).Counted := by
  by_cases ht : e.type = memoryAvailable
  · simp only [Pmm.addEntry, if_pos ht]
    apply Pmm.Counted.forPages (fun i h => h.freeBit i)
    exact hc
  · simpa [Pmm.addEntry, ht] using hc

theorem Pmm.Counted.addEntries (hc : s.Counted) (es : List MmapEntry) :
    (es.foldl Pmm.addEntry s).Counted := by
  induction es generalizing s with
  | nil => exact hc
  | cons e es ih => exact ih (hc.addEntry e)

/-- `init` counts what it frees, from a bitmap of set bits on. -/
theorem init_counted (s : Pmm) (img : KernelImage) (es : List MmapEntry) :
    (s.init img es).Counted := by
  have h0 : Pmm.Counted
      { s with bitmap := fun _ => true, freePagesCount := 0, totalPages := 0, lastPage := 0 } := by
    simp [Pmm.Counted, Pmm.clearBits]
  exact ((h0.addEntries es).reserveRegion _ _).reserveRegion _ _

end counting

section calls

inductive PageCall where
  | reserveRegion (addr length : UInt64)
  | allocPage
  | freePage (addr : Nat)

/-- Only whole pages of the memory there can be are freed, and never the first. -/
def PageCall.Fair : PageCall → Prop
  | .freePage addr => addr ≠ 0 ∧ addr % pageSize = 0 ∧ addr < totalPagesMax * pageSize
  | _ => True

def Pmm.call (s : Pmm) : PageCall → Pmm
  | .reserveRegion addr length => s.reserveRegion addr length
  | .allocPage => s.allocPage.2
  | .freePage addr => s.freePage addr

def Pmm.calls (s : Pmm) (cs : List PageCall) : Pmm := cs.foldl Pmm.call s

structure Pmm.Swept (s : Pmm) : Prop where
  behind : ∀ i < s.lastPage, s.bitmap i = true
  cursor : s.lastPage ≤ totalPagesMax

variable {s : Pmm}

theorem Pmm.Swept.wrap (h : s.Swept) : scan s.bitmap 0 s.lastPage = none := by
  cases hs : scan s.bitmap 0 s.lastPage with
  | none => rfl
  | some i =>
    obtain ⟨_, hi, hb, _⟩ := scan_some hs
    rw [h.behind i (by omega)] at hb
    cases hb

/-- An allocation takes the lowest clear bit, or there is none. -/
theorem Pmm.Swept.allocPage (h : s.Swept) :
    (s.clearBits = ∅ ∧ s.allocPage = (0, s)) ∨
      ∃ i, IsLeast (s.clearBits : Set Nat) i ∧ s.allocPage = (i * pageSize, s.take i) := by
  cases hs : scan s.bitmap s.lastPage (totalPagesMax - s.lastPage) with
  | none =>
    have halloc : s.allocPage = (0, s) := by simp only [Pmm.allocPage, hs, h.wrap]
    refine Or.inl ⟨Finset.eq_empty_of_forall_notMem fun i hi => ?_, halloc⟩
    obtain ⟨hlt, hb⟩ := Pmm.mem_clearBits.mp hi
    by_cases hl : s.lastPage ≤ i
    · rw [scan_none hs i hl (by omega)] at hb
      cases hb
    · rw [h.behind i (by omega)] at hb
      cases hb
  | some i =>
    obtain ⟨hl, hlt, hb, hset⟩ := scan_some hs
    have halloc : s.allocPage = (i * pageSize, s.take i) := by simp only [Pmm.allocPage, hs]
    have hc := h.cursor
    refine Or.inr ⟨i, ⟨Pmm.mem_clearBits.mpr ⟨by omega, hb⟩, fun k hk => ?_⟩, halloc⟩
    obtain ⟨_, hkb⟩ := Pmm.mem_clearBits.mp (Finset.mem_coe.mp hk)
    by_contra hki
    have hset' : s.bitmap k = true := by
      by_cases hkl : s.lastPage ≤ k
      · exact hset k hkl (by omega)
      · exact h.behind k (by omega)
    rw [hset'] at hkb
    cases hkb

theorem Pmm.Swept.take {i : Nat} (hi : IsLeast (s.clearBits : Set Nat) i) :
    (s.take i).Swept := by
  obtain ⟨hlt, hb⟩ := Pmm.mem_clearBits.mp (Finset.mem_coe.mp hi.1)
  refine ⟨fun k hk => ?_, ?_⟩
  · rw [take_lastPage] at hk
    rw [take_bitmap]
    by_cases hki : k = i
    · rw [if_pos hki]
    · rw [if_neg hki]
      by_contra hkb
      have hle : i ≤ k := hi.2 (Finset.mem_coe.mpr
        (Pmm.mem_clearBits.mpr ⟨by omega, Bool.eq_false_of_not_eq_true hkb⟩))
      omega
  · rw [take_lastPage]
    exact hlt

/-- The cursor goes back to a page freed behind it, whatever the address. -/
theorem Pmm.Swept.freePage (h : s.Swept) (addr : Nat) : (s.freePage addr).Swept := by
  cases hb : s.bitmap (addr / pageSize) with
  | false => simpa [Pmm.freePage, hb] using h
  | true =>
    have hlast : (s.freePage addr).lastPage = min (addr / pageSize) s.lastPage := by
      simp only [Pmm.freePage, hb, if_true, Pmm.clearBit]
      split
      · rename_i hlt
        exact (Nat.min_eq_left hlt.le).symm
      · rename_i hlt
        exact (Nat.min_eq_right (Nat.le_of_not_lt hlt)).symm
    refine ⟨fun k hk => ?_, ?_⟩
    · rw [hlast] at hk
      rw [freePage_bitmap, if_neg (by omega)]
      exact h.behind k (by omega)
    · rw [hlast]
      exact (Nat.min_le_right _ _).trans h.cursor

theorem reserveRegion_keeps {addr length : UInt64} {k : Nat} (hk : s.bitmap k = true) :
    (s.reserveRegion addr length).bitmap k = true := by
  rw [reserveRegion_bitmap, hk]
  split <;> rfl

theorem Pmm.Swept.reserveRegion (h : s.Swept) (addr length : UInt64) :
    (s.reserveRegion addr length).Swept := by
  refine ⟨fun k hk => ?_, ?_⟩
  · rw [reserveRegion_lastPage] at hk
    exact reserveRegion_keeps (h.behind k hk)
  · rw [reserveRegion_lastPage]
    exact h.cursor

theorem Pmm.Swept.call (h : s.Swept) (c : PageCall) : (s.call c).Swept := by
  cases c with
  | reserveRegion addr length => exact h.reserveRegion addr length
  | allocPage =>
    cases h.allocPage with
    | inl halloc =>
      simp only [Pmm.call, halloc.2]
      exact h
    | inr halloc =>
      obtain ⟨i, hi, halloc⟩ := halloc
      simp only [Pmm.call, halloc]
      exact Pmm.Swept.take hi
  | freePage addr => exact h.freePage addr

theorem Pmm.Swept.calls (h : s.Swept) (cs : List PageCall) : (s.calls cs).Swept := by
  induction cs generalizing s with
  | nil => exact h
  | cons c cs ih => exact ih (h.call c)

theorem init_swept (s : Pmm) (img : KernelImage) (es : List MmapEntry) :
    (s.init img es).Swept := by
  refine ⟨fun i hi => ?_, ?_⟩
  · rw [init_lastPage] at hi
    omega
  · rw [init_lastPage]
    exact Nat.zero_le _

theorem init_first (s : Pmm) (img : KernelImage) (es : List MmapEntry) :
    (s.init img es).bitmap 0 = true := by
  by_contra h
  have hlow := ((init_bitmap s img es (show 0 < totalPagesMax by decide)).mp
    (Bool.eq_false_of_not_eq_true h)).2.1
  omega

structure Pmm.Tracked (s : Pmm) : Prop where
  counted : s.Counted
  behind : ∀ i < s.lastPage, s.bitmap i = true
  cursor : s.lastPage ≤ totalPagesMax
  first : s.bitmap 0 = true

theorem Pmm.Tracked.swept (h : s.Tracked) : s.Swept := ⟨h.behind, h.cursor⟩

theorem Pmm.Swept.tracked (h : s.Swept) (hc : s.Counted) (h0 : s.bitmap 0 = true) : s.Tracked :=
  ⟨hc, h.behind, h.cursor, h0⟩

theorem init_tracked (s : Pmm) (img : KernelImage) (es : List MmapEntry) :
    (s.init img es).Tracked :=
  (init_swept s img es).tracked (init_counted s img es) (init_first s img es)

theorem Pmm.Tracked.take {i : Nat} (h : s.Tracked) (hi : IsLeast (s.clearBits : Set Nat) i) :
    (s.take i).Tracked := by
  obtain ⟨hlt, hb⟩ := Pmm.mem_clearBits.mp (Finset.mem_coe.mp hi.1)
  refine (Pmm.Swept.take hi).tracked (h.counted.used hlt hb (take_bitmap s i) rfl) ?_
  rw [take_bitmap, h.first]
  split <;> rfl

theorem Pmm.Tracked.freePage {addr : Nat} (h : s.Tracked) (ha : (PageCall.freePage addr).Fair) :
    (s.freePage addr).Tracked := by
  obtain ⟨h0, hmod, hlt⟩ := ha
  have hpage : addr / pageSize < totalPagesMax :=
    Nat.div_lt_of_lt_mul (by rw [Nat.mul_comm]; exact hlt)
  have hpos : addr / pageSize ≠ 0 := by
    simp only [pageSize] at hmod ⊢
    omega
  cases hb : s.bitmap (addr / pageSize) with
  | false => simpa [Pmm.freePage, hb] using h
  | true =>
    have hcount : (s.freePage addr).freePagesCount = s.freePagesCount + 1 := by
      simp only [Pmm.freePage, hb, if_true]
      split <;> rfl
    have hcounted := h.counted.freed hpage hb (freePage_bitmap s addr) hcount
    refine (h.swept.freePage addr).tracked hcounted ?_
    rw [freePage_bitmap, if_neg (Ne.symm hpos)]
    exact h.first

theorem Pmm.Tracked.reserveRegion (h : s.Tracked) (addr length : UInt64) :
    (s.reserveRegion addr length).Tracked :=
  (h.swept.reserveRegion addr length).tracked (h.counted.reserveRegion addr length)
    (reserveRegion_keeps h.first)

theorem Pmm.Tracked.call {c : PageCall} (h : s.Tracked) (hc : c.Fair) : (s.call c).Tracked := by
  cases c with
  | reserveRegion addr length => exact h.reserveRegion addr length
  | allocPage =>
    cases h.swept.allocPage with
    | inl halloc =>
      simp only [Pmm.call, halloc.2]
      exact h
    | inr halloc =>
      obtain ⟨i, hi, halloc⟩ := halloc
      simp only [Pmm.call, halloc]
      exact h.take hi
  | freePage addr => exact h.freePage hc

theorem Pmm.Tracked.calls {cs : List PageCall} (h : s.Tracked) (hcs : ∀ c ∈ cs, c.Fair) :
    (s.calls cs).Tracked := by
  induction cs generalizing s with
  | nil => exact h
  | cons c cs ih =>
    exact ih (h.call (hcs c List.mem_cons_self)) fun d hd => hcs d (List.mem_cons_of_mem c hd)

end calls

section reuse

variable {s : Pmm} {i : Nat}

theorem Pmm.Tracked.call_used {c : PageCall} (h : s.Tracked) (hc : c.Fair) (hi : s.bitmap i = true)
    (hne : c ≠ .freePage (i * pageSize)) : (s.call c).bitmap i = true := by
  cases c with
  | reserveRegion addr length =>
    simp only [Pmm.call, reserveRegion_bitmap, hi]
    split <;> rfl
  | allocPage =>
    cases h.swept.allocPage with
    | inl halloc => simpa only [Pmm.call, halloc.2] using hi
    | inr halloc =>
      obtain ⟨j, _, halloc⟩ := halloc
      simp only [Pmm.call, halloc, take_bitmap, hi]
      split <;> rfl
  | freePage addr =>
    have hpage : i ≠ addr / pageSize := by
      intro he
      apply hne
      rw [he, Nat.div_mul_cancel (Nat.dvd_of_mod_eq_zero hc.2.1)]
    simpa only [Pmm.call, freePage_bitmap, if_neg hpage] using hi

theorem Pmm.Tracked.calls_used {cs : List PageCall} (h : s.Tracked) (hcs : ∀ c ∈ cs, c.Fair)
    (hi : s.bitmap i = true) (hne : .freePage (i * pageSize) ∉ cs) :
    (s.calls cs).bitmap i = true := by
  induction cs generalizing s with
  | nil => exact hi
  | cons c cs ih =>
    have hc := hcs c List.mem_cons_self
    have hused : (s.call c).bitmap i = true :=
      h.call_used hc hi fun he => hne (he ▸ List.mem_cons_self)
    exact ih (h.call hc) (fun d hd => hcs d (List.mem_cons_of_mem c hd)) hused
      fun hm => hne (List.mem_cons_of_mem c hm)

/-- A page that is handed out again was freed in between. -/
theorem Pmm.Tracked.handed_again {cs : List PageCall} (h : s.Tracked) (hcs : ∀ c ∈ cs, c.Fair)
    (h0 : s.allocPage.1 ≠ 0) (hagain : (s.allocPage.2.calls cs).allocPage.1 = s.allocPage.1) :
    .freePage s.allocPage.1 ∈ cs := by
  cases h.swept.allocPage with
  | inl halloc =>
    rw [halloc.2] at h0
    exact absurd rfl h0
  | inr halloc =>
    obtain ⟨i, hi, halloc⟩ := halloc
    rw [halloc] at h0 hagain ⊢
    dsimp only at h0 hagain ⊢
    by_contra hno
    have ht := h.take hi
    have hused : ((s.take i).calls cs).bitmap i = true := by
      apply ht.calls_used hcs _ hno
      simp
    cases (ht.calls hcs).swept.allocPage with
    | inl hnone =>
      rw [hnone.2] at hagain
      exact h0 hagain.symm
    | inr hsome =>
      obtain ⟨j, hj, hsome⟩ := hsome
      rw [hsome] at hagain
      have hij : j = i := Nat.eq_of_mul_eq_mul_right (show 0 < pageSize by decide) hagain
      rw [hij] at hj
      have hb := (Pmm.mem_clearBits.mp (Finset.mem_coe.mp hj.1)).2
      rw [hused] at hb
      cases hb

end reuse

def Pmm.AllocatesLowest (s : Pmm) : Prop :=
  (s.allocPage.1 = 0 ↔ s.clearBits = ∅) ∧
    (∀ i, IsLeast (s.clearBits : Set Nat) i → s.allocPage.1 = i * pageSize ∧
      ∀ k, s.allocPage.2.bitmap k = if k = i then true else s.bitmap k) ∧
    scan s.bitmap 0 s.lastPage = none

theorem Pmm.Tracked.allocatesLowest {s : Pmm} (h : s.Tracked) : s.AllocatesLowest := by
  cases h.swept.allocPage with
  | inl halloc =>
    refine ⟨⟨fun _ => halloc.1, fun _ => by rw [halloc.2]⟩, fun i hi => ?_, h.swept.wrap⟩
    have hmem : i ∈ s.clearBits := Finset.mem_coe.mp hi.1
    rw [halloc.1] at hmem
    cases hmem
  | inr halloc =>
    obtain ⟨i, hi, halloc⟩ := halloc
    have hmem : i ∈ s.clearBits := Finset.mem_coe.mp hi.1
    have hpos : i ≠ 0 := by
      intro h0
      have hb := (Pmm.mem_clearBits.mp hmem).2
      rw [h0, h.first] at hb
      cases hb
    rw [Pmm.AllocatesLowest, halloc]
    refine ⟨⟨fun h0 => ?_, fun hno => ?_⟩, fun j hj => ?_, h.swept.wrap⟩
    · simp only [pageSize] at h0
      omega
    · rw [hno] at hmem
      cases hmem
    · rw [hi.unique hj]
      exact ⟨rfl, take_bitmap s j⟩

/-- The free pages are counted, none lies behind the cursor, an allocation takes the lowest of them,
and the page it hands out is not handed out again unless it was freed in between. -/
structure Pmm.Exact (s : Pmm) : Prop where
  counted : s.freePagesCount.toNat = s.clearBits.card
  behind : ∀ i < s.lastPage, s.bitmap i = true
  lowest : s.AllocatesLowest
  reuse : ∀ cs : List PageCall, (∀ c ∈ cs, c.Fair) → s.allocPage.1 ≠ 0 →
    (s.allocPage.2.calls cs).allocPage.1 = s.allocPage.1 → .freePage s.allocPage.1 ∈ cs

/-- The allocator is exact after every run of calls. -/
theorem pages_tracked (s : Pmm) (img : KernelImage) (es : List MmapEntry) (cs : List PageCall)
    (hcs : ∀ c ∈ cs, c.Fair) : ((s.init img es).calls cs).Exact := by
  have h := (init_tracked s img es).calls hcs
  exact ⟨h.counted, h.behind, h.allocatesLowest, fun ds hds => h.handed_again hds⟩

/-- Two pages above the kernel, of which one comes back. -/
theorem pages_tracked_one_freed :
    ((Pmm.init ⟨fun _ => false, 0, 0, 0⟩ ⟨0x100000, 0x400000, by decide, by decide⟩
      [⟨0x100000, 0x7ee0000, 1⟩]).calls [.allocPage, .allocPage, .freePage 0x400000]).Exact := by
  apply pages_tracked
  simp [PageCall.Fair, pageSize, totalPagesMax]

end LosTacOS.Mm
