import LosTacOS.Mm.Cursor
import LosTacOS.Mm.Paging

/-! `paging::alloc_page` over the states of the page allocator: it can use pages below the
identity-map line only, and takes what `pmm::alloc_page` offers first. -/
namespace LosTacOS.Mm

def Pmm.LowTaken (s : Pmm) : Prop :=
  ∀ i, i * pageSize < identityMapLimit → s.bitmap i = true

structure Machine.HandsOut (m : Machine) (f : Nat) (m' : Machine) : Prop where
  free : m.pmm.bitmap f = false
  low : f * pageSize < identityMapLimit
  used : m'.pmm.bitmap f = true
  zeros : ∀ i, m'.ram f i = 0

structure Machine.AllocatesLow (m : Machine) : Prop where
  null_iff : m.allocPage.1 = 0 ↔ m.pmm.LowTaken
  null : m.allocPage.1 = 0 → m.allocPage.2.pmm.bitmap = m.pmm.bitmap ∧
    m.allocPage.2.pmm.freePagesCount = m.pmm.freePagesCount
  page : m.allocPage.1 ≠ 0 → m.HandsOut m.allocPage.1 m.allocPage.2

def PageCall.FreesFirst : PageCall → Prop
  | .freePage addr => addr / pageSize = 0
  | _ => False

section alloc

variable {m : Machine} {i : Nat}

/-- A page taken and given back leaves the bits and the count. -/
theorem take_freePage (s : Pmm) (hb : s.bitmap i = false) :
    ((s.take i).freePage (i * pageSize)).bitmap = s.bitmap ∧
      ((s.take i).freePage (i * pageSize)).freePagesCount = s.freePagesCount := by
  have hpage : i * pageSize / pageSize = i := Nat.mul_div_cancel i (by decide)
  constructor
  · funext k
    rw [freePage_bitmap, hpage, take_bitmap]
    by_cases hk : k = i
    · rw [if_pos hk, hk, hb]
    · rw [if_neg hk, if_neg hk]
  · simp only [Pmm.freePage, hpage, take_bitmap, if_true]
    have hcount : s.freePagesCount - 1 + 1 = s.freePagesCount := by grind
    split
    · exact hcount
    · exact hcount

theorem LowTaken.of_least {s : Pmm} (hi : IsLeast (s.clearBits : Set Nat) i)
    (hle : identityMapLimit ≤ i * pageSize) : s.LowTaken := by
  intro k hk
  by_contra hb
  have hmem : k ∈ (s.clearBits : Set Nat) := by
    refine Finset.mem_coe.mpr (Pmm.mem_clearBits.mpr ⟨?_, Bool.eq_false_of_not_eq_true hb⟩)
    simp only [identityMapLimit, pageSize, totalPagesMax] at hk ⊢
    omega
  have hik : i ≤ k := hi.2 hmem
  simp only [pageSize] at hk hle
  omega

/-- With nothing to offer, the allocator says so and is left as it was. -/
theorem allocatesLow_of_none (hno : m.pmm.clearBits = ∅) (ha : m.pmm.allocPage = (0, m.pmm)) :
    m.AllocatesLow := by
  have hm : m.allocPage = (0, m) := by simp [Machine.allocPage, ha]
  have hlow : m.pmm.LowTaken := by
    intro k hk
    by_contra hb
    have hmem : k ∈ m.pmm.clearBits := by
      refine Pmm.mem_clearBits.mpr ⟨?_, Bool.eq_false_of_not_eq_true hb⟩
      simp only [identityMapLimit, pageSize, totalPagesMax] at hk ⊢
      omega
    rw [hno] at hmem
    cases hmem
  refine ⟨?_, ?_, ?_⟩
  · rw [hm]
    exact ⟨fun _ => hlow, fun _ => rfl⟩
  · rw [hm]
    exact fun _ => ⟨rfl, rfl⟩
  · rw [hm]
    exact fun h => absurd rfl h

/-- The lowest free page, where it is not the first one: above the line it goes back. -/
theorem allocatesLow_of_least (h0 : i ≠ 0) (hi : IsLeast (m.pmm.clearBits : Set Nat) i)
    (ha : m.pmm.allocPage = (i * pageSize, m.pmm.take i)) : m.AllocatesLow := by
  have hb : m.pmm.bitmap i = false := (Pmm.mem_clearBits.mp (Finset.mem_coe.mp hi.1)).2
  have hphys : i * pageSize ≠ 0 := Nat.mul_ne_zero h0 (by decide)
  have hpage : i * pageSize / pageSize = i := Nat.mul_div_cancel i (by decide)
  by_cases hle : identityMapLimit ≤ i * pageSize
  · have hm : m.allocPage = (0, { m with pmm := (m.pmm.take i).freePage (i * pageSize) }) := by
      simp only [Machine.allocPage, ha, if_neg hphys, if_pos hle]
    have hlow := LowTaken.of_least hi hle
    have hback := take_freePage m.pmm hb
    refine ⟨?_, ?_, ?_⟩
    · rw [hm]
      exact ⟨fun _ => hlow, fun _ => rfl⟩
    · rw [hm]
      exact fun _ => hback
    · rw [hm]
      exact fun h => absurd rfl h
  · have hm : m.allocPage = (i, { m with pmm := m.pmm.take i }.fill i fun _ => 0) := by
      simp only [Machine.allocPage, ha, if_neg hphys, if_neg hle, hpage]
    refine ⟨?_, ?_, ?_⟩
    · rw [hm]
      refine ⟨fun h => absurd h h0, fun h => ?_⟩
      rw [h i (Nat.lt_of_not_le hle)] at hb
      cases hb
    · rw [hm]
      exact fun h => absurd h h0
    · rw [hm]
      exact fun _ => ⟨hb, Nat.lt_of_not_le hle, by simp [Machine.fill], by simp [Machine.fill]⟩

/-- The first page, if it is free, is taken and not told from a failure. -/
theorem Pmm.Swept.allocatesLow_iff (h : m.pmm.Swept) : m.AllocatesLow ↔ m.pmm.bitmap 0 = true := by
  cases h.allocPage with
  | inl halloc =>
    have hm := allocatesLow_of_none halloc.1 halloc.2
    have hnull : m.allocPage.1 = 0 := by simp [Machine.allocPage, halloc.2]
    exact ⟨fun _ => hm.null_iff.mp hnull 0 (by decide), fun _ => hm⟩
  | inr halloc =>
    obtain ⟨i, hi, ha⟩ := halloc
    have hb : m.pmm.bitmap i = false := (Pmm.mem_clearBits.mp (Finset.mem_coe.mp hi.1)).2
    by_cases h0 : i = 0
    · subst h0
      have hnull : m.allocPage.1 = 0 := by simp [Machine.allocPage, ha]
      refine ⟨fun hm => hm.null_iff.mp hnull 0 (by decide), fun hset => ?_⟩
      rw [hset] at hb
      cases hb
    · refine ⟨fun _ => ?_, fun _ => allocatesLow_of_least h0 hi ha⟩
      by_contra hfirst
      have hmem : 0 ∈ (m.pmm.clearBits : Set Nat) := Finset.mem_coe.mpr
        (Pmm.mem_clearBits.mpr ⟨by decide, Bool.eq_false_of_not_eq_true hfirst⟩)
      exact h0 (Nat.le_zero.mp (hi.2 hmem))

theorem Pmm.Swept.call_first {s : Pmm} {c : PageCall} (h : s.Swept) (h0 : s.bitmap 0 = true)
    (hc : ¬ c.FreesFirst) : (s.call c).bitmap 0 = true := by
  cases c with
  | reserveRegion addr length => exact reserveRegion_keeps h0
  | allocPage =>
    cases h.allocPage with
    | inl halloc => simpa only [Pmm.call, halloc.2] using h0
    | inr halloc =>
      obtain ⟨i, _, halloc⟩ := halloc
      simp only [Pmm.call, halloc, take_bitmap, h0]
      split <;> rfl
  | freePage addr =>
    simp only [Pmm.call, freePage_bitmap]
    rwa [if_neg fun he => hc he.symm]

theorem Pmm.Swept.calls_first {s : Pmm} {cs : List PageCall} (h : s.Swept)
    (h0 : s.bitmap 0 = true) (hcs : ∀ c ∈ cs, ¬ c.FreesFirst) : (s.calls cs).bitmap 0 = true := by
  induction cs generalizing s with
  | nil => exact h0
  | cons c cs ih =>
    exact ih (h.call c) (h.call_first h0 (hcs c List.mem_cons_self))
      fun d hd => hcs d (List.mem_cons_of_mem c hd)

theorem Pmm.Swept.not_allocatesLow {s : Pmm} (h : s.Swept) (ram : Ram) :
    ¬ Machine.AllocatesLow ⟨s.calls [.freePage 0], ram⟩ := by
  intro hm
  have hset : (s.calls [.freePage 0]).bitmap 0 = true :=
    (Pmm.Swept.allocatesLow_iff (m := ⟨_, ram⟩) (h.calls [.freePage 0])).mp hm
  rw [Pmm.calls, List.foldl_cons, List.foldl_nil, Pmm.call, freePage_bitmap,
    if_pos (Nat.zero_div pageSize).symm] at hset
  cases hset

end alloc

/-- After every run of calls, `alloc_page` does what it is to do exactly when the first page of
memory is in use; it is in runs that never free it. -/
theorem allocPage_low_iff (s : Pmm) (img : KernelImage) (es : List MmapEntry) (cs : List PageCall)
    (ram : Ram) :
    (Machine.AllocatesLow ⟨(s.init img es).calls cs, ram⟩ ↔
      ((s.init img es).calls cs).bitmap 0 = true) ∧
    ((∀ c ∈ cs, ¬ c.FreesFirst) → Machine.AllocatesLow ⟨(s.init img es).calls cs, ram⟩) := by
  have hinit := init_swept s img es
  have hiff : Machine.AllocatesLow ⟨(s.init img es).calls cs, ram⟩ ↔
      ((s.init img es).calls cs).bitmap 0 = true := (hinit.calls cs).allocatesLow_iff
  exact ⟨hiff, fun hcs => hiff.mpr (hinit.calls_first (init_first s img es) hcs)⟩

/-- Once the first page is freed, the next allocation takes it and returns null. -/
theorem first_page_freed :
    ¬ ∀ (s : Pmm) (img : KernelImage) (es : List MmapEntry) (cs : List PageCall) (ram : Ram),
      Machine.AllocatesLow ⟨(s.init img es).calls cs, ram⟩ := by
  intro H
  exact (init_swept _ _ _).not_allocatesLow (fun _ _ => 0)
    (H ⟨fun _ => false, 0, 0, 0⟩ ⟨0x100000, 0x400000, by decide, by decide⟩
      [⟨0x100000, 0x7ee0000, 1⟩] [.freePage 0] fun _ _ => 0)

end LosTacOS.Mm
