import Mathlib.Data.List.Basic
import Mathlib.Algebra.Group.Nat.Defs
import Mathlib.Logic.Function.Basic

/-! The physical page allocator: one bit for each 4 KiB page, set while the page is in use. -/
namespace LosTacOS.Mm

abbrev pageSize : Nat := 4096

abbrev totalPagesMax : Nat := 33554432

/-- Bits past `totalPagesMax` stand for the memory behind the array. -/
structure Pmm where
  bitmap : Nat → Bool
  totalPages : UInt64
  freePagesCount : UInt64
  lastPage : Nat

def Pmm.setBit (s : Pmm) (bit : Nat) : Pmm :=
  { s with bitmap := Function.update s.bitmap bit true }

def Pmm.clearBit (s : Pmm) (bit : Nat) : Pmm :=
  { s with bitmap := Function.update s.bitmap bit false }

def Pmm.reserveBit (s : Pmm) (i : Nat) : Pmm :=
  if i < totalPagesMax then
    if s.bitmap i then s
    else { s.setBit i with freePagesCount := s.freePagesCount - 1 }
  else s

def Pmm.freeBit (s : Pmm) (i : Nat) : Pmm :=
  if i < totalPagesMax then
    if s.bitmap i then { s.clearBit i with freePagesCount := s.freePagesCount + 1 }
    else s
  else s

def Pmm.forPages (body : Pmm → Nat → Pmm) (s : Pmm) (start stop : Nat) : Pmm :=
  (List.range' start (stop - start)).foldl body s

def Pmm.reserveRegion (s : Pmm) (addr length : UInt64) : Pmm :=
  s.forPages reserveBit (addr / 4096).toNat ((addr + length + 4096 - 1) / 4096).toNat

def Pmm.freeRegion (s : Pmm) (addr length : UInt64) : Pmm :=
  s.forPages freeBit (addr / 4096).toNat ((addr + length) / 4096).toNat

structure MmapEntry where
  addr : UInt64
  len : UInt64
  type : UInt32
deriving DecidableEq

def memoryAvailable : UInt32 := 1

def MmapEntry.pages (e : MmapEntry) : UInt64 :=
  if e.len / 4096 > 33554432 then 33554432 else e.len / 4096

def Pmm.addEntry (s : Pmm) (e : MmapEntry) : Pmm :=
  if e.type = memoryAvailable then
    { s with totalPages := s.totalPages + e.pages }.freeRegion e.addr (e.pages * 4096)
  else s

structure KernelImage where
  start : UInt64
  stop : UInt64
  ordered : start ≤ stop
  below_top : stop.toNat + 4096 ≤ 2^64

/-- `init` over the entries of all memory-map tags, in their order. -/
def Pmm.init (s : Pmm) (img : KernelImage) (entries : List MmapEntry) : Pmm :=
  let s := { s with bitmap := fun _ => true, freePagesCount := 0, totalPages := 0, lastPage := 0 }
  let s := entries.foldl addEntry s
  let s := s.reserveRegion 0 0x100000
  s.reserveRegion img.start (img.stop - img.start)

/-- The first clear bit among the `n` bits from `i` on. -/
def scan (bitmap : Nat → Bool) : Nat → Nat → Option Nat
  | _, 0 => none
  | i, n + 1 => if bitmap i then scan bitmap (i + 1) n else some i

def Pmm.take (s : Pmm) (i : Nat) : Pmm :=
  { s.setBit i with freePagesCount := s.freePagesCount - 1, lastPage := i + 1 }

/-- The address of a page and the allocator after, or 0 when every page is in use. -/
def Pmm.allocPage (s : Pmm) : Nat × Pmm :=
  match scan s.bitmap s.lastPage (totalPagesMax - s.lastPage) with
  | some i => (i * pageSize, s.take i)
  | none =>
    -- wrap around: pages freed behind the cursor
    match scan s.bitmap 0 s.lastPage with
    | some i => (i * pageSize, s.take i)
    | none => (0, s)

def Pmm.freePage (s : Pmm) (addr : Nat) : Pmm :=
  let page := addr / pageSize
  if s.bitmap page then
    let t := { s.clearBit page with freePagesCount := s.freePagesCount + 1 }
    if page < s.lastPage then { t with lastPage := page } else t
  else s

section scan

variable {b : Nat → Bool}

theorem scan_some {i n j : Nat} (h : scan b i n = some j) :
    i ≤ j ∧ j < i + n ∧ b j = false ∧ ∀ k, i ≤ k → k < j → b k = true := by
  induction n generalizing i with
  | zero => simp [scan] at h
  | succ n ih =>
    rw [scan] at h
    split_ifs at h with hb
    · obtain ⟨h1, h2, h3, h4⟩ := ih h
      refine ⟨by omega, by omega, h3, fun k hk hkj => ?_⟩
      by_cases hki : k = i
      · rw [hki, hb]
      · exact h4 k (by omega) hkj
    · cases h
      refine ⟨Nat.le_refl _, by omega, by simpa using hb, fun k hk hkj => by omega⟩

theorem scan_none {i n : Nat} (h : scan b i n = none) : ∀ k, i ≤ k → k < i + n → b k = true := by
  induction n generalizing i with
  | zero => intro k _ _; omega
  | succ n ih =>
    rw [scan] at h
    split_ifs at h with hb
    intro k hk hkn
    by_cases hki : k = i
    · rw [hki, hb]
    · exact ih h k (by omega) (by omega)

end scan

/-- A loop whose body sets one bit below the limit sets the bits of its range. -/
theorem forPages_bitmap {body : Pmm → Nat → Pmm} {v : Bool}
    (hbody : ∀ s i k, (body s i).bitmap k =
      if k = i ∧ i < totalPagesMax then v else s.bitmap k)
    (s : Pmm) (start stop k : Nat) :
    (s.forPages body start stop).bitmap k =
      if start ≤ k ∧ k < stop ∧ k < totalPagesMax then v else s.bitmap k := by
  unfold Pmm.forPages
  generalize hn : stop - start = n
  induction n generalizing s start with
  | zero => simp only [List.range'_zero, List.foldl_nil]; rw [if_neg (by omega)]
  | succ n ih =>
    rw [List.range'_succ, List.foldl_cons, ih (body s start) (start + 1) (by omega), hbody]
    split_ifs <;> first | rfl | omega

theorem reserveBit_bitmap (s : Pmm) (i k : Nat) :
    (s.reserveBit i).bitmap k = if k = i ∧ i < totalPagesMax then true else s.bitmap k := by
  unfold Pmm.reserveBit Pmm.setBit
  by_cases hk : k = i
  · subst hk
    split_ifs <;> simp_all
  · split_ifs <;> simp_all

theorem freeBit_bitmap (s : Pmm) (i k : Nat) :
    (s.freeBit i).bitmap k = if k = i ∧ i < totalPagesMax then false else s.bitmap k := by
  unfold Pmm.freeBit Pmm.clearBit
  by_cases hk : k = i
  · subst hk
    split_ifs <;> simp_all
  · split_ifs <;> simp_all

theorem forPages_lastPage {body : Pmm → Nat → Pmm}
    (hbody : ∀ s i, (body s i).lastPage = s.lastPage) (s : Pmm) (start stop : Nat) :
    (s.forPages body start stop).lastPage = s.lastPage := by
  unfold Pmm.forPages
  induction List.range' start (stop - start) generalizing s with
  | nil => rfl
  | cons i is ih => rw [List.foldl_cons, ih, hbody]

@[simp] theorem reserveRegion_lastPage (s : Pmm) (a l : UInt64) :
    (s.reserveRegion a l).lastPage = s.lastPage :=
  forPages_lastPage (fun s i => by unfold Pmm.reserveBit Pmm.setBit; split_ifs <;> rfl) _ _ _

@[simp] theorem freeRegion_lastPage (s : Pmm) (a l : UInt64) :
    (s.freeRegion a l).lastPage = s.lastPage :=
  forPages_lastPage (fun s i => by unfold Pmm.freeBit Pmm.clearBit; split_ifs <;> rfl) _ _ _

theorem reserveRegion_bitmap (s : Pmm) (a l : UInt64) (k : Nat) :
    (s.reserveRegion a l).bitmap k =
      if (a / 4096).toNat ≤ k ∧ k < ((a + l + 4096 - 1) / 4096).toNat ∧ k < totalPagesMax
      then true else s.bitmap k :=
  forPages_bitmap reserveBit_bitmap _ _ _ _

theorem freeRegion_bitmap (s : Pmm) (a l : UInt64) (k : Nat) :
    (s.freeRegion a l).bitmap k =
      if (a / 4096).toNat ≤ k ∧ k < ((a + l) / 4096).toNat ∧ k < totalPagesMax
      then false else s.bitmap k :=
  forPages_bitmap freeBit_bitmap _ _ _ _

def MmapEntry.Frees (e : MmapEntry) (page : Nat) : Prop :=
  e.type = memoryAvailable ∧ (e.addr / 4096).toNat ≤ page ∧
    page < ((e.addr + e.pages * 4096) / 4096).toNat

instance (e : MmapEntry) (page : Nat) : Decidable (e.Frees page) :=
  inferInstanceAs (Decidable (_ ∧ _ ∧ _))

theorem addEntry_bitmap (s : Pmm) (e : MmapEntry) {k : Nat} (hk : k < totalPagesMax) :
    (s.addEntry e).bitmap k = if e.Frees k then false else s.bitmap k := by
  unfold Pmm.addEntry
  by_cases ht : e.type = memoryAvailable
  · rw [if_pos ht, freeRegion_bitmap]
    by_cases hf : e.Frees k
    · rw [if_pos hf, if_pos ⟨hf.2.1, hf.2.2, hk⟩]
    · rw [if_neg hf, if_neg fun h => hf ⟨ht, h.1, h.2.1⟩]
  · rw [if_neg ht, if_neg fun h : e.Frees k => ht h.1]

theorem addEntry_lastPage (s : Pmm) (e : MmapEntry) : (s.addEntry e).lastPage = s.lastPage := by
  unfold Pmm.addEntry
  split_ifs
  · simp
  · rfl

theorem addEntries_bitmap (es : List MmapEntry) (s : Pmm) {k : Nat} (hk : k < totalPagesMax) :
    (es.foldl Pmm.addEntry s).bitmap k = if ∃ e ∈ es, e.Frees k then false else s.bitmap k := by
  induction es generalizing s with
  | nil => simp
  | cons e es ih =>
    rw [List.foldl_cons, ih, addEntry_bitmap _ _ hk]
    by_cases h1 : ∃ e ∈ es, e.Frees k
    · rw [if_pos h1, if_pos ⟨h1.choose, List.mem_cons_of_mem _ h1.choose_spec.1,
        h1.choose_spec.2⟩]
    · rw [if_neg h1]
      by_cases h2 : e.Frees k
      · rw [if_pos h2, if_pos ⟨e, List.mem_cons_self, h2⟩]
      · rw [if_neg h2, if_neg]
        rintro ⟨d, hd, hf⟩
        rcases List.mem_cons.mp hd with rfl | hd
        · exact h2 hf
        · exact h1 ⟨d, hd, hf⟩

theorem addEntries_lastPage (es : List MmapEntry) (s : Pmm) :
    (es.foldl Pmm.addEntry s).lastPage = s.lastPage := by
  induction es generalizing s with
  | nil => rfl
  | cons e es ih => rw [List.foldl_cons, ih, addEntry_lastPage]

def KernelImage.Covers (img : KernelImage) (page : Nat) : Prop :=
  img.start.toNat / 4096 ≤ page ∧ page * 4096 < img.stop.toNat

instance (img : KernelImage) (page : Nat) : Decidable (img.Covers page) :=
  inferInstanceAs (Decidable (_ ∧ _))

/-- The bits after `init`: set unless an available entry frees the page, and set again for the
first megabyte and the kernel image. -/
theorem init_bitmap (s : Pmm) (img : KernelImage) (es : List MmapEntry) {k : Nat}
    (hk : k < totalPagesMax) :
    (s.init img es).bitmap k = false ↔ (∃ e ∈ es, e.Frees k) ∧ 256 ≤ k ∧ ¬ img.Covers k := by
  have hlow : ((0 : UInt64) / 4096).toNat ≤ k ∧
      k < (((0 : UInt64) + 0x100000 + 4096 - 1) / 4096).toNat ∧ k < totalPagesMax ↔ k < 256 := by
    have h0 : ((0 : UInt64) / 4096).toNat = 0 := rfl
    have h1 : (((0 : UInt64) + 0x100000 + 4096 - 1) / 4096).toNat = 256 := rfl
    rw [h0, h1]
    omega
  have himg : (img.start / 4096).toNat ≤ k ∧
      k < ((img.start + (img.stop - img.start) + 4096 - 1) / 4096).toNat ∧ k < totalPagesMax ↔
      img.Covers k := by
    have hsum : img.start + (img.stop - img.start) = img.stop := by
      rw [UInt64.add_comm, UInt64.sub_add_cancel]
    have hb := img.below_top
    have hend : ((img.stop + 4096 - 1) / 4096).toNat = (img.stop.toNat + 4095) / 4096 := by
      have hcomb : img.stop + 4096 - 1 = img.stop + 4095 := by grind
      rw [hcomb, UInt64.toNat_div, UInt64.toNat_add]
      simp only [UInt64.reduceToNat]
      rw [Nat.mod_eq_of_lt (by omega)]
    rw [hsum, hend, UInt64.toNat_div, KernelImage.Covers]
    simp only [UInt64.reduceToNat]
    omega
  simp only [Pmm.init, reserveRegion_bitmap, hlow, himg, addEntries_bitmap _ _ hk]
  split_ifs <;> simp_all

theorem init_lastPage (s : Pmm) (img : KernelImage) (es : List MmapEntry) :
    (s.init img es).lastPage = 0 := by
  simp [Pmm.init, addEntries_lastPage]

theorem allocPage_cases (s : Pmm) (h : s.lastPage ≤ totalPagesMax) :
    (∃ i, s.bitmap i = false ∧ i < totalPagesMax ∧ s.allocPage = (i * pageSize, s.take i)) ∨
    (s.allocPage = (0, s) ∧ ∀ i < totalPagesMax, s.bitmap i = true) := by
  unfold Pmm.allocPage
  cases h1 : scan s.bitmap s.lastPage (totalPagesMax - s.lastPage) with
  | some i =>
    obtain ⟨-, hlt, hb, -⟩ := scan_some h1
    exact Or.inl ⟨i, hb, by omega, rfl⟩
  | none =>
    cases h2 : scan s.bitmap 0 s.lastPage with
    | some i =>
      obtain ⟨-, hlt, hb, -⟩ := scan_some h2
      exact Or.inl ⟨i, hb, by omega, rfl⟩
    | none =>
      refine Or.inr ⟨rfl, fun i hi => ?_⟩
      by_cases hl : s.lastPage ≤ i
      · exact scan_none h1 i hl (by omega)
      · exact scan_none h2 i (by omega) (by omega)

/-- With a clear bit at or above the cursor, the first such page is handed out. -/
theorem allocPage_ahead {s : Pmm} {k : Nat} (hk : k < totalPagesMax) (hle : s.lastPage ≤ k)
    (hb : s.bitmap k = false) :
    ∃ i, s.lastPage ≤ i ∧ i ≤ k ∧ s.bitmap i = false ∧ s.allocPage = (i * pageSize, s.take i) := by
  unfold Pmm.allocPage
  cases h1 : scan s.bitmap s.lastPage (totalPagesMax - s.lastPage) with
  | some i =>
    obtain ⟨h, -, hi, hall⟩ := scan_some h1
    refine ⟨i, h, ?_, hi, rfl⟩
    by_contra hlt
    rw [hall k hle (by omega)] at hb
    exact Bool.noConfusion hb
  | none =>
    rw [scan_none h1 k hle (by omega)] at hb
    exact Bool.noConfusion hb

@[simp] theorem take_bitmap (s : Pmm) (i k : Nat) :
    (s.take i).bitmap k = if k = i then true else s.bitmap k := by
  simp [Pmm.take, Pmm.setBit, Function.update_apply]

@[simp] theorem take_lastPage (s : Pmm) (i : Nat) : (s.take i).lastPage = i + 1 := rfl

theorem freePage_bitmap (s : Pmm) (a k : Nat) :
    (s.freePage a).bitmap k = if k = a / pageSize then false else s.bitmap k := by
  unfold Pmm.freePage Pmm.clearBit
  dsimp only
  by_cases hk : k = a / pageSize
  · subst hk
    split_ifs <;> simp_all
  · split_ifs <;> simp_all

theorem freePage_lastPage (s : Pmm) (a : Nat) : (s.freePage a).lastPage ≤ s.lastPage := by
  unfold Pmm.freePage Pmm.clearBit
  dsimp only
  split_ifs
  · dsimp only
    omega
  · exact Nat.le_refl _
  · exact Nat.le_refl _

end LosTacOS.Mm
