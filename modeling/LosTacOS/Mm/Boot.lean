import LosTacOS.Heap.Alloc
import LosTacOS.Mm.Pmm

/-! Boot order of `kernel_main`, and which pages the allocator can hand out afterwards. -/
namespace LosTacOS.Mm
open LosTacOS.Heap (heapStart heapSize)

inductive Tag where
  | mmap (entries : List MmapEntry)
  | module (modStart modEnd : UInt32)
  | framebuffer
  | other
deriving DecidableEq

def Tag.entries : Tag → List MmapEntry
  | .mmap es => es
  | _ => []

/-- The page allocator and `reserved_end` of paging. -/
structure Boot where
  pmm : Pmm
  reservedEnd : UInt64

def pageAlign (addr : UInt64) : UInt64 := (addr + 0xFFF) &&& ~~~0xFFF

def Boot.reserveBelow (b : Boot) (addr : UInt64) : Boot :=
  if addr ≤ b.reservedEnd then b
  else ⟨b.pmm.reserveRegion 0 (pageAlign addr), addr⟩

/-- One tag of `parse_info`. A framebuffer tag maps the framebuffer, so that it draws pages from
the allocator before `pmm::init` has run. -/
def Boot.parseTag (framebufferInit : Pmm → Pmm) (b : Boot) : Tag → Boot
  | .module _ modEnd => b.reserveBelow modEnd.toUInt64
  | .framebuffer => { b with pmm := framebufferInit b.pmm }
  | .mmap _ => b
  | .other => b

def Boot.parseInfo (framebufferInit : Pmm → Pmm) (b : Boot) (tags : List Tag) : Boot :=
  tags.foldl (parseTag framebufferInit) b

/-- `paging::init`: the reservations that `pmm::init` wiped out are applied again. -/
def Boot.pagingInit (b : Boot) : Boot :=
  if b.reservedEnd ≠ 0 then
    { b with pmm := b.pmm.reserveRegion 0 (pageAlign b.reservedEnd) }
  else b

/-- `kernel_main` up to `paging::init`, from zeroed static storage. -/
def boot (framebufferInit : Pmm → Pmm) (img : KernelImage) (tags : List Tag) : Boot :=
  let b := Boot.parseInfo framebufferInit ⟨⟨fun _ => false, 0, 0, 0⟩, 0⟩ tags
  let b := { b with pmm := b.pmm.init img (tags.flatMap Tag.entries) }
  b.pagingInit

structure PageRun where
  pmm : Pmm
  returned : List Nat

def PageRun.alloc (r : PageRun) : PageRun :=
  let (p, s) := r.pmm.allocPage
  ⟨s, if p = 0 then r.returned else p :: r.returned⟩

def PageRun.free (r : PageRun) (addr : Nat) : PageRun := { r with pmm := r.pmm.freePage addr }

inductive Reached (s : Pmm) : PageRun → Prop
  | start : Reached s ⟨s, []⟩
  | alloc {r : PageRun} : Reached s r → Reached s r.alloc
  | free {r : PageRun} {addr : Nat} : Reached s r → addr ∈ r.returned → Reached s (r.free addr)

def PageApart (p lo hi : Nat) : Prop := hi ≤ lo ∨ p + pageSize ≤ lo ∨ hi ≤ p

def Harmless (img : KernelImage) (tags : List Tag) (p : Nat) : Prop :=
  PageApart p heapStart (heapStart + heapSize) ∧
  PageApart p img.start.toNat img.stop.toNat ∧
  ∀ lo hi, Tag.module lo hi ∈ tags → PageApart p lo.toNat hi.toNat

/-- Every page of the heap window that the memory map reports as available lies in the kernel
image or below the end of a module. -/
def HeapWithheld (img : KernelImage) (tags : List Tag) : Prop :=
  ∀ page, heapStart / pageSize ≤ page → page < (heapStart + heapSize) / pageSize →
    (∃ e ∈ tags.flatMap Tag.entries, e.Frees page) →
    img.Covers page ∨ ∃ lo hi, Tag.module lo hi ∈ tags ∧ page * pageSize < hi.toNat

theorem and_page_mask {x : Nat} (h : x < 2^64) : x &&& (2^64 - 4096) = x / 4096 * 4096 := by
  have hx : x = 2^12 * (x / 4096) + x % 4096 := by omega
  have hmask : 2^64 - 4096 = 2^12 * (2^52 - 1) + 0 := by norm_num
  apply Nat.eq_of_testBit_eq
  intro i
  rw [Nat.testBit_and, hmask, Nat.testBit_two_pow_mul_add _ (by norm_num),
    show x / 4096 * 4096 = 2^12 * (x / 4096) + 0 by omega,
    Nat.testBit_two_pow_mul_add _ (by norm_num)]
  conv_lhs => rw [hx, Nat.testBit_two_pow_mul_add _ (by omega)]
  by_cases hi : i < 12
  · simp [hi]
  · simp only [hi, if_false, Nat.testBit_two_pow_sub_one]
    by_cases h52 : i - 12 < 52
    · simp [h52]
    · have hlt : x / 4096 < 2^(i - 12) :=
        calc x / 4096 < 2^52 := by omega
          _ ≤ 2^(i - 12) := Nat.pow_le_pow_right (by norm_num) (by omega)
      simp [Nat.testBit_lt_two_pow hlt]

/-- The end of `reserve_region(0, aligned)` for an address that does not wrap. -/
theorem pageAlign_end {a : UInt64} (h : a.toNat < 2^32) :
    (((0 : UInt64) + pageAlign a + 4096 - 1) / 4096).toNat = (a.toNat + 4095) / 4096 := by
  have halign : (pageAlign a).toNat = (a.toNat + 4095) / 4096 * 4096 := by
    have hm : (~~~(0xFFF : UInt64)).toNat = 2^64 - 4096 := by decide
    have hs : (a + 0xFFF).toNat = a.toNat + 4095 := by
      rw [UInt64.toNat_add]
      simp only [UInt64.reduceToNat]
      exact Nat.mod_eq_of_lt (by omega)
    rw [pageAlign, UInt64.toNat_and, hm, hs, and_page_mask (by omega)]
  have hcomb : (0 : UInt64) + pageAlign a + 4096 - 1 = pageAlign a + 4095 := by grind
  rw [hcomb, UInt64.toNat_div, UInt64.toNat_add, halign]
  simp only [UInt64.reduceToNat]
  rw [Nat.mod_eq_of_lt (by omega)]
  omega

theorem reserveBelow_reservedEnd (b : Boot) (a : UInt64) :
    (b.reserveBelow a).reservedEnd.toNat = max b.reservedEnd.toNat a.toNat := by
  unfold Boot.reserveBelow
  split_ifs with hle
  · exact (Nat.max_eq_left (UInt64.le_iff_toNat_le.mp hle)).symm
  · have hlt := UInt64.lt_iff_toNat_lt.mp (UInt64.not_le.mp hle)
    exact (Nat.max_eq_right hlt.le).symm

theorem parseTag_reservedEnd (f : Pmm → Pmm) (b : Boot) (t : Tag) (k : Nat) :
    k < (b.parseTag f t).reservedEnd.toNat ↔
      k < b.reservedEnd.toNat ∨ ∃ lo hi, t = Tag.module lo hi ∧ k < hi.toNat := by
  cases t with
  | module lo hi => simp [Boot.parseTag, reserveBelow_reservedEnd]
  | mmap es => simp [Boot.parseTag]
  | framebuffer => simp [Boot.parseTag]
  | other => simp [Boot.parseTag]

/-- After `parse_info` the largest module end is recorded. -/
theorem parseInfo_reservedEnd (f : Pmm → Pmm) (tags : List Tag) (b : Boot) (k : Nat) :
    k < (b.parseInfo f tags).reservedEnd.toNat ↔
      k < b.reservedEnd.toNat ∨ ∃ lo hi, Tag.module lo hi ∈ tags ∧ k < hi.toNat := by
  induction tags generalizing b with
  | nil => simp [Boot.parseInfo]
  | cons t tags ih =>
    have hfold : b.parseInfo f (t :: tags) = (b.parseTag f t).parseInfo f tags := rfl
    rw [hfold, ih, parseTag_reservedEnd]
    constructor
    · rintro ((h | ⟨lo, hi, rfl, h⟩) | ⟨lo, hi, hm, h⟩)
      · exact Or.inl h
      · exact Or.inr ⟨lo, hi, List.mem_cons_self, h⟩
      · exact Or.inr ⟨lo, hi, List.mem_cons_of_mem _ hm, h⟩
    · rintro (h | ⟨lo, hi, hm, h⟩)
      · exact Or.inl (Or.inl h)
      · rcases List.mem_cons.mp hm with he | hm
        · exact Or.inl (Or.inr ⟨lo, hi, he.symm, h⟩)
        · exact Or.inr ⟨lo, hi, hm, h⟩

/-- The pages that are free once `kernel_main` has set the allocator up. -/
theorem boot_bitmap (f : Pmm → Pmm) (img : KernelImage) (tags : List Tag) {k : Nat}
    (hk : k < totalPagesMax) :
    (boot f img tags).pmm.bitmap k = false ↔
      (∃ e ∈ tags.flatMap Tag.entries, e.Frees k) ∧ 256 ≤ k ∧ ¬ img.Covers k ∧
      ∀ lo hi, Tag.module lo hi ∈ tags → hi.toNat ≤ k * pageSize := by
  have hend := parseInfo_reservedEnd f tags ⟨⟨fun _ => false, 0, 0, 0⟩, 0⟩
  generalize hb : Boot.parseInfo f ⟨⟨fun _ => false, 0, 0, 0⟩, 0⟩ tags = b at hend
  simp only [UInt64.toNat_zero, Nat.not_lt_zero, false_or] at hend
  have h32 : b.reservedEnd.toNat < 2^32 := by
    by_contra hge
    obtain ⟨lo, hi, -, hlt⟩ := (hend (2^32 - 1)).mp (by omega)
    have := hi.toNat_lt
    omega
  have hboot : boot f img tags =
      (⟨b.pmm.init img (tags.flatMap Tag.entries), b.reservedEnd⟩ : Boot).pagingInit := by
    simp only [boot, hb]
  have hinit := init_bitmap b.pmm img (tags.flatMap Tag.entries) hk
  have hmods : (∀ lo hi, Tag.module lo hi ∈ tags → hi.toNat ≤ k * 4096) ↔
      ¬ k * 4096 < b.reservedEnd.toNat := by
    rw [hend]
    push Not
    exact Iff.rfl
  have hpaging : ∀ s : Pmm, ((⟨s, b.reservedEnd⟩ : Boot).pagingInit.pmm.bitmap k = false ↔
      s.bitmap k = false ∧ ¬ k * 4096 < b.reservedEnd.toNat) := by
    intro s
    have h0 : ((0 : UInt64) / 4096).toNat ≤ k := by
      rw [show ((0 : UInt64) / 4096).toNat = 0 from rfl]
      omega
    by_cases hz : b.reservedEnd = 0
    · simp [Boot.pagingInit, hz]
    · simp only [Boot.pagingInit, ne_eq, hz, not_false_eq_true, if_true, reserveRegion_bitmap,
        pageAlign_end h32, h0, true_and, hk, and_true]
      split_ifs with hlt
      · simp only [false_iff, not_and, not_not]
        intro _
        omega
      · simp only [iff_self_and, not_lt]
        intro _
        omega
  rw [hmods, hboot, hpaging, hinit, and_assoc, and_assoc]

theorem addEntries_bitmap_past (es : List MmapEntry) (s : Pmm) {k : Nat} (hk : totalPagesMax ≤ k) :
    (es.foldl Pmm.addEntry s).bitmap k = s.bitmap k := by
  induction es generalizing s with
  | nil => rfl
  | cons e es ih =>
    rw [List.foldl_cons, ih]
    unfold Pmm.addEntry
    split_ifs
    · rw [freeRegion_bitmap, if_neg (by omega)]
    · rfl

theorem boot_bitmap_past (f : Pmm → Pmm) (img : KernelImage) (tags : List Tag) {k : Nat}
    (hk : totalPagesMax ≤ k) : (boot f img tags).pmm.bitmap k = true := by
  have hinit : ∀ (s : Pmm) (es : List MmapEntry), (s.init img es).bitmap k = true := by
    intro s es
    rw [Pmm.init, reserveRegion_bitmap, if_neg (by omega), reserveRegion_bitmap,
      if_neg (by omega), addEntries_bitmap_past _ _ hk]
  simp only [boot, Boot.pagingInit]
  split_ifs
  · rw [reserveRegion_bitmap, if_neg (by omega), hinit]
  · rw [hinit]

theorem boot_lastPage (f : Pmm → Pmm) (img : KernelImage) (tags : List Tag) :
    (boot f img tags).pmm.lastPage = 0 := by
  simp only [boot, Boot.pagingInit]
  split_ifs
  · simp [init_lastPage]
  · simp [init_lastPage]

structure PageRun.Kept (s : Pmm) (r : PageRun) : Prop where
  cursor : r.pmm.lastPage ≤ totalPagesMax
  free : ∀ i < totalPagesMax, r.pmm.bitmap i = false → s.bitmap i = false
  returned : ∀ p ∈ r.returned, ∃ i < totalPagesMax, p = i * pageSize ∧ s.bitmap i = false

theorem PageRun.Kept.alloc {s : Pmm} {r : PageRun} (h : r.Kept s) : r.alloc.Kept s := by
  rcases allocPage_cases r.pmm h.cursor with ⟨i, hb, hi, he⟩ | ⟨he, -⟩
  · simp only [PageRun.alloc, he]
    refine ⟨hi, ?_, ?_⟩
    · intro k hk hbk
      rw [take_bitmap] at hbk
      split_ifs at hbk
      exact h.free k hk hbk
    · intro p hp
      split_ifs at hp
      · exact h.returned p hp
      · rcases List.mem_cons.mp hp with rfl | hp
        · exact ⟨i, hi, rfl, h.free i hi hb⟩
        · exact h.returned p hp
  · simp only [PageRun.alloc, he, if_true]
    exact h

theorem PageRun.Kept.free_page {s : Pmm} {r : PageRun} (h : r.Kept s) {addr : Nat}
    (ha : addr ∈ r.returned) : (r.free addr).Kept s := by
  obtain ⟨i, hi, rfl, hbi⟩ := h.returned addr ha
  refine ⟨(freePage_lastPage _ _).trans h.cursor, ?_, h.returned⟩
  intro k hk hbk
  simp only [PageRun.free, freePage_bitmap] at hbk
  split_ifs at hbk with hki
  · rw [hki, Nat.mul_div_cancel i (by norm_num)]
    exact hbi
  · exact h.free k hk hbk

theorem Reached.kept {s : Pmm} (hs : s.lastPage = 0) {r : PageRun} (h : Reached s r) :
    r.Kept s := by
  induction h with
  | start => exact ⟨by simp [hs], fun _ _ => id, by simp⟩
  | alloc _ ih => exact ih.alloc
  | free _ ha ih => exact ih.free_page ha

theorem PageRun.returned_alloc (r : PageRun) {i : Nat} (hi : 0 < i)
    (he : r.pmm.allocPage = (i * pageSize, r.pmm.take i)) : i * pageSize ∈ r.alloc.returned := by
  have hne : i * pageSize ≠ 0 := by simp only [pageSize]; omega
  simp only [PageRun.alloc, he, if_neg hne]
  exact List.mem_cons_self

/-- A free page ahead of the cursor is handed out after finitely many allocations. -/
theorem Reached.hands_out {s : Pmm} {k : Nat} (hk : k < totalPagesMax) (hpos : 0 < k)
    (n : Nat) : ∀ {r : PageRun}, Reached s r → k - r.pmm.lastPage ≤ n → r.pmm.lastPage ≤ k →
      r.pmm.bitmap k = false → r.pmm.bitmap 0 = true →
      ∃ r', Reached s r' ∧ k * pageSize ∈ r'.returned := by
  induction n with
  | zero =>
    intro r hr hn hle hb _
    obtain ⟨i, h1, h2, -, he⟩ := allocPage_ahead hk hle hb
    obtain rfl : i = k := by omega
    exact ⟨r.alloc, hr.alloc, r.returned_alloc hpos he⟩
  | succ n ih =>
    intro r hr hn hle hb h0
    obtain ⟨i, h1, h2, hi, he⟩ := allocPage_ahead hk hle hb
    by_cases hik : i = k
    · subst hik
      exact ⟨r.alloc, hr.alloc, r.returned_alloc hpos he⟩
    · refine ih hr.alloc ?_ ?_ ?_ ?_
      · simp only [PageRun.alloc, he, take_lastPage]
        omega
      · simp only [PageRun.alloc, he, take_lastPage]
        omega
      · simp only [PageRun.alloc, he, take_bitmap, if_neg (Ne.symm hik), hb]
      · simp only [PageRun.alloc, he, take_bitmap, h0]
        split_ifs <;> rfl

/-- Which pages are ever handed out after boot: the free ones. -/
theorem returned_iff (f : Pmm → Pmm) (img : KernelImage) (tags : List Tag) (p : Nat) :
    (∃ r, Reached (boot f img tags).pmm r ∧ p ∈ r.returned) ↔
      ∃ k < totalPagesMax, p = k * pageSize ∧ (boot f img tags).pmm.bitmap k = false := by
  constructor
  · rintro ⟨r, hr, hp⟩
    exact (hr.kept (boot_lastPage f img tags)).returned p hp
  · rintro ⟨k, hk, rfl, hb⟩
    have hlow := ((boot_bitmap f img tags hk).mp hb).2.1
    have h0 : (boot f img tags).pmm.bitmap 0 = true := by
      by_contra h
      have := ((boot_bitmap f img tags (by norm_num)).mp (Bool.eq_false_of_not_eq_true h)).2.1
      omega
    refine Reached.hands_out hk (by omega) _ Reached.start le_rfl ?_ hb h0
    rw [boot_lastPage]
    omega

theorem window_pages : heapStart / pageSize = 4096 ∧ (heapStart + heapSize) / pageSize = 8192 := by
  decide

theorem heapWithheld_of_harmless {f : Pmm → Pmm} {img : KernelImage} {tags : List Tag}
    (h : ∀ r, Reached (boot f img tags).pmm r → ∀ p ∈ r.returned, Harmless img tags p) :
    HeapWithheld img tags := by
  intro k h1 h2 he
  by_contra hno
  push Not at hno
  rw [window_pages.1] at h1
  rw [window_pages.2] at h2
  have hk : k < totalPagesMax := by simp only [totalPagesMax]; omega
  have hb := (boot_bitmap f img tags hk).mpr ⟨he, by omega, hno.1, hno.2⟩
  obtain ⟨r, hr, hp⟩ := (returned_iff f img tags _).mpr ⟨k, hk, rfl, hb⟩
  have := (h r hr _ hp).1
  simp only [PageApart, heapStart, heapSize, pageSize] at this
  omega

theorem HeapWithheld.harmless {f : Pmm → Pmm} {img : KernelImage} {tags : List Tag}
    (h : HeapWithheld img tags) {r : PageRun} (hr : Reached (boot f img tags).pmm r) {p : Nat}
    (hp : p ∈ r.returned) : Harmless img tags p := by
  obtain ⟨k, hk, rfl, hb⟩ := (returned_iff f img tags p).mp ⟨r, hr, hp⟩
  obtain ⟨he, hlow, himg, hmod⟩ := (boot_bitmap f img tags hk).mp hb
  refine ⟨?_, ?_, ?_⟩
  · -- a page of the window would be withheld
    by_contra hin
    have hin' : 4096 ≤ k ∧ k < 8192 := by
      simp only [PageApart, heapStart, heapSize, pageSize] at hin
      omega
    rcases h k (by rw [window_pages.1]; exact hin'.1) (by rw [window_pages.2]; exact hin'.2) he
      with hc | ⟨lo, hi, hm, hlt⟩
    · exact himg hc
    · have := hmod lo hi hm
      omega
  · simp only [KernelImage.Covers] at himg
    simp only [PageApart, pageSize]
    omega
  · intro lo hi hm
    exact Or.inr (Or.inr (hmod lo hi hm))

/-- No page that is ever handed out overlaps the heap, the kernel or a module, exactly when the
boot reservations happen to cover the heap window: nothing reserves it. -/
theorem pages_harmless_iff (f : Pmm → Pmm) (img : KernelImage) (tags : List Tag) :
    (∀ r, Reached (boot f img tags).pmm r → ∀ p ∈ r.returned, Harmless img tags p) ↔
      HeapWithheld img tags :=
  ⟨heapWithheld_of_harmless, fun h _ hr _ hp => h.harmless hr hp⟩

/-- A PC with 128 MiB, the kernel at 1 MiB and one module below 8 MiB: the heap window is handed
out. -/
theorem heap_window_handed_out :
    ¬ ∀ (f : Pmm → Pmm) (img : KernelImage) (tags : List Tag) (r : PageRun),
      Reached (boot f img tags).pmm r → ∀ p ∈ r.returned, Harmless img tags p := by
  intro H
  have h := heapWithheld_of_harmless (H id ⟨0x100000, 0x400000, by decide, by decide⟩
    [.mmap [⟨0, 0x9fc00, 1⟩, ⟨0x9fc00, 0x400, 2⟩, ⟨0x100000, 0x7ee0000, 1⟩],
      .module 0x400000 0x7ff000])
  have hfree := h 4096 (by decide) (by decide) (by decide)
  rcases hfree with hc | ⟨lo, hi, hm, hlt⟩
  · revert hc
    decide
  · simp only [List.mem_cons, reduceCtorEq, List.not_mem_nil, or_false, false_or,
      Tag.module.injEq] at hm
    obtain ⟨rfl, rfl⟩ := hm
    revert hlt
    decide

end LosTacOS.Mm
