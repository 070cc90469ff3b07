import LosTacOS.Mm.Pmm
import Mathlib.Tactic

/-! The memory map of the boot loader against the bits that `init` leaves clear. An entry is read
as the bytes it names, a page as its 4096 bytes. -/
namespace LosTacOS.Mm

def MmapEntry.Holds (e : MmapEntry) (byte : Nat) : Prop :=
  e.addr.toNat ≤ byte ∧ byte < e.addr.toNat + e.len.toNat

def MmapEntry.Available (e : MmapEntry) : Prop := e.type = memoryAvailable

def KernelImage.Holds (img : KernelImage) (byte : Nat) : Prop :=
  img.start.toNat ≤ byte ∧ byte < img.stop.toNat

/-- A byte that an allocation may hand out: in some available entry, in no entry of another type,
past the first megabyte and off the kernel image. -/
structure Usable (img : KernelImage) (es : List MmapEntry) (byte : Nat) : Prop where
  inside : ∃ e ∈ es, e.Available ∧ e.Holds byte
  apart : ∀ e ∈ es, ¬ e.Available → ¬ e.Holds byte
  high : 0x100000 ≤ byte
  off : ¬ img.Holds byte

def Pmm.FreeUsable (s : Pmm) (img : KernelImage) (es : List MmapEntry) : Prop :=
  ∀ page < totalPagesMax, s.bitmap page = false →
    ∀ byte, byte / pageSize = page → Usable img es byte

/-- The page is one of those counted from the page of the entry's first byte, as many as the
entry's length has. -/
def MmapEntry.Spans (e : MmapEntry) (page : Nat) : Prop :=
  e.addr.toNat / pageSize ≤ page ∧ page < e.addr.toNat / pageSize + e.len.toNat / pageSize

/-- `init` reserves the page again, or has no bit for it. -/
def KernelImage.Keeps (img : KernelImage) (page : Nat) : Prop :=
  page < 256 ∨ img.Covers page ∨ totalPagesMax ≤ page

/-- What a memory map must be for `init` to read it rightly: where the first page of an available
entry begins below the entry, the gap is filled by other available entries, and no entry of another
type reaches into the pages an available one spans. Pages that `init` keeps in use do not matter. -/
structure FitsPages (img : KernelImage) (es : List MmapEntry) : Prop where
  filled : ∀ e ∈ es, e.Available → e.Spans (e.addr.toNat / pageSize) →
    ¬ img.Keeps (e.addr.toNat / pageSize) →
    ∀ byte < e.addr.toNat, byte / pageSize = e.addr.toNat / pageSize →
      ∃ d ∈ es, d.Available ∧ d.Holds byte
  disjoint : ∀ e ∈ es, e.Available → ∀ d ∈ es, ¬ d.Available →
    ∀ byte, d.Holds byte → e.Spans (byte / pageSize) → img.Keeps (byte / pageSize)

section pages

variable {e : MmapEntry} {img : KernelImage} {es : List MmapEntry} {page byte : Nat}

theorem pages_toNat (e : MmapEntry) :
    e.pages.toNat = min (e.len.toNat / pageSize) totalPagesMax := by
  have hdiv : (e.len / 4096).toNat = e.len.toNat / pageSize := by
    rw [UInt64.toNat_div]
    rfl
  have hmax : (33554432 : UInt64).toNat = totalPagesMax := rfl
  unfold MmapEntry.pages
  by_cases h : e.len / 4096 > 33554432
  · have hlt : totalPagesMax < e.len.toNat / pageSize := by
      rw [← hdiv, ← hmax]
      exact UInt64.lt_iff_toNat_lt.mp h
    rw [if_pos h, hmax, min_eq_right hlt.le]
  · have hle : e.len.toNat / pageSize ≤ totalPagesMax := by
      rw [← hdiv, ← hmax]
      exact Nat.le_of_not_lt fun hn => h (UInt64.lt_iff_toNat_lt.mpr hn)
    rw [if_neg h, hdiv, min_eq_left hle]

/-- The end of the freed range: an address low enough for the bitmap leaves room for the sum, and a
sum that wraps ends below its start. -/
theorem frees_iff (hp : page < totalPagesMax) : e.Frees page ↔ e.Available ∧ e.Spans page := by
  have hpages := pages_toNat e
  have hmul : (e.pages * 4096).toNat = e.pages.toNat * pageSize := by
    rw [UInt64.toNat_mul]
    simp only [UInt64.reduceToNat, pageSize, totalPagesMax] at hpages ⊢
    omega
  have hstart : (e.addr / 4096).toNat = e.addr.toNat / pageSize := by
    rw [UInt64.toNat_div]
    rfl
  have hstop : ((e.addr + e.pages * 4096) / 4096).toNat =
      (e.addr.toNat + e.pages.toNat * pageSize) % 2^64 / pageSize := by
    rw [UInt64.toNat_div, UInt64.toNat_add, hmul]
    rfl
  have haddr := e.addr.toNat_lt
  rw [MmapEntry.Frees, MmapEntry.Available, MmapEntry.Spans, hstart, hstop]
  refine and_congr_right fun _ => and_congr_right fun hle => ?_
  simp only [pageSize, totalPagesMax] at *
  omega

theorem init_free_iff (s : Pmm) (img : KernelImage) (es : List MmapEntry)
    (hp : page < totalPagesMax) :
    (s.init img es).bitmap page = false ↔
      (∃ e ∈ es, e.Available ∧ e.Spans page) ∧ ¬ img.Keeps page := by
  rw [init_bitmap s img es hp]
  constructor
  · rintro ⟨⟨e, he, hf⟩, hlow, himg⟩
    refine ⟨⟨e, he, (frees_iff hp).mp hf⟩, ?_⟩
    rintro (h | h | h)
    · omega
    · exact himg h
    · omega
  · rintro ⟨⟨e, he, hf⟩, hk⟩
    exact ⟨⟨e, he, (frees_iff hp).mpr hf⟩, Nat.le_of_not_lt fun h => hk (Or.inl h),
      fun h => hk (Or.inr (Or.inl h))⟩

theorem not_keeps_lt (h : ¬ img.Keeps page) : page < totalPagesMax :=
  Nat.lt_of_not_le fun hle => h (Or.inr (Or.inr hle))

/-- A byte of a spanned page is in the entry, or below it in its first page. -/
theorem MmapEntry.Spans.holds (h : e.Spans (byte / pageSize)) (hle : e.addr.toNat ≤ byte) :
    e.Holds byte := by
  simp only [MmapEntry.Spans, MmapEntry.Holds, pageSize] at *
  omega

theorem MmapEntry.Spans.first (h : e.Spans (byte / pageSize)) (hlt : byte < e.addr.toNat) :
    byte / pageSize = e.addr.toNat / pageSize := by
  simp only [MmapEntry.Spans, pageSize] at *
  omega

theorem KernelImage.Holds.covers (h : img.Holds byte) : img.Covers (byte / pageSize) := by
  simp only [KernelImage.Holds, KernelImage.Covers, pageSize] at *
  omega

/-- On a map that fits, a spanned page that is not kept is usable. -/
theorem FitsPages.usable (h : FitsPages img es) (he : e ∈ es) (ha : e.Available)
    (hs : e.Spans (byte / pageSize)) (hk : ¬ img.Keeps (byte / pageSize)) : Usable img es byte where
  inside := by
    by_cases hle : e.addr.toNat ≤ byte
    · exact ⟨e, he, ha, hs.holds hle⟩
    · have hlt : byte < e.addr.toNat := Nat.lt_of_not_le hle
      have hfirst := hs.first hlt
      rw [hfirst] at hs hk
      exact h.filled e he ha hs hk byte hlt hfirst
  apart := fun d hd hn hh => hk (h.disjoint e he ha d hd hn byte hh hs)
  high := by
    by_contra hlow
    apply hk
    left
    simp only [pageSize]
    omega
  off := fun hh => hk (Or.inr (Or.inl hh.covers))

end pages

/-- The pages left free are usable exactly when the map fits. -/
theorem free_usable_iff (s : Pmm) (img : KernelImage) (es : List MmapEntry) :
    (s.init img es).FreeUsable img es ↔ FitsPages img es := by
  constructor
  · intro h
    refine ⟨fun e he ha hs hk byte _ hpage => ?_, fun e he ha d hd hn byte hh hs => ?_⟩
    · have hlt := not_keeps_lt hk
      exact (h _ hlt ((init_free_iff s img es hlt).mpr ⟨⟨e, he, ha, hs⟩, hk⟩) byte hpage).inside
    · by_contra hk
      have hlt := not_keeps_lt hk
      have husable := h _ hlt ((init_free_iff s img es hlt).mpr ⟨⟨e, he, ha, hs⟩, hk⟩) byte rfl
      exact husable.apart d hd hn hh
  · intro h page hp hb byte hpage
    obtain ⟨⟨e, he, ha, hs⟩, hk⟩ := (init_free_iff s img es hp).mp hb
    rw [← hpage] at hs hk
    exact h.usable he ha hs hk

/-- Two pages from the middle of a page on: the page of their first byte is handed out whole. -/
theorem unaligned_entry_freed :
    ¬ (Pmm.init ⟨fun _ => false, 0, 0, 0⟩ ⟨0x100000, 0x400000, by decide, by decide⟩
      [⟨0x500800, 0x2000, 1⟩]).FreeUsable ⟨0x100000, 0x400000, by decide, by decide⟩
      [⟨0x500800, 0x2000, 1⟩] := by
  intro h
  have hfree := (init_bitmap ⟨fun _ => false, 0, 0, 0⟩
    ⟨0x100000, 0x400000, by decide, by decide⟩ [⟨0x500800, 0x2000, 1⟩]
    (show 0x500 < totalPagesMax by decide)).mpr (by decide)
  obtain ⟨e, he, _, hle, _⟩ := (h 0x500 (by decide) hfree 0x500000 (by decide)).inside
  rw [List.mem_singleton] at he
  subst he
  revert hle
  decide

end LosTacOS.Mm
