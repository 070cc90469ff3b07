import LosTacOS.Mm.Segments
import LosTacOS.Mm.Stack

/-! Which bytes of a file `elf::load` reads. The loader is not told how long the file is. -/
namespace LosTacOS.Mm
open ByteMemory

structure Span where
  start : Nat
  len : Nat

/-- How many bytes `memcmp` looks at before it knows. -/
def magicRead (data : Mem) : Nat :=
  if data 0 ≠ 0x7f then 1
  else if data 1 ≠ 0x45 then 2
  else if data 2 ≠ 0x4c then 3
  else 4

def phdrOffset (data : Mem) (i : Nat) : Nat := loadLE data 32 8 + 56 * i

/-- What the loop over the extent of the program reads of header `i`. -/
def extentReads (data : Mem) (i : Nat) : List Span :=
  ⟨phdrOffset data i, 4⟩ ::
    if (phdr data i).pType = ptLoad then
      [⟨phdrOffset data i + 16, 8⟩, ⟨phdrOffset data i + 40, 8⟩]
    else []

def Elf64Phdr.pageRead (ph : Elf64Phdr) (addr : Nat) : List Span :=
  let fileEnd := (ph.pVaddr + ph.pFilesz) % 2^64
  let copyStart := if addr < ph.pVaddr then ph.pVaddr else addr
  let copyEnd := if fileEnd < addr + 0x1000 then fileEnd else addr + 0x1000
  if copyStart < copyEnd then
    [⟨(ph.pOffset + (copyStart - ph.pVaddr)) % 2^64, copyEnd - copyStart⟩]
  else []

def Machine.pageReads (pml4 : Nat) (data : Mem) (ph : Elf64Phdr) : Nat → Nat → Machine → List Span
  | 0, _, _ => []
  | n + 1, addr, m =>
    let (f, m) := m.allocPage
    if f = 0 then []
    else
      ph.pageRead addr ++ pageReads pml4 data ph n (addr + 0x1000)
        ((m.mapPage pml4 addr f 7).2.copyIn f (ph.pageWords data addr))

def Machine.segmentReads (pml4 : Nat) (data : Mem) : List Nat → Machine → List Span
  | [], _ => [⟨24, 8⟩]
  | i :: is, m =>
    let b := phdrOffset data i
    let ph := phdr data i
    ⟨b, 4⟩ ::
      if ph.pType = ptLoad then
        let r := m.mapFresh pml4 (ph.pageWords data) ph.pageCount ph.segStart
        [⟨b + 16, 8⟩, ⟨b + 32, 8⟩, ⟨b + 8, 8⟩, ⟨b + 40, 8⟩] ++
          m.pageReads pml4 data ph ph.pageCount ph.segStart ++
          (if r.1 < ph.pageCount then [] else segmentReads pml4 data is r.2)
      else segmentReads pml4 data is m

def Machine.loadReads (m : Machine) (pml4 : Nat) (data : Mem) : List Span :=
  ⟨0, magicRead data⟩ ::
    if isElf data then
      ⟨32, 8⟩ :: ⟨56, 2⟩ :: ((List.range (ePhnum data)).flatMap (extentReads data) ++
        m.segmentReads pml4 data (List.range (ePhnum data)))
    else []

/-- Headers and segments of the file lie in its first `size` bytes, and no segment wraps. -/
structure InFile (data : Mem) (size : Nat) : Prop where
  header : 64 ≤ size
  table : ∀ i < ePhnum data, phdrOffset data i + 56 ≤ size
  segs : ∀ ph ∈ segments data, ph.pType = ptLoad →
    ph.pOffset + ph.pFilesz ≤ size ∧ ph.pVaddr + ph.pMemsz < 2^64

def Within (size : Nat) (spans : List Span) : Prop :=
  ∀ s ∈ spans, ∀ j < s.len, s.start + j < size

/-- Whatever memory there is, `load` reads only bytes of the file, and refuses a file that reaches
past its end without mapping anything. -/
def LoadsSafely (data : Mem) (size : Nat) : Prop :=
  ∀ (m : Machine) (r : Nat), Within size (m.loadReads r data) ∧
    (¬ InFile data size → (m.load r (some data)).1 = 0 ∧
      ∀ va, leafEntry (m.load r (some data)).2.ram r va = leafEntry m.ram r va)

/-- A file out of which nothing is made: its entry point is 0 and its segments have no pages, and
the parts of the headers that are read lie in it. -/
structure Inert (data : Mem) (size : Nat) : Prop where
  header : 58 ≤ size
  table : ∀ i < ePhnum data, phdrOffset data i + 4 ≤ size ∧
    ((phdr data i).pType = ptLoad → phdrOffset data i + 48 ≤ size)
  entry : eEntry data = 0
  pages : ∀ ph ∈ segments data, ph.pType = ptLoad → ph.pageCount = 0

section reads

variable {data : Mem} {size : Nat} {ph : Elf64Phdr}

theorem phdr_lt (data : Mem) (i : Nat) :
    (phdr data i).pVaddr < 2^64 ∧ (phdr data i).pFilesz < 2^64 ∧ (phdr data i).pOffset < 2^64 :=
  ⟨loadLE_lt _ _ 8, loadLE_lt _ _ 8, loadLE_lt _ _ 8⟩

theorem Within.of_le {s : Span} {ss : List Span} (h : s.start + s.len ≤ size) (hs : Within size ss) :
    Within size (s :: ss) := by
  intro t ht j hj
  rcases List.mem_cons.mp ht with rfl | ht
  · omega
  · exact hs t ht j hj

theorem Within.append {ss ts : List Span} (hs : Within size ss) (ht : Within size ts) :
    Within size (ss ++ ts) :=
  fun s hm => (List.mem_append.mp hm).elim (hs s) (ht s)

theorem Within.nil : Within size [] := fun s hs => by cases hs

theorem Within.le {s : Span} {ss : List Span} (h : Within size ss) (hs : s ∈ ss) (hlen : 0 < s.len) :
    s.start + s.len ≤ size := by
  have hlast := h s hs (s.len - 1) (by omega)
  omega

theorem pageRead_within (hv : ph.pVaddr < 2^64) (hz : ph.pFilesz < 2^64) (hsize : size < 2^64)
    (hin : ph.pOffset + ph.pFilesz ≤ size) (addr : Nat) : Within size (ph.pageRead addr) := by
  unfold Elf64Phdr.pageRead
  dsimp only
  generalize hcs : (if addr < ph.pVaddr then ph.pVaddr else addr) = cs
  generalize hfe : (ph.pVaddr + ph.pFilesz) % 2^64 = fe
  generalize hce : (if fe < addr + 0x1000 then fe else addr + 0x1000) = ce
  have hcs' : cs = max ph.pVaddr addr := by
    rw [← hcs]
    split_ifs <;> omega
  have hce' : ce = min fe (addr + 0x1000) := by
    rw [← hce]
    split_ifs <;> omega
  by_cases hcopy : cs < ce
  · -- the end of the file range lies above its start, so the sum has not wrapped
    have hsum : ph.pVaddr + ph.pFilesz = fe := by omega
    have hoff : (ph.pOffset + (cs - ph.pVaddr)) % 2^64 = ph.pOffset + (cs - ph.pVaddr) :=
      Nat.mod_eq_of_lt (by omega)
    rw [if_pos hcopy, hoff]
    exact Within.of_le (by simp only; omega) Within.nil
  · rw [if_neg hcopy]
    exact Within.nil

theorem pageReads_within (h : ∀ addr, Within size (ph.pageRead addr)) (r n : Nat) :
    ∀ (addr : Nat) (m : Machine), Within size (m.pageReads r data ph n addr) := by
  induction n with
  | zero => exact fun _ _ => Within.nil
  | succ n ih =>
    intro addr m
    cases ha : m.allocPage with
    | mk f m₁ =>
      simp only [Machine.pageReads, ha]
      by_cases h0 : f = 0
      · rw [if_pos h0]
        exact Within.nil
      · rw [if_neg h0]
        exact (h addr).append (ih _ _)

/-- The loop over the segments, when the headers lie in the file and the slices of every segment
that has pages do. -/
theorem segmentReads_within (r : Nat) (hentry : 32 ≤ size) {is : List Nat}
    (htable : ∀ i ∈ is, phdrOffset data i + 4 ≤ size ∧
      ((phdr data i).pType = ptLoad → phdrOffset data i + 48 ≤ size))
    (hpages : ∀ i ∈ is, (phdr data i).pType = ptLoad → (phdr data i).pageCount = 0 ∨
      ∀ addr, Within size ((phdr data i).pageRead addr)) :
    ∀ m : Machine, Within size (m.segmentReads r data is) := by
  induction is with
  | nil => exact fun m => Within.of_le hentry Within.nil
  | cons i is ih =>
    intro m
    have hrest := ih (fun j hj => htable j (List.mem_cons_of_mem _ hj))
      fun j hj => hpages j (List.mem_cons_of_mem _ hj)
    obtain ⟨htype, hfields⟩ := htable i List.mem_cons_self
    rw [Machine.segmentReads]
    refine Within.of_le htype ?_
    by_cases hload : (phdr data i).pType = ptLoad
    · have hb := hfields hload
      rw [if_pos hload]
      refine Within.append (Within.append ?_ ?_) ?_
      · refine Within.of_le ?_ (Within.of_le ?_ (Within.of_le ?_ (Within.of_le ?_ Within.nil))) <;>
          simp only <;> omega
      · cases hpages i List.mem_cons_self hload with
        | inl h0 =>
          rw [h0]
          exact Within.nil
        | inr hread => exact pageReads_within hread r _ _ _
      · split
        · exact Within.nil
        · exact hrest _
    · rw [if_neg hload]
      exact hrest m

theorem extentReads_within {is : List Nat}
    (htable : ∀ i ∈ is, phdrOffset data i + 4 ≤ size ∧
      ((phdr data i).pType = ptLoad → phdrOffset data i + 48 ≤ size)) :
    Within size (is.flatMap (extentReads data)) := by
  intro s hs
  obtain ⟨i, hi, hs⟩ := List.mem_flatMap.mp hs
  obtain ⟨htype, hfields⟩ := htable i hi
  have hin : Within size (extentReads data i) := by
    refine Within.of_le htype ?_
    split
    · have hb := hfields (by assumption)
      refine Within.of_le ?_ (Within.of_le ?_ Within.nil) <;> simp only <;> omega
    · exact Within.nil
  exact hin s hs

theorem magicRead_pos (data : Mem) : 0 < magicRead data ∧ magicRead data ≤ 4 := by
  unfold magicRead
  split_ifs <;> omega

theorem loadReads_within (m : Machine) (r : Nat) (hmagic : magicRead data ≤ size)
    (helf : isElf data = true → 58 ≤ size ∧
      (∀ i < ePhnum data, phdrOffset data i + 4 ≤ size ∧
        ((phdr data i).pType = ptLoad → phdrOffset data i + 48 ≤ size)) ∧
      ∀ i < ePhnum data, (phdr data i).pType = ptLoad → (phdr data i).pageCount = 0 ∨
        ∀ addr, Within size ((phdr data i).pageRead addr)) :
    Within size (m.loadReads r data) := by
  rw [Machine.loadReads]
  refine Within.of_le (by simpa using hmagic) ?_
  by_cases he : isElf data = true
  · obtain ⟨hheader, htable, hpages⟩ := helf he
    rw [if_pos he]
    refine Within.of_le (by simp only; omega) (Within.of_le hheader (Within.append ?_ ?_))
    · exact extentReads_within fun i hi => htable i (List.mem_range.mp hi)
    · exact segmentReads_within r (by omega) (fun i hi => htable i (List.mem_range.mp hi))
        (fun i hi => hpages i (List.mem_range.mp hi)) m
  · rw [if_neg he]
    exact Within.nil

end reads

section mapped

variable {m m' : Machine} {r b : Nat} {data : Mem}

/-- Whatever becomes of it, `map_page` takes no page away. -/
theorem Tidy.mapPage_keeps {f flags : Nat} (h : Tidy r m) (hpr : present flags = true) :
    Tidy r (m.mapPage r b f flags).2 ∧
      (∀ va, leafEntry m.ram r va ≠ none →
        leafEntry (m.mapPage r b f flags).2.ram r va ≠ none) ∧
      ∀ {x}, Idle r m x → Idle r (m.mapPage r b f flags).2 x := by
  cases he : m.mapPage r b f flags with
  | mk ok m₁ =>
    cases ok with
    | true =>
      obtain ⟨htidy, hleaf, hother, hidle⟩ := h.maps hpr he
      refine ⟨htidy, fun va hva => ?_, fun hx => (hidle hx).2⟩
      by_cases hs : SamePage b va
      · rw [hs.leafEntry, hleaf]
        exact Option.some_ne_none _
      · rw [hother va hs]
        exact hva
    | false =>
      cases h.mapPage b f flags with
      | inr hok =>
        obtain ⟨m₂, m₃, he', -⟩ := hok
        rw [he] at he'
        cases he'
      | inl hfail =>
        obtain ⟨W, m₂, he', hopen, hW⟩ := hfail
        rw [he] at he'
        cases he'
        refine ⟨hopen.tidy, fun va hva => ?_, fun hx => (hopen.idle hx).2⟩
        rw [hopen.leafEntry hW]
        exact hva

theorem Tidy.freshPage_keeps {f : Nat} (h : Tidy r m) (ha : m.allocPage = (f, m')) (h0 : f ≠ 0)
    (c : Option (Nat → Nat)) :
    Tidy r ((m'.mapPage r b f 7).2.copyIn f c) ∧ ∀ va, leafEntry m.ram r va ≠ none →
      leafEntry ((m'.mapPage r b f 7).2.copyIn f c).ram r va ≠ none := by
  have hd := h.drawn ha h0
  obtain ⟨htidy, hkeep, hidle⟩ := @Tidy.mapPage_keeps m' r b f 7 hd.calm.tidy (by decide)
  obtain ⟨hcalm, -⟩ := htidy.copyIn (hidle hd.idle) c
  refine ⟨hcalm.tidy, fun va hva => ?_⟩
  rw [hcalm.leaf]
  apply hkeep
  rw [hd.calm.leaf]
  exact hva

theorem Tidy.mapFresh_keeps (contents : Nat → Option (Nat → Nat)) (n : Nat) :
    ∀ {addr : Nat} {m : Machine}, Tidy r m →
      Tidy r (m.mapFresh r contents n addr).2 ∧ ∀ va, leafEntry m.ram r va ≠ none →
        leafEntry (m.mapFresh r contents n addr).2.ram r va ≠ none := by
  induction n with
  | zero => exact fun h => ⟨h, fun _ => id⟩
  | succ n ih =>
    intro addr m h
    cases ha : m.allocPage with
    | mk f m₁ =>
      simp only [Machine.mapFresh, ha]
      by_cases h0 : f = 0
      · rw [if_pos h0]
        have hcalm : Calm r m m₁ := by
          cases m.allocPage_free with
          | inl hpage =>
            obtain ⟨g, hg, -, he⟩ := hpage
            rw [ha] at he
            cases he
            exact absurd h0 hg
          | inr hnull =>
            obtain ⟨s, hbit, he⟩ := hnull
            rw [ha] at he
            cases he
            exact h.calm (fun _ _ => rfl) hbit
        exact ⟨hcalm.tidy, fun va hva => by rw [hcalm.leaf]; exact hva⟩
      · rw [if_neg h0]
        obtain ⟨htidy, hkeep⟩ := h.freshPage_keeps (b := addr) ha h0 (contents addr)
        obtain ⟨htidy', hkeep'⟩ := ih htidy
        exact ⟨htidy', fun va hva => hkeep' va (hkeep va hva)⟩

theorem Tidy.loadSegments_keeps {phs : List Elf64Phdr} :
    ∀ {m : Machine}, Tidy r m → ∀ va, leafEntry m.ram r va ≠ none →
      leafEntry (m.loadSegments r data phs).2.ram r va ≠ none := by
  induction phs with
  | nil => exact fun _ _ => id
  | cons ph phs ih =>
    intro m h va hva
    rw [Machine.loadSegments]
    by_cases hload : ph.pType = ptLoad
    · rw [if_pos hload]
      obtain ⟨htidy, hkeep⟩ := @Tidy.mapFresh_keeps r (ph.pageWords data) ph.pageCount ph.segStart m h
      by_cases hlt : (m.mapFresh r (ph.pageWords data) ph.pageCount ph.segStart).1 < ph.pageCount
      · simp only [if_pos hlt]
        exact hkeep va hva
      · simp only [if_neg hlt]
        exact ih htidy va (hkeep va hva)
    · rw [if_neg hload]
      exact ih h va hva

/-- In an empty table the first page of a program is always mapped. -/
theorem blankTable_maps (contents : Nat → Option (Nat → Nat)) (n addr : Nat) :
    leafEntry (blankTable.mapFresh 0x100 contents (n + 1) addr).2.ram 0x100 addr ≠ none := by
  cases ha : blankTable.allocPage with
  | mk f m₁ =>
    have hf : f = 0x200 := by
      have h1 : blankTable.allocPage.1 = 0x200 := by decide +kernel
      rw [ha] at h1
      exact h1
    have h0 : f ≠ 0 := by omega
    have hd := blankTable_tidy.drawn ha h0
    have hm₁ : m₁ = blankTable.allocPage.2 := by rw [ha]
    have hused : blankTable.pmm.bitmap 0x100 = true := by decide
    obtain ⟨-, hroot, hram⟩ := hd.others hused
    have hblank : ∀ i, present (m₁.ram 0x100 i) = false := by
      intro i
      rw [hram]
      exact present_zero
    have hthree : blankTable.allocPage.2.supplies 3 = true := by decide +kernel
    have hcursor : blankTable.allocPage.2.pmm.lastPage ≤ totalPagesMax := by decide +kernel
    rw [← hm₁] at hthree hcursor
    obtain ⟨t, ht, -⟩ := @descendAll_blank 7 0 [pml4Index addr, pdptIndex addr, pdIndex addr]
      m₁ 0x100 hcursor hblank hroot hthree
    have hok : (m₁.mapPage 0x100 addr f 7).1 = true := by
      have huser : user 7 = true := by decide
      simp only [Machine.mapPage, Machine.tableFor, huser, if_true]
      revert ht
      generalize m₁.descendAll 7 0x100 [pml4Index addr, pdptIndex addr, pdIndex addr] = res
      intro ht
      obtain ⟨o, m₂⟩ := res
      cases ht
      rfl
    cases hmap : m₁.mapPage 0x100 addr f 7 with
    | mk ok m₂ =>
      rw [hmap] at hok
      cases hok
      obtain ⟨htidy, hleaf, -, hidle⟩ := hd.calm.tidy.maps (by decide) hmap
      obtain ⟨hcalm, -⟩ := htidy.copyIn (hidle hd.idle).2 (contents addr)
      simp only [Machine.mapFresh, ha, if_neg h0, hmap]
      refine (hcalm.tidy.mapFresh_keeps contents n).2 addr ?_
      rw [hcalm.leaf, hleaf]
      exact Option.some_ne_none _

theorem blankTable_loads {phs : List Elf64Phdr} {ph : Elf64Phdr} (hph : ph ∈ phs)
    (hload : ph.pType = ptLoad) (hpages : ph.pageCount ≠ 0) :
    ∃ va, leafEntry (blankTable.loadSegments 0x100 data phs).2.ram 0x100 va ≠ none := by
  induction phs with
  | nil => cases hph
  | cons s phs ih =>
    rw [Machine.loadSegments]
    by_cases hs : s.pType = ptLoad
    · rw [if_pos hs]
      cases hn : s.pageCount with
      | zero =>
        simp only [Machine.mapFresh, Nat.lt_irrefl, if_false]
        rcases List.mem_cons.mp hph with rfl | hph
        · exact absurd hn hpages
        · exact ih hph
      | succ n =>
        have hfirst := blankTable_maps (s.pageWords data) n s.segStart
        refine ⟨s.segStart, ?_⟩
        by_cases hlt : (blankTable.mapFresh 0x100 (s.pageWords data) (n + 1) s.segStart).1 < n + 1
        · simp only [if_pos hlt]
          exact hfirst
        · simp only [if_neg hlt]
          exact Tidy.loadSegments_keeps (blankTable_tidy.mapFresh_keeps _ _).1 _ hfirst
    · rw [if_neg hs]
      rcases List.mem_cons.mp hph with rfl | hph
      · exact absurd hload hs
      · exact ih hph

theorem loadSegments_empty {phs : List Elf64Phdr} (m : Machine)
    (h : ∀ ph ∈ phs, ph.pType = ptLoad → ph.pageCount = 0) :
    m.loadSegments r data phs = (true, m) := by
  induction phs with
  | nil => rfl
  | cons ph phs ih =>
    have hrest := ih fun s hs => h s (List.mem_cons_of_mem _ hs)
    rw [Machine.loadSegments]
    by_cases hload : ph.pType = ptLoad
    · simp only [if_pos hload, h ph List.mem_cons_self hload, Machine.mapFresh, Nat.lt_irrefl,
        if_false, hrest]
    · rw [if_neg hload, hrest]

end mapped

theorem mem_segments {data : Mem} {ph : Elf64Phdr} :
    ph ∈ segments data ↔ ∃ i < ePhnum data, phdr data i = ph := by
  simp [segments]

theorem load_ram (m : Machine) (r : Nat) {data : Mem} (he : isElf data = true) :
    (m.load r (some data)).2 = (m.loadSegments r data (segments data)).2 := by
  simp only [Machine.load, he, if_true]
  generalize m.loadSegments r data (segments data) = res
  obtain ⟨ok, m'⟩ := res
  cases ok with
  | true => rfl
  | false => rfl

theorem load_empty (m : Machine) (r : Nat) {data : Mem} (he : isElf data = true)
    (h : ∀ ph ∈ segments data, ph.pType = ptLoad → ph.pageCount = 0) :
    m.load r (some data) = (eEntry data, m) := by
  simp only [Machine.load, he, if_true, loadSegments_empty m h]

theorem blankTable_leaf (va : Nat) : leafEntry blankTable.ram 0x100 va = none := by
  have hno : ∀ i, lookup blankTable.ram 0x100 i = none := fun i => lookup_of_absent present_zero
  rw [leafEntry, hno]
  rfl

section safe

variable {data : Mem} {size : Nat}

/-- The reads of the headers are made whatever memory there is. -/
theorem Within.headers {m : Machine} {r : Nat} (h : Within size (m.loadReads r data))
    (he : isElf data = true) : 58 ≤ size ∧ ∀ i < ePhnum data, phdrOffset data i + 4 ≤ size ∧
      ((phdr data i).pType = ptLoad → phdrOffset data i + 48 ≤ size) := by
  rw [Machine.loadReads, if_pos he] at h
  have hextent : ∀ i < ePhnum data, ∀ s ∈ extentReads data i, 0 < s.len →
      s.start + s.len ≤ size := by
    intro i hi s hs hlen
    refine h.le ?_ hlen
    simp only [List.mem_cons, List.mem_append]
    exact Or.inr (Or.inr (Or.inr (Or.inl
      (List.mem_flatMap.mpr ⟨i, List.mem_range.mpr hi, hs⟩))))
  refine ⟨h.le (s := ⟨56, 2⟩) (by simp) (by simp), fun i hi => ⟨?_, fun hload => ?_⟩⟩
  · exact hextent i hi ⟨phdrOffset data i, 4⟩ (by simp [extentReads]) (by simp)
  · have hlast := hextent i hi ⟨phdrOffset data i + 40, 8⟩ (by simp [extentReads, hload]) (by simp)
    simp only at hlast
    omega

theorem LoadsSafely.inert (h : LoadsSafely data size) (he : isElf data = true)
    (hin : ¬ InFile data size) : Inert data size := by
  obtain ⟨hread, hrefuse⟩ := h blankTable 0x100
  obtain ⟨hzero, hnone⟩ := hrefuse hin
  obtain ⟨hheader, htable⟩ := hread.headers he
  have hpages : ∀ ph ∈ segments data, ph.pType = ptLoad → ph.pageCount = 0 := by
    intro ph hph hload
    by_contra hne
    obtain ⟨va, hva⟩ := @blankTable_loads data _ ph hph hload hne
    have hsame := hnone va
    rw [blankTable_leaf, load_ram _ _ he] at hsame
    exact hva hsame
  rw [load_empty _ _ he hpages] at hzero
  exact ⟨hheader, htable, hzero, hpages⟩

theorem loadsSafely_of_other (he : isElf data = false) (hmagic : magicRead data ≤ size) :
    LoadsSafely data size := by
  intro m r
  have hload : m.load r (some data) = (0, m) := by
    simp only [Machine.load, he, Bool.false_eq_true, if_false]
  refine ⟨loadReads_within m r hmagic fun h => ?_, fun _ => ?_⟩
  · rw [he] at h
    cases h
  · rw [hload]
    exact ⟨rfl, fun _ => rfl⟩

theorem InFile.loadsSafely (h : InFile data size) (hsize : size < 2^64) : LoadsSafely data size := by
  intro m r
  have hheader := h.header
  have hmagic := (magicRead_pos data).2
  refine ⟨loadReads_within m r (by omega) fun _ => ⟨by omega, fun i hi => ?_, fun i hi hload => ?_⟩,
    fun hno => absurd h hno⟩
  · have hrow := h.table i hi
    exact ⟨by omega, fun _ => by omega⟩
  · obtain ⟨hv, hz, -⟩ := phdr_lt data i
    exact Or.inr (pageRead_within hv hz hsize (h.segs _ (mem_segments.mpr ⟨i, hi, rfl⟩) hload).1)

theorem Inert.loadsSafely (h : Inert data size) (he : isElf data = true) : LoadsSafely data size := by
  intro m r
  have hheader := h.header
  have hmagic := (magicRead_pos data).2
  refine ⟨loadReads_within m r (by omega) fun _ => ⟨hheader, h.table, fun i hi hload => ?_⟩,
    fun _ => ?_⟩
  · exact Or.inl (h.pages _ (mem_segments.mpr ⟨i, hi, rfl⟩) hload)
  · rw [load_empty m r he h.pages]
    exact ⟨h.entry, fun _ => rfl⟩

end safe

/-- A file is loaded safely exactly when it is no program and long enough to be told so, when its
headers and segments lie in it, or when nothing is made of it at all. -/
theorem loadsSafely_iff (data : Mem) (size : UInt64) :
    LoadsSafely data size.toNat ↔
      (isElf data = false ∧ magicRead data ≤ size.toNat) ∨
      (isElf data = true ∧ (InFile data size.toNat ∨ Inert data size.toNat)) := by
  constructor
  · intro h
    cases he : isElf data with
    | false =>
      have hread := (h blankTable 0x100).1
      have hle := hread.le (s := ⟨0, magicRead data⟩) (by simp [Machine.loadReads])
        (magicRead_pos data).1
      exact Or.inl ⟨rfl, by simpa using hle⟩
    | true =>
      refine Or.inr ⟨rfl, ?_⟩
      by_cases hin : InFile data size.toNat
      · exact Or.inl hin
      · exact Or.inr (h.inert he hin)
  · rintro (⟨he, hmagic⟩ | ⟨he, hin | hinert⟩)
    · exact loadsSafely_of_other he hmagic
    · exact hin.loadsSafely size.toNat_lt
    · exact hinert.loadsSafely he

/-- Four bytes with the magic number: the header behind them is read all the same. -/
theorem header_read_past_end :
    ¬ ∀ (data : Mem) (size : UInt64), LoadsSafely data size.toNat := by
  intro H
  have h := (H (fileOf [(0, 0x7f), (1, 0x45), (2, 0x4c), (3, 0x46)]) 4 blankTable 0x100).1
  have hle := h.le (s := ⟨56, 2⟩) (by simp [Machine.loadReads, show isElf
    (fileOf [(0, 0x7f), (1, 0x45), (2, 0x4c), (3, 0x46)]) = true by decide]) (by decide)
  revert hle
  decide

end LosTacOS.Mm
