import LosTacOS.Mm.Exec
import LosTacOS.Mm.MapUnmap

/-! The bytes of a loaded program, seen through its page table. -/
namespace LosTacOS.Mm
open ByteMemory

def byteOf (ws : Nat → Nat) (o : Nat) : UInt8 := UInt8.ofNat (ws (o / 8) / 256 ^ (o % 8) % 256)

def Machine.byteAt (m : Machine) (r va : Nat) : Option UInt8 :=
  (leafEntry m.ram r va).map fun w => byteOf (m.ram (frameOf w)) (va % 4096)

def Elf64Phdr.Over (ph : Elf64Phdr) (a : Nat) : Prop :=
  ph.pType = ptLoad ∧ ph.segStart ≤ a ∧ a < ph.segEnd

instance (ph : Elf64Phdr) (a : Nat) : Decidable (ph.Over a) :=
  inferInstanceAs (Decidable (_ ∧ _ ∧ _))

def Elf64Phdr.Holds (ph : Elf64Phdr) (a : Nat) : Prop := ph.pVaddr ≤ a ∧ a < ph.pVaddr + ph.pMemsz

/-- Byte `i` of a segment: the file's, then zeros. -/
def Elf64Phdr.byte (data : Mem) (ph : Elf64Phdr) (i : Nat) : UInt8 :=
  if i < ph.pFilesz then data (ph.pOffset + i) else 0

/-- A segment whose file range lies in a file of the given size and whose addresses lie in the
second gigabyte. -/
structure Elf64Phdr.Fits (size : Nat) (ph : Elf64Phdr) : Prop where
  filesz : ph.pFilesz ≤ ph.pMemsz
  inside : ph.pOffset + ph.pFilesz ≤ size
  low : 2^30 ≤ ph.pVaddr
  high : ph.pVaddr + ph.pMemsz ≤ 2^31

structure WellFormedFile (data : Mem) (size : Nat) : Prop where
  magic : isElf data = true
  word : size < 2^64
  header : 64 ≤ size
  table : loadLE data 32 8 + 56 * ePhnum data ≤ size
  segs : ∀ ph ∈ segments data, ph.pType = ptLoad → ph.Fits size
  apart : (segments data).Pairwise fun s t => s.pType = ptLoad → t.pType = ptLoad →
    ∀ a, s.Holds a → ¬ t.Holds a

def Machine.Loaded (m : Machine) (r : Nat) (data : Mem) : Prop :=
  ∀ ph ∈ segments data, ph.pType = ptLoad → ∀ i < ph.pMemsz,
    m.byteAt r (ph.pVaddr + i) = some (ph.byte data i)

def Machine.freshGranted (pml4 : Nat) (contents : Nat → Option (Nat → Nat)) :
    Nat → Nat → Machine → Bool
  | 0, _, _ => true
  | n + 1, addr, m =>
    let (f, m) := m.allocPage
    let (ok, m) := m.mapPage pml4 addr f 7
    f ≠ 0 && ok && freshGranted pml4 contents n (addr + 0x1000) (m.copyIn f (contents addr))

def Machine.loadGranted (pml4 : Nat) (data : Mem) : List Elf64Phdr → Machine → Bool
  | [], _ => true
  | ph :: phs, m =>
    if ph.pType = ptLoad then
      m.freshGranted pml4 (ph.pageWords data) ph.pageCount ph.segStart &&
        loadGranted pml4 data phs (m.mapFresh pml4 (ph.pageWords data) ph.pageCount ph.segStart).2
    else loadGranted pml4 data phs m

section pages

variable {m m' : Machine} {r a b : Nat}

theorem samePage_iff (ha : a < 2^48) (hb : b < 2^48) : SamePage a b ↔ a / 4096 = b / 4096 := by
  simp only [SamePage, pml4Index, pdptIndex, pdIndex, ptIndex]
  omega

theorem SamePage.leafEntry {ram : Ram} (h : SamePage a b) :
    leafEntry ram r b = leafEntry ram r a := by
  rw [leafEntry_eq, leafEntry_eq, h.1, h.2.1, h.2.2.1, h.2.2.2]

structure Calm (r : Nat) (m m' : Machine) : Prop where
  tidy : Tidy r m'
  table : ∀ {q}, TablePath q → tableAt m'.ram r q = tableAt m.ram r q
  leaf : ∀ va, leafEntry m'.ram r va = leafEntry m.ram r va

theorem Tidy.calm (h : Tidy r m)
    (hram : ∀ {q x}, TablePath q → tableAt m.ram r q = some x → m'.ram x = m.ram x)
    (hbit : ∀ x, m.pmm.bitmap x = true → m'.pmm.bitmap x = true) : Calm r m m' := by
  have hlook : ∀ {q x} (j : Nat), TablePath q → tableAt m.ram r q = some x →
      lookup m'.ram x j = lookup m.ram x j := by
    intro q x j hq hx
    rw [lookup, lookup, hram hq hx]
  have htable : ∀ {q}, TablePath q → tableAt m'.ram r q = tableAt m.ram r q := by
    intro q hq
    induction q with
    | nil => rfl
    | cons j q ih =>
      rw [tableAt, tableAt, ih hq.tail]
      cases hx : tableAt m.ram r q with
      | none => rfl
      | some x => rw [Option.bind_some, Option.bind_some, hlook j hq.tail hx]
  refine ⟨⟨fun ha hb hxa hxb => ?_, fun ha hxa => ?_⟩, htable, fun va => ?_⟩
  · rw [htable ha] at hxa
    rw [htable hb] at hxb
    exact h.apart ha hb hxa hxb
  · rw [htable ha] at hxa
    exact hbit _ (h.used ha hxa)
  · rw [leafEntry_eq, leafEntry_eq, wordAt, wordAt, htable (leafPath_path va)]
    cases hx : tableAt m.ram r (leafPath va) with
    | none => rfl
    | some x => exact hlook _ (leafPath_path va) hx

theorem Calm.idle {x : Nat} (h : Calm r m m') (hx : Idle r m x)
    (hbit : m'.pmm.bitmap x = true) : Idle r m' x :=
  ⟨hbit, fun q hq => by rw [h.table hq]; exact hx.2 q hq⟩

def Shows (r : Nat) (m : Machine) (a : Nat) (v : UInt8) : Prop :=
  ∃ w, leafEntry m.ram r a = some w ∧ Idle r m (frameOf w) ∧
    byteOf (m.ram (frameOf w)) (a % 4096) = v

theorem Shows.byteAt {v : UInt8} (h : Shows r m a v) : m.byteAt r a = some v := by
  obtain ⟨w, hw, -, hv⟩ := h
  rw [Machine.byteAt, hw, Option.map_some, hv]

def pageOf : Option (Nat → Nat) → Nat → Nat
  | some ws => ws
  | none => fun _ => 0

structure Drawn (r : Nat) (m m' : Machine) (f : Nat) : Prop where
  calm : Calm r m m'
  idle : Idle r m' f
  zeros : m'.ram f = fun _ => 0
  others : ∀ {x}, m.pmm.bitmap x = true →
    x ≠ f ∧ m'.pmm.bitmap x = true ∧ m'.ram x = m.ram x

theorem Tidy.drawn {f : Nat} (h : Tidy r m) (ha : m.allocPage = (f, m')) (h0 : f ≠ 0) :
    Drawn r m m' f := by
  cases m.allocPage_free with
  | inr hnull =>
    obtain ⟨s, -, he⟩ := hnull
    rw [ha] at he
    cases he
    exact absurd rfl h0
  | inl hpage =>
    obtain ⟨g, -, hfree, he⟩ := hpage
    rw [ha] at he
    cases he
    have hothers : ∀ {x}, m.pmm.bitmap x = true → x ≠ f ∧
        (Machine.fill ⟨m.pmm.take f, m.ram⟩ f fun _ => 0).pmm.bitmap x = true ∧
        (Machine.fill ⟨m.pmm.take f, m.ram⟩ f fun _ => 0).ram x = m.ram x := by
      intro x hx
      have hne : x ≠ f := by
        intro he
        rw [he, hfree] at hx
        cases hx
      exact ⟨hne, by rw [fill_pmm, take_bitmap, if_neg hne, hx], fill_frame _ _ hne⟩
    have hcalm : Calm r m (Machine.fill ⟨m.pmm.take f, m.ram⟩ f fun _ => 0) :=
      h.calm (fun hq hx => (hothers (h.used hq hx)).2.2) fun _ hx => (hothers hx).2.1
    refine ⟨hcalm, ⟨by simp, fun q hq => ?_⟩, fill_same _ _ _, hothers⟩
    rw [hcalm.table hq]
    exact h.unreached hfree hq

theorem Tidy.copyIn {f : Nat} (h : Tidy r m) (hf : Idle r m f) (c : Option (Nat → Nat)) :
    Calm r m (m.copyIn f c) ∧ (m.copyIn f c).pmm = m.pmm ∧
      ∀ x, x ≠ f → (m.copyIn f c).ram x = m.ram x := by
  cases c with
  | none => exact ⟨h.calm (fun _ _ => rfl) fun _ => id, rfl, fun _ _ => rfl⟩
  | some ws =>
    refine ⟨h.calm (fun {q x} hq hx => fill_frame _ _ fun he => ?_) fun _ => id, rfl,
      fun x hx => fill_frame _ _ hx⟩
    exact hf.2 q hq (he ▸ hx)

theorem copyIn_page {f : Nat} (hz : m.ram f = fun _ => 0) (c : Option (Nat → Nat)) :
    (m.copyIn f c).ram f = pageOf c := by
  cases c with
  | none => exact hz
  | some ws => exact fill_same _ _ _

/-- One page that is granted: it shows its contents, and the other pages show theirs. -/
theorem Tidy.freshPage {f : Nat} {m₁ m₂ : Machine} (h : Tidy r m) (c : Option (Nat → Nat))
    (ha : m.allocPage = (f, m₁)) (h0 : f ≠ 0) (hm : m₁.mapPage r b f 7 = (true, m₂)) :
    Tidy r (m₂.copyIn f c) ∧
      (∀ a v, ¬ SamePage b a → Shows r m a v → Shows r (m₂.copyIn f c) a v) ∧
      ∀ a, SamePage b a → Shows r (m₂.copyIn f c) a (byteOf (pageOf c) (a % 4096)) := by
  have hd := h.drawn ha h0
  obtain ⟨htidy, hleaf, hother, hkeep⟩ := hd.calm.tidy.maps (by decide) hm
  obtain ⟨hzero, hidle⟩ := hkeep hd.idle
  rw [hd.zeros] at hzero
  obtain ⟨hcalm, hpmm, hrest⟩ := htidy.copyIn hidle c
  refine ⟨hcalm.tidy, fun a v hna hs => ?_, fun a hsa => ?_⟩
  · obtain ⟨w, hw, hx, hv⟩ := hs
    obtain ⟨hxf, hbit, hram⟩ := hd.others hx.1
    obtain ⟨hram₂, hx₂⟩ := hkeep (hd.calm.idle hx hbit)
    refine ⟨w, ?_, hcalm.idle hx₂ (by rw [hpmm]; exact hx₂.1), ?_⟩
    · rw [hcalm.leaf, hother a hna, hd.calm.leaf, hw]
    · rw [hrest _ hxf, hram₂, hram]
      exact hv
  · have hfr : frameOf (entry f 7) = f := frameOf_entry (by decide)
    refine ⟨entry f 7, ?_, ?_, ?_⟩
    · rw [hcalm.leaf, hsa.leafEntry, hleaf]
    · rw [hfr]
      exact hcalm.idle hidle (by rw [hpmm]; exact hidle.1)
    · rw [hfr, copyIn_page hzero]

theorem Tidy.mapFresh {contents : Nat → Option (Nat → Nat)} {n : Nat} :
    ∀ {addr : Nat} {m : Machine}, Tidy r m → m.freshGranted r contents n addr = true →
      addr % 4096 = 0 → addr + n * 4096 ≤ 2^48 →
      (m.mapFresh r contents n addr).1 = n ∧ Tidy r (m.mapFresh r contents n addr).2 ∧
      (∀ a v, a < 2^48 → ¬ (addr ≤ a ∧ a < addr + n * 4096) → Shows r m a v →
        Shows r (m.mapFresh r contents n addr).2 a v) ∧
      ∀ a, addr ≤ a → a < addr + n * 4096 →
        Shows r (m.mapFresh r contents n addr).2 a
          (byteOf (pageOf (contents (a / 4096 * 4096))) (a % 4096)) := by
  induction n with
  | zero => exact fun h _ _ _ => ⟨rfl, h, fun a v _ _ hs => hs, fun a hle hlt => by omega⟩
  | succ n ih =>
    intro addr m h hg hmod hlt
    cases ha : m.allocPage with
    | mk f m₁ =>
      cases hm : m₁.mapPage r addr f 7 with
      | mk ok m₂ =>
        simp only [Machine.freshGranted, ha, hm, Bool.and_eq_true, decide_eq_true_eq] at hg
        obtain ⟨⟨h0, rfl⟩, hg⟩ := hg
        obtain ⟨htidy, hkeep, hnew⟩ := h.freshPage (contents addr) ha h0 hm
        obtain ⟨hdone, htidy', hkeep', hnew'⟩ := ih htidy hg (by omega) (by omega)
        simp only [Machine.mapFresh, ha, if_neg h0, hm]
        refine ⟨by rw [hdone], htidy', fun a v ha' hout hs => ?_, fun a hle hltA => ?_⟩
        · refine hkeep' a v ha' (by omega) (hkeep a v ?_ hs)
          rw [samePage_iff (by omega) ha']
          omega
        · by_cases hfirst : a < addr + 4096
          · have hsame : SamePage addr a := by
              rw [samePage_iff (by omega) (by omega)]
              omega
            have hpage : a / 4096 * 4096 = addr := by omega
            rw [hpage]
            exact hkeep' a _ (by omega) (by omega) (hnew a hsame)
          · exact hnew' a (by omega) (by omega)

end pages

section segment

variable {data : Mem} {size a : Nat} {ph : Elf64Phdr}

theorem loadLE_digit (bs : Mem) (a n j : Nat) (hj : j < n) :
    loadLE bs a n / 256^j % 256 = (bs (a + j)).toNat := by
  induction n generalizing a j with
  | zero => omega
  | succ n ih =>
    have hb := (bs a).toNat_lt
    rw [loadLE]
    cases j with
    | zero =>
      simp only [pow_zero, Nat.div_one, Nat.add_zero]
      omega
    | succ j =>
      rw [pow_succ, Nat.mul_comm (256^j), ← Nat.div_div_eq_div_mul,
        show ((bs a).toNat + 256 * loadLE bs (a + 1) n) / 256 = loadLE bs (a + 1) n by omega,
        ih (a + 1) j (by omega), show a + 1 + j = a + (j + 1) by omega]

theorem byteOf_loadLE (bs : Mem) (o : Nat) : byteOf (fun i => loadLE bs (8 * i) 8) o = bs o := by
  rw [byteOf, loadLE_digit bs _ 8 _ (Nat.mod_lt o (by decide)), Nat.div_add_mod]
  exact UInt8.ofNat_toNat

def Elf64Phdr.byteThere (data : Mem) (ph : Elf64Phdr) (a : Nat) : UInt8 :=
  if ph.pVaddr ≤ a then ph.byte data (a - ph.pVaddr) else 0

theorem Elf64Phdr.Fits.pageWords (h : ph.Fits size) (hsize : size < 2^64) :
    byteOf (pageOf (ph.pageWords data (a / 4096 * 4096))) (a % 4096) = ph.byteThere data a := by
  obtain ⟨hfm, hin, -, hhigh⟩ := h
  have hend : (ph.pVaddr + ph.pFilesz) % 2^64 = ph.pVaddr + ph.pFilesz := Nat.mod_eq_of_lt (by omega)
  have ho : a / 4096 * 4096 + a % 4096 = a := by omega
  generalize hp : a / 4096 * 4096 = p at ho ⊢
  generalize hb : a % 4096 = o at ho ⊢
  have hlt : o < 4096 := by omega
  unfold Elf64Phdr.pageWords
  rw [hend]
  dsimp only
  generalize hcs : (if p < ph.pVaddr then ph.pVaddr else p) = cs
  generalize hce : (if ph.pVaddr + ph.pFilesz < p + 0x1000 then ph.pVaddr + ph.pFilesz
    else p + 0x1000) = ce
  have hcs' : cs = max ph.pVaddr p := by
    rw [← hcs]
    split_ifs <;> omega
  have hce' : ce = min (ph.pVaddr + ph.pFilesz) (p + 0x1000) := by
    rw [← hce]
    split_ifs <;> omega
  rw [Elf64Phdr.byteThere, Elf64Phdr.byte]
  by_cases hcopy : cs < ce
  · rw [if_pos hcopy, pageOf, byteOf_loadLE]
    have hoff : (ph.pOffset + (cs - ph.pVaddr)) % 2^64 = ph.pOffset + (cs - ph.pVaddr) :=
      Nat.mod_eq_of_lt (by omega)
    rw [hoff]
    by_cases hinside : cs - p ≤ o ∧ o < cs - p + (ce - cs)
    · rw [if_pos hinside, if_pos (by omega), if_pos (by omega)]
      congr 1
      omega
    · rw [if_neg hinside]
      by_cases hle : ph.pVaddr ≤ a
      · rw [if_pos hle, if_neg (by omega)]
      · rw [if_neg hle]
  · have hzero : byteOf (fun _ => 0) o = 0 := by
      rw [byteOf, Nat.zero_div]
      rfl
    rw [if_neg hcopy, pageOf, hzero]
    by_cases hle : ph.pVaddr ≤ a
    · rw [if_pos hle, if_neg (by omega)]
    · rw [if_neg hle]

theorem Elf64Phdr.Fits.span (h : ph.Fits size) :
    ph.segStart % 4096 = 0 ∧ ph.segStart + ph.pageCount * 4096 = ph.segEnd ∧ ph.segEnd < 2^48 := by
  obtain ⟨-, -, -, hhigh⟩ := h
  have hend : (ph.pVaddr + ph.pMemsz + 0xFFF) % 2^64 = ph.pVaddr + ph.pMemsz + 0xFFF :=
    Nat.mod_eq_of_lt (by omega)
  simp only [Elf64Phdr.pageCount, Elf64Phdr.segEnd, Elf64Phdr.segStart, hend]
  omega

theorem Elf64Phdr.Holds.over (h : ph.Holds a) (hload : ph.pType = ptLoad) (hfits : ph.Fits size) :
    ph.Over a := by
  obtain ⟨-, -, -, hhigh⟩ := hfits
  have hend : (ph.pVaddr + ph.pMemsz + 0xFFF) % 2^64 = ph.pVaddr + ph.pMemsz + 0xFFF :=
    Nat.mod_eq_of_lt (by omega)
  refine ⟨hload, ?_, ?_⟩
  · simp only [Elf64Phdr.Holds, Elf64Phdr.segStart] at h ⊢
    omega
  · simp only [Elf64Phdr.Holds, Elf64Phdr.segEnd, hend] at h ⊢
    omega

def lastOver (a : Nat) : List Elf64Phdr → Option Elf64Phdr
  | [] => none
  | ph :: phs => (lastOver a phs).or (if ph.Over a then some ph else none)

theorem lastOver_some {phs : List Elf64Phdr} (h : lastOver a phs = some ph) :
    ph ∈ phs ∧ ph.Over a := by
  induction phs with
  | nil => cases h
  | cons s phs ih =>
    rw [lastOver] at h
    cases hl : lastOver a phs with
    | some t =>
      rw [hl, Option.some_or] at h
      obtain ⟨hm, ho⟩ := ih (hl.trans h)
      exact ⟨List.mem_cons_of_mem _ hm, ho⟩
    | none =>
      rw [hl, Option.none_or] at h
      split at h
      · cases h
        exact ⟨List.mem_cons_self, by assumption⟩
      · cases h

theorem lastOver_none {phs : List Elf64Phdr} (h : lastOver a phs = none) :
    ∀ t ∈ phs, ¬ t.Over a := by
  induction phs with
  | nil => intro t ht; cases ht
  | cons s phs ih =>
    rw [lastOver, Option.or_eq_none_iff] at h
    intro t ht
    rcases List.mem_cons.mp ht with rfl | ht
    · intro ho
      rw [if_pos ho] at h
      cases h.2
    · exact ih h.1 t ht

end segment

section load

variable {data : Mem} {size r : Nat}

/-- After all segments every address shows what the last segment over it has there. -/
theorem Tidy.loadSegments (hsize : size < 2^64) {phs : List Elf64Phdr} :
    ∀ {m : Machine}, Tidy r m → m.loadGranted r data phs = true →
      (∀ ph ∈ phs, ph.pType = ptLoad → ph.Fits size) →
      (m.loadSegments r data phs).1 = true ∧
      ∀ a < 2^48, (∀ t, lastOver a phs = some t →
          Shows r (m.loadSegments r data phs).2 a (t.byteThere data a)) ∧
        (lastOver a phs = none → ∀ v, Shows r m a v → Shows r (m.loadSegments r data phs).2 a v) := by
  induction phs with
  | nil => exact fun _ _ _ => ⟨rfl, fun a _ => ⟨fun t ht => (by cases ht), fun _ v hs => hs⟩⟩
  | cons ph phs ih =>
    intro m h hg hfits
    have hrest : ∀ t ∈ phs, t.pType = ptLoad → t.Fits size :=
      fun t ht => hfits t (List.mem_cons_of_mem _ ht)
    rw [Machine.loadGranted] at hg
    by_cases hload : ph.pType = ptLoad
    · rw [if_pos hload, Bool.and_eq_true] at hg
      have hfit := hfits ph List.mem_cons_self hload
      obtain ⟨hmod, hspan, hlt⟩ := hfit.span
      obtain ⟨hdone, htidy, hkeep, hnew⟩ := h.mapFresh hg.1 hmod (by omega)
      obtain ⟨hok, hall⟩ := ih htidy hg.2 hrest
      have heq : m.loadSegments r data (ph :: phs) = Machine.loadSegments r data phs
          (m.mapFresh r (ph.pageWords data) ph.pageCount ph.segStart).2 := by
        rw [Machine.loadSegments, if_pos hload]
        simp only [hdone, Nat.lt_irrefl, if_false]
      rw [heq]
      refine ⟨hok, fun a ha => ?_⟩
      obtain ⟨hsome, hnone⟩ := hall a ha
      rw [lastOver]
      cases hl : lastOver a phs with
      | some t =>
        rw [Option.some_or]
        refine ⟨fun u hu => hsome u (hl.trans hu), fun hu => by cases hu⟩
      | none =>
        rw [Option.none_or]
        by_cases hover : ph.Over a
        · rw [if_pos hover]
          refine ⟨fun u hu => ?_, fun hu => by cases hu⟩
          cases hu
          have hs := hnew a hover.2.1 (by rw [hspan]; exact hover.2.2)
          rw [hfit.pageWords hsize] at hs
          exact hnone hl _ hs
        · rw [if_neg hover]
          refine ⟨fun u hu => (by cases hu), fun _ v hs => hnone hl v (hkeep a v ha ?_ hs)⟩
          rw [hspan]
          exact fun hc => hover ⟨hload, hc⟩
    · rw [if_neg hload] at hg
      obtain ⟨hok, hall⟩ := ih h hg hrest
      rw [Machine.loadSegments, if_neg hload]
      refine ⟨hok, fun a ha => ?_⟩
      rw [lastOver, if_neg fun hover : ph.Over a => hload hover.1, Option.or_none]
      exact hall a ha

theorem Elf64Phdr.Fits.byteThere_zero {t : Elf64Phdr} {a : Nat} (h : t.Fits size)
    (hout : ¬ t.Holds a) : t.byteThere data a = 0 := by
  rw [Elf64Phdr.byteThere]
  by_cases hle : t.pVaddr ≤ a
  · have hfm := h.filesz
    rw [if_pos hle, Elf64Phdr.byte, if_neg]
    intro hlt
    exact hout ⟨hle, by omega⟩
  · rw [if_neg hle]

def Spares (data : Mem) (s t : Elf64Phdr) : Prop :=
  s.pType = ptLoad → ∀ i < s.pMemsz, t.Over (s.pVaddr + i) → s.byte data i = 0

/-- The bytes shown are those of the segments exactly when each spares the ones before. -/
theorem shown_iff {phs : List Elf64Phdr}
    (hfits : ∀ ph ∈ phs, ph.pType = ptLoad → ph.Fits size)
    (hapart : phs.Pairwise fun s t => s.pType = ptLoad → t.pType = ptLoad →
      ∀ a, s.Holds a → ¬ t.Holds a) :
    (∀ s ∈ phs, s.pType = ptLoad → ∀ i < s.pMemsz,
      (lastOver (s.pVaddr + i) phs).map (fun t => t.byteThere data (s.pVaddr + i)) =
        some (s.byte data i)) ↔ phs.Pairwise (Spares data) := by
  induction phs with
  | nil => simp
  | cons s phs ih =>
    obtain ⟨hhead, htail⟩ := List.pairwise_cons.mp hapart
    have hrest : ∀ t ∈ phs, t.pType = ptLoad → t.Fits size :=
      fun t ht => hfits t (List.mem_cons_of_mem _ ht)
    rw [List.pairwise_cons, ← ih hrest htail, List.forall_mem_cons]
    refine and_congr ?_ ?_
    · -- the first segment, against all that follow
      constructor
      · intro hs t ht hload i hi hover
        have hbyte := hs hload i hi
        rw [lastOver] at hbyte
        cases hl : lastOver (s.pVaddr + i) phs with
        | none => exact absurd hover (lastOver_none hl t ht)
        | some u =>
          obtain ⟨hu, huo⟩ := lastOver_some hl
          rw [hl, Option.some_or, Option.map_some, (hrest u hu huo.1).byteThere_zero
            (hhead u hu hload huo.1 _ ⟨Nat.le_add_right _ _, by omega⟩)] at hbyte
          exact (Option.some.inj hbyte).symm
      · intro hs hload i hi
        have hover : s.Over (s.pVaddr + i) := Elf64Phdr.Holds.over
          ⟨Nat.le_add_right _ _, by omega⟩ hload (hfits s List.mem_cons_self hload)
        rw [lastOver]
        cases hl : lastOver (s.pVaddr + i) phs with
        | none =>
          rw [Option.none_or, if_pos hover, Option.map_some, Elf64Phdr.byteThere,
            if_pos (Nat.le_add_right _ _), Nat.add_sub_cancel_left]
        | some u =>
          obtain ⟨hu, huo⟩ := lastOver_some hl
          rw [Option.some_or, Option.map_some, (hrest u hu huo.1).byteThere_zero
            (hhead u hu hload huo.1 _ ⟨Nat.le_add_right _ _, by omega⟩), hs u hu hload i hi huo]
    · -- a later segment is over its own bytes, so the first one does not matter
      refine forall₂_congr fun t ht => forall_congr' fun hload => forall₂_congr fun i hi => ?_
      have hover : t.Over (t.pVaddr + i) := Elf64Phdr.Holds.over
        ⟨Nat.le_add_right _ _, by omega⟩ hload (hrest t ht hload)
      rw [lastOver]
      cases hl : lastOver (t.pVaddr + i) phs with
      | none => exact absurd hover (lastOver_none hl t ht)
      | some u => rw [Option.some_or]

end load

section spaces

variable {Z : Prop} {k : Nat} {fb : Framebuffer} {m : Machine} {own : Nat → Owner} {r : Nat}

theorem Owned.tableAt_owner (h : Owned Z k fb m own) (hroot : own r = .table r []) {q : List Nat}
    {x : Nat} (hq : TablePath q) (hx : tableAt m.ram r q = some x) :
    ∃ b, (b = r ∨ b = k) ∧ own x = .table b q := by
  induction q generalizing x with
  | nil =>
    cases hx
    exact ⟨r, Or.inl rfl, hroot⟩
  | cons i q ih =>
    rw [tableAt, Option.bind_eq_some_iff] at hx
    obtain ⟨t, ht, hw⟩ := hx
    obtain ⟨w, hword, rfl⟩ := Option.map_eq_some_iff.mp hw
    obtain ⟨b, hb, hown⟩ := ih hq.tail ht
    rw [lookup] at hword
    split at hword
    · cases hword
      exact h.next_table hb hown hq.1 (by assumption)
    · cases hword

theorem Owned.tidy (h : Owned Z k fb m own) (hroot : own r = .table r []) : Tidy r m := by
  refine ⟨fun {p q x} hp hq hx hy => ?_, fun {p x} hp hx => ?_⟩
  · obtain ⟨b, -, hb⟩ := h.tableAt_owner hroot hp hx
    obtain ⟨c, -, hc⟩ := h.tableAt_owner hroot hq hy
    rw [hb] at hc
    cases hc
    rfl
  · obtain ⟨b, -, hb⟩ := h.tableAt_owner hroot hp hx
    exact h.used (by simp [hb])

end spaces

/-- With memory enough a well-formed file is loaded, and all bytes of its segments are there exactly
when no segment takes a page in which an earlier one has bytes other than zero: the second page
replaces the first. -/
theorem loaded_iff {m : Machine} {r size : Nat} {data : Mem} (h : Tidy r m)
    (hf : WellFormedFile data size) (hg : m.loadGranted r data (segments data) = true) :
    (m.load r (some data)).1 = eEntry data ∧
      ((m.load r (some data)).2.Loaded r data ↔ (segments data).Pairwise (Spares data)) := by
  obtain ⟨hok, hall⟩ := h.loadSegments hf.word hg hf.segs
  have hload : m.load r (some data) = (eEntry data, (m.loadSegments r data (segments data)).2) := by
    simp only [Machine.load, if_pos hf.magic]
    revert hok
    generalize m.loadSegments r data (segments data) = res
    intro hok
    obtain ⟨ok, m'⟩ := res
    cases hok
    rfl
  rw [hload, ← shown_iff hf.segs hf.apart]
  refine ⟨rfl, ?_⟩
  refine forall₂_congr fun s hs => forall_congr' fun hload => forall₂_congr fun i hi => ?_
  have hfit := hf.segs s hs hload
  have hover : s.Over (s.pVaddr + i) :=
    Elf64Phdr.Holds.over ⟨Nat.le_add_right _ _, by omega⟩ hload hfit
  have hhigh := hfit.high
  cases hl : lastOver (s.pVaddr + i) (segments data) with
  | none => exact absurd hover (lastOver_none hl s hs)
  | some t =>
    have hshow := (hall (s.pVaddr + i) (by omega)).1 t hl
    rw [hshow.byteAt, Option.map_some]

section files

def twoPagesElf : Mem := fileOf
  [(0, 0x7f), (1, 0x45), (2, 0x4c), (3, 0x46), (27, 0x40), (32, 64), (56, 2),
    (64, 1), (83, 0x40), (96, 4), (104, 4), (120, 1), (137, 0x10), (139, 0x40), (152, 4), (160, 4)]

def onePageElf : Mem := fileOf
  [(0, 0x7f), (1, 0x45), (2, 0x4c), (3, 0x46), (27, 0x40), (32, 64), (56, 2),
    (64, 1), (83, 0x40), (96, 4), (104, 4), (120, 1), (137, 0x08), (139, 0x40), (152, 4), (160, 4)]

theorem twoPagesElf_segments : segments twoPagesElf =
    [⟨1, 0, 0x40000000, 4, 4⟩, ⟨1, 0, 0x40001000, 4, 4⟩] := by decide

theorem onePageElf_segments : segments onePageElf =
    [⟨1, 0, 0x40000000, 4, 4⟩, ⟨1, 0, 0x40000800, 4, 4⟩] := by decide

/-- Two segments of four bytes at different places make a well-formed file. -/
theorem wellFormed_two {data : Mem} {v w : Nat}
    (hseg : segments data = [⟨1, 0, v, 4, 4⟩, ⟨1, 0, w, 4, 4⟩]) (hmagic : isElf data = true)
    (htable : loadLE data 32 8 + 56 * ePhnum data ≤ 176) (hv : 2^30 ≤ v) (hvw : v + 4 ≤ w)
    (hw : w + 4 ≤ 2^31) : WellFormedFile data 176 := by
  refine ⟨hmagic, by decide, by decide, htable, ?_, ?_⟩
  · rw [hseg]
    intro ph hph _
    rcases List.mem_pair.mp hph with rfl | rfl
    · refine ⟨?_, ?_, ?_, ?_⟩ <;> simp only <;> omega
    · refine ⟨?_, ?_, ?_, ?_⟩ <;> simp only <;> omega
  · rw [hseg]
    simp only [List.pairwise_cons, List.mem_singleton, forall_eq, List.not_mem_nil, false_imp_iff,
      implies_true, List.Pairwise.nil, and_true, Elf64Phdr.Holds]
    intro _ _ a hs ht
    omega

end files

theorem loaded_iff_two_pages :
    (blankTable.load 0x100 (some twoPagesElf)).2.Loaded 0x100 twoPagesElf := by
  have hf : WellFormedFile twoPagesElf 176 := wellFormed_two twoPagesElf_segments
    (by decide) (by decide) (by decide) (by decide) (by decide)
  refine (loaded_iff blankTable_tidy hf (by decide)).2.mpr ?_
  rw [twoPagesElf_segments]
  simp only [List.pairwise_cons, List.mem_singleton, forall_eq, List.not_mem_nil, false_imp_iff,
    implies_true, List.Pairwise.nil, and_true, Spares]
  intro _ i hi hover
  have hle : 0x40001000 ≤ 0x40000000 + i := hover.2.1
  omega

/-- The page of the second segment replaces the first four bytes. -/
theorem shared_page_lost :
    ¬ ∀ (m : Machine) (r : Nat) (data : Mem) (size : Nat), Tidy r m → WellFormedFile data size →
      m.loadGranted r data (segments data) = true → (m.load r (some data)).1 = eEntry data →
      (m.load r (some data)).2.Loaded r data := by
  intro H
  have hf : WellFormedFile onePageElf 176 := wellFormed_two onePageElf_segments
    (by decide) (by decide) (by decide) (by decide) (by decide)
  have h := H blankTable 0x100 onePageElf 176 blankTable_tidy hf (by decide)
    (by decide) ⟨1, 0, 0x40000000, 4, 4⟩ (by rw [onePageElf_segments]; simp) rfl 0 (by decide)
  revert h
  decide +kernel

end LosTacOS.Mm
