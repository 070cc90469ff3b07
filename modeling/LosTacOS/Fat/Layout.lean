import LosTacOS.Fat.Graph

/-! Where the table and the clusters of a volume lie in its image, and what an operation leaves
alone. -/
namespace LosTacOS.Fat

open ByteMemory

namespace Bpb

variable (b : Bpb)

def tableSize : Nat := b.fatSize * b.bytesPerSector

def clusterSize : Nat := b.bytesPerSector * b.sectorsPerCluster

def fatAddr (f c : Nat) : Nat := b.reservedSectorCount * b.bytesPerSector + f * b.tableSize + 4 * c

def dataAddr : Nat := b.reservedSectorCount * b.bytesPerSector + b.numFats * b.tableSize

def clusterAddr (c : Nat) : Nat := b.dataAddr + (c - 2) * b.clusterSize

def slotAddr (c i : Nat) : Nat := b.clusterAddr c + entrySize * i

end Bpb

namespace Volume

/-- The numbers of a volume fit together: its image holds all its sectors, and its table has an
entry for each cluster. -/
structure Formatted (v : Volume) : Prop where
  sector_pos : 0 < v.bpb.bytesPerSector
  cluster_pos : 0 < v.bpb.sectorsPerCluster
  fats_pos : 0 < v.bpb.numFats
  data_le : v.bpb.reservedSectorCount + v.bpb.numFats * v.bpb.fatSize ≤ v.bpb.totalSectors
  sectors_lt : v.bpb.totalSectors < word
  covered : v.bpb.totalSectors * v.bpb.bytesPerSector ≤ v.diskSize
  table : 4 * (v.totalClusters + 2) ≤ v.bpb.tableSize
  marks : v.totalClusters + 2 ≤ endOfChain

structure Like (v w : Volume) : Prop where
  bpb : w.bpb = v.bpb
  diskSize : w.diskSize = v.diskSize

variable {v w x : Volume} {c f i n : Nat}

theorem Like.rfl : Like v v := ⟨Eq.refl _, Eq.refl _⟩

theorem Like.trans (h : Like v w) (h' : Like w x) : Like v x :=
  ⟨h'.bpb.trans h.bpb, h'.diskSize.trans h.diskSize⟩

theorem like_image (v : Volume) (image : Mem) : Like v { v with image } := ⟨Eq.refl _, Eq.refl _⟩

theorem Like.bytesPerCluster (h : Like v w) : w.bytesPerCluster = v.bytesPerCluster := by
  rw [Volume.bytesPerCluster, Volume.bytesPerCluster, h.bpb]

theorem Like.dataStart (h : Like v w) : w.dataStart = v.dataStart := by
  rw [Volume.dataStart, Volume.dataStart, h.bpb]

theorem Like.totalClusters (h : Like v w) : w.totalClusters = v.totalClusters := by
  rw [Volume.totalClusters, Volume.totalClusters, h.dataStart, h.bpb]

theorem Like.sectorPtr (h : Like v w) (s : Nat) : w.sectorPtr s = v.sectorPtr s := by
  rw [Volume.sectorPtr, Volume.sectorPtr, h.bpb, h.diskSize]

theorem Like.clusterPtr (h : Like v w) (c : Nat) : w.clusterPtr c = v.clusterPtr c := by
  rw [Volume.clusterPtr, Volume.clusterPtr, h.sectorPtr, h.dataStart, h.bpb]

theorem Like.formatted (h : Like v w) (hv : v.Formatted) : w.Formatted := by
  refine ⟨?_, ?_, ?_, ?_, ?_, ?_, ?_, ?_⟩
  · exact h.bpb ▸ hv.sector_pos
  · exact h.bpb ▸ hv.cluster_pos
  · exact h.bpb ▸ hv.fats_pos
  · exact h.bpb ▸ hv.data_le
  · exact h.bpb ▸ hv.sectors_lt
  · rw [h.bpb, h.diskSize]
    exact hv.covered
  · rw [h.totalClusters, h.bpb]
    exact hv.table
  · rw [h.totalClusters]
    exact hv.marks

def view (v : Volume) : View where
  limit := v.totalClusters + 2
  slots := v.bytesPerCluster / entrySize
  root := v.bpb.rootCluster
  fat := v.readFat
  mark c i := v.image (v.bpb.slotAddr c i)
  attr c i := v.attrAt (v.bpb.slotAddr c i)
  first c i := v.firstAt (v.bpb.slotAddr c i)

section addresses

theorem Formatted.dataStart (h : v.Formatted) :
    v.dataStart = v.bpb.reservedSectorCount + v.bpb.numFats * v.bpb.fatSize :=
  Nat.mod_eq_of_lt (h.data_le.trans_lt h.sectors_lt)

theorem Formatted.clusters_le (h : v.Formatted) :
    v.dataStart + v.totalClusters * v.bpb.sectorsPerCluster ≤ v.bpb.totalSectors := by
  have hle := h.data_le
  rw [← h.dataStart] at hle
  have hlt := h.sectors_lt
  have hsub : (v.bpb.totalSectors + word - v.dataStart) % word = v.bpb.totalSectors - v.dataStart := by
    rw [show v.bpb.totalSectors + word - v.dataStart = v.bpb.totalSectors - v.dataStart + word by
      omega, Nat.add_mod_right, Nat.mod_eq_of_lt (by omega)]
  have hmul := Nat.div_mul_le_self (v.bpb.totalSectors - v.dataStart) v.bpb.sectorsPerCluster
  rw [Volume.totalClusters, hsub]
  omega

theorem Formatted.sectorPtr (h : v.Formatted) {s : Nat} (hs : s < v.bpb.totalSectors) :
    v.sectorPtr s = some (s * v.bpb.bytesPerSector) := by
  have hlt := Nat.mul_lt_mul_of_pos_right hs h.sector_pos
  have hc := h.covered
  rw [Volume.sectorPtr]
  exact if_neg (by omega)

theorem Formatted.clusterPtr (h : v.Formatted) (hc : v.view.InRange c) :
    v.clusterPtr c = some (v.bpb.clusterAddr c) := by
  obtain ⟨h2, hlt⟩ := hc
  have hlt' : c - 2 + 1 ≤ v.totalClusters := by
    have : c < v.totalClusters + 2 := hlt
    omega
  have hmul := Nat.mul_le_mul_right v.bpb.sectorsPerCluster hlt'
  rw [Nat.add_mul, Nat.one_mul] at hmul
  have hle := h.clusters_le
  have hpos := h.cluster_pos
  have htotal := h.sectors_lt
  have hmod : (v.dataStart + (c - 2) * v.bpb.sectorsPerCluster) % word =
      v.dataStart + (c - 2) * v.bpb.sectorsPerCluster := Nat.mod_eq_of_lt (by omega)
  rw [Volume.clusterPtr, if_neg (by omega), hmod, h.sectorPtr (by omega), h.dataStart]
  congr 1
  rw [Bpb.clusterAddr, Bpb.dataAddr, Bpb.tableSize, Bpb.clusterSize]
  ring

theorem Formatted.entry_lt (h : v.Formatted) (hc : c < v.totalClusters + 2) :
    4 * c + 4 ≤ v.bpb.tableSize := by
  have := h.table
  omega

theorem Formatted.fatPtr (h : v.Formatted) (hf : f < v.bpb.numFats)
    (hc : c < v.totalClusters + 2) :
    v.sectorPtr ((v.fatStart + f * v.bpb.fatSize + c * 4 % word / v.bpb.bytesPerSector) % word) =
      some (v.bpb.fatAddr f c - c * 4 % word % v.bpb.bytesPerSector) ∧
    c * 4 % word % v.bpb.bytesPerSector ≤ v.bpb.fatAddr f c := by
  have hentry := h.entry_lt hc
  have hmarks := h.marks
  have hword : c * 4 % word = c * 4 := Nat.mod_eq_of_lt (by
    have : endOfChain * 4 < word := by decide
    omega)
  have hdiv : c * 4 / v.bpb.bytesPerSector < v.bpb.fatSize := by
    rw [Nat.div_lt_iff_lt_mul h.sector_pos]
    have : v.bpb.fatSize * v.bpb.bytesPerSector = v.bpb.tableSize := rfl
    omega
  have hcopy := Nat.mul_le_mul_right v.bpb.fatSize (show f + 1 ≤ v.bpb.numFats from hf)
  rw [Nat.add_mul, Nat.one_mul] at hcopy
  have hle := h.data_le
  have hlt := h.sectors_lt
  have hsector : v.fatStart + f * v.bpb.fatSize + c * 4 / v.bpb.bytesPerSector <
      v.bpb.totalSectors := by
    rw [Volume.fatStart]
    omega
  have hsplit := Nat.div_add_mod' (c * 4) v.bpb.bytesPerSector
  have haddr : (v.fatStart + f * v.bpb.fatSize + c * 4 / v.bpb.bytesPerSector) *
      v.bpb.bytesPerSector + c * 4 % v.bpb.bytesPerSector = v.bpb.fatAddr f c := by
    rw [Nat.add_mul, Nat.add_assoc, hsplit, Bpb.fatAddr, Bpb.tableSize, Volume.fatStart]
    ring
  rw [hword, Nat.mod_eq_of_lt (hsector.trans hlt), h.sectorPtr hsector]
  constructor
  · rw [← haddr, Nat.add_sub_cancel]
  · omega

theorem Formatted.readFat (h : v.Formatted) (hc : c < v.totalClusters + 2) :
    v.readFat c = loadLE v.image (v.bpb.fatAddr 0 c) 4 % 2^28 := by
  obtain ⟨hptr, hle⟩ := h.fatPtr h.fats_pos hc
  rw [Nat.zero_mul, Nat.add_zero] at hptr
  simp only [Volume.readFat, hptr]
  rw [Nat.sub_add_cancel hle]

def merged (v : Volume) (c value f : Nat) : Nat :=
  loadLE v.image (v.bpb.fatAddr f c) 4 / 2^28 * 2^28 + value % 2^28

theorem Formatted.writeFatCopy (h : v.Formatted) (hf : f < v.bpb.numFats)
    (hc : c < v.totalClusters + 2) (value : Nat) :
    v.writeFatCopy c value f =
      { v with image := storeLE v.image (v.bpb.fatAddr f c) 4 (v.merged c value f) } := by
  obtain ⟨hptr, hle⟩ := h.fatPtr hf hc
  simp only [Volume.writeFatCopy, hptr, merged]
  rw [Nat.sub_add_cancel hle]

end addresses

section regions

/-- Different entries of the table have no byte in common. -/
theorem Formatted.fatAddr_apart (h : v.Formatted) {f' c' : Nat} (hc : c < v.totalClusters + 2)
    (hc' : c' < v.totalClusters + 2) (hne : (f, c) ≠ (f', c')) :
    v.bpb.fatAddr f c + 4 ≤ v.bpb.fatAddr f' c' ∨ v.bpb.fatAddr f' c' + 4 ≤ v.bpb.fatAddr f c := by
  have hentry := h.entry_lt hc
  have hentry' := h.entry_lt hc'
  simp only [Bpb.fatAddr]
  rcases Nat.lt_trichotomy f f' with hlt | rfl | hlt
  · have := Nat.mul_le_mul_right v.bpb.tableSize (show f + 1 ≤ f' from hlt)
    rw [Nat.add_mul, Nat.one_mul] at this
    omega
  · have : c ≠ c' := fun he => hne (by rw [he])
    omega
  · have := Nat.mul_le_mul_right v.bpb.tableSize (show f' + 1 ≤ f from hlt)
    rw [Nat.add_mul, Nat.one_mul] at this
    omega

theorem Formatted.fatAddr_le (h : v.Formatted) (hf : f < v.bpb.numFats)
    (hc : c < v.totalClusters + 2) : v.bpb.fatAddr f c + 4 ≤ v.bpb.dataAddr := by
  have hentry := h.entry_lt hc
  have := Nat.mul_le_mul_right v.bpb.tableSize (show f + 1 ≤ v.bpb.numFats from hf)
  rw [Nat.add_mul, Nat.one_mul] at this
  simp only [Bpb.fatAddr, Bpb.dataAddr]
  omega

theorem dataAddr_le (b : Bpb) (c : Nat) : b.dataAddr ≤ b.clusterAddr c := Nat.le_add_right _ _

theorem clusterAddr_apart (b : Bpb) {c d : Nat} (hc : 2 ≤ c) (hd : 2 ≤ d) (hne : c ≠ d) :
    b.clusterAddr c + b.clusterSize ≤ b.clusterAddr d ∨
      b.clusterAddr d + b.clusterSize ≤ b.clusterAddr c := by
  simp only [Bpb.clusterAddr]
  rcases Nat.lt_or_gt_of_ne hne with hlt | hlt
  · have := Nat.mul_le_mul_right b.clusterSize (show c - 2 + 1 ≤ d - 2 by omega)
    rw [Nat.add_mul, Nat.one_mul] at this
    omega
  · have := Nat.mul_le_mul_right b.clusterSize (show d - 2 + 1 ≤ c - 2 by omega)
    rw [Nat.add_mul, Nat.one_mul] at this
    omega

theorem slotAddr_le (v : Volume) (hi : i < v.view.slots) :
    v.bpb.slotAddr c i + entrySize ≤ v.bpb.clusterAddr c + v.bpb.clusterSize := by
  have hmul := Nat.mul_le_mul_left entrySize (show i + 1 ≤ v.bytesPerCluster / entrySize from hi)
  have hle := Nat.mul_div_le v.bytesPerCluster entrySize
  rw [Nat.mul_add, Nat.mul_one] at hmul
  have : v.bytesPerCluster = v.bpb.clusterSize := rfl
  rw [Bpb.slotAddr]
  omega

theorem slotAddr_apart (v : Volume) {d j : Nat} (hc : 2 ≤ c) (hd : 2 ≤ d) (hi : i < v.view.slots)
    (hj : j < v.view.slots) (hne : (c, i) ≠ (d, j)) :
    v.bpb.slotAddr c i + entrySize ≤ v.bpb.slotAddr d j ∨
      v.bpb.slotAddr d j + entrySize ≤ v.bpb.slotAddr c i := by
  have hi' := slotAddr_le (c := c) v hi
  have hj' := slotAddr_le (c := d) v hj
  by_cases hcd : c = d
  · subst hcd
    have hij : i ≠ j := fun he => hne (by rw [he])
    simp only [Bpb.slotAddr, entrySize]
    omega
  · have hle : ∀ k e, v.bpb.clusterAddr e ≤ v.bpb.slotAddr e k := fun _ _ => Nat.le_add_right _ _
    have h1 := hle i c
    have h2 := hle j d
    rcases clusterAddr_apart v.bpb hc hd hcd with h | h
    · exact .inl (by omega)
    · exact .inr (by omega)

end regions

section changes

structure Changes (v w : Volume) (P : Nat → Prop) : Prop where
  like : Like v w
  same : ∀ a, ¬ P a → w.image a = v.image a

def Copies (v : Volume) : Prop :=
  ∀ f < v.bpb.numFats, ∀ k < v.bpb.tableSize,
    v.image (v.bpb.fatAddr f 0 + k) = v.image (v.bpb.fatAddr 0 0 + k)

def InCluster (b : Bpb) (c a : Nat) : Prop :=
  b.clusterAddr c ≤ a ∧ a < b.clusterAddr c + b.clusterSize

def InFields (b : Bpb) (c i a : Nat) : Prop :=
  b.slotAddr c i + 20 ≤ a ∧ a < b.slotAddr c i + entrySize

theorem loadLE_of_same {m m' : Mem} {a k : Nat} (h : ∀ j < k, m' (a + j) = m (a + j)) :
    loadLE m' a k = loadLE m a k := loadLE_shift h

theorem readFat_of_same (h : v.Formatted) (hl : Like v w) (hc : c < v.totalClusters + 2)
    (hsame : ∀ j < 4, w.image (v.bpb.fatAddr 0 c + j) = v.image (v.bpb.fatAddr 0 c + j)) :
    w.readFat c = v.readFat c := by
  have hc' : c < w.totalClusters + 2 := hl.totalClusters.symm ▸ hc
  rw [(hl.formatted h).readFat hc', h.readFat hc, hl.bpb, loadLE_of_same hsame]

theorem firstAt_of_same {e : Nat}
    (hsame : ∀ j, 20 ≤ j → j < entrySize → w.image (e + j) = v.image (e + j)) :
    w.firstAt e = v.firstAt e := by
  have h1 : loadLE w.image (e + 20) 2 = loadLE v.image (e + 20) 2 := by
    refine loadLE_of_same fun j hj => ?_
    have := hsame (20 + j) (by omega) (show 20 + j < 32 by omega)
    rwa [← Nat.add_assoc] at this
  have h2 : loadLE w.image (e + 26) 2 = loadLE v.image (e + 26) 2 := by
    refine loadLE_of_same fun j hj => ?_
    have := hsame (26 + j) (by omega) (show 26 + j < 32 by omega)
    rwa [← Nat.add_assoc] at this
  rw [firstAt, firstAt, h1, h2]

theorem Copies.of_same (hv : v.Formatted) (h : v.Copies) (hl : Like v w)
    (hsame : ∀ a, a < v.bpb.dataAddr → w.image a = v.image a) : w.Copies := by
  have hin : ∀ f < v.bpb.numFats, ∀ k < v.bpb.tableSize, v.bpb.fatAddr f 0 + k < v.bpb.dataAddr := by
    intro f hf k hk
    have := Nat.mul_le_mul_right v.bpb.tableSize (show f + 1 ≤ v.bpb.numFats from hf)
    rw [Nat.add_mul, Nat.one_mul] at this
    simp only [Bpb.fatAddr, Bpb.dataAddr]
    omega
  intro f hf k hk
  rw [hl.bpb] at hf hk ⊢
  rw [hsame _ (hin f hf k hk), hsame _ (hin 0 hv.fats_pos k hk)]
  exact h f hf k hk

end changes

section table

structure PutsFat (v w : Volume) (c value : Nat) (fs : List Nat) : Prop where
  like : Like v w
  same : ∀ a, (∀ f ∈ fs, ¬ (v.bpb.fatAddr f c ≤ a ∧ a < v.bpb.fatAddr f c + 4)) →
    w.image a = v.image a
  byte : ∀ f ∈ fs, ∀ j < 4, w.image (v.bpb.fatAddr f c + j) =
    UInt8.ofNat (v.merged c value f / 256^j % 256)

theorem Formatted.foldl_writeFatCopy (h : v.Formatted) (hc : c < v.totalClusters + 2)
    (value : Nat) {fs : List Nat} (hfs : ∀ f ∈ fs, f < v.bpb.numFats) (hnd : fs.Nodup) :
    PutsFat v (fs.foldl (fun v f => v.writeFatCopy c value f) v) c value fs := by
  induction fs generalizing v with
  | nil => exact ⟨Like.rfl, fun _ _ => rfl, fun f hf => absurd hf List.not_mem_nil⟩
  | cons g fs ih =>
    rw [List.foldl_cons, h.writeFatCopy (hfs g List.mem_cons_self) hc value]
    obtain ⟨hg, hnd'⟩ := List.nodup_cons.mp hnd
    have hlike := like_image v (storeLE v.image (v.bpb.fatAddr g c) 4 (v.merged c value g))
    have hrest := ih (hlike.formatted h) hc (fun f hf => hfs f (List.mem_cons_of_mem g hf)) hnd'
    refine ⟨hlike.trans hrest.like, fun a ha => ?_, fun f hf j hj => ?_⟩
    · rw [hrest.same a fun f hf => ha f (List.mem_cons_of_mem g hf)]
      simp only [storeLE, if_neg (ha g List.mem_cons_self)]
    · rcases List.mem_cons.mp hf with rfl | hf'
      · -- the copy that was written first is not written again
        rw [hrest.same]
        · have hin : v.bpb.fatAddr f c ≤ v.bpb.fatAddr f c + j ∧
              v.bpb.fatAddr f c + j < v.bpb.fatAddr f c + 4 := by omega
          simp only [storeLE, if_pos hin, Nat.add_sub_cancel_left]
        · intro f' hf' hin
          have hne : (f, c) ≠ (f', c) := by
            intro he
            cases he
            exact hg hf'
          have := h.fatAddr_apart hc hc hne
          dsimp only at hin
          omega
      · have hne : (f, c) ≠ (g, c) := by
          intro he
          cases he
          exact hg hf'
        rw [hrest.byte f hf' j hj, merged]
        dsimp only
        rw [loadLE_storeLE_disjoint v.image _ (h.fatAddr_apart hc hc hne), ← merged]

theorem Formatted.writeFat (h : v.Formatted) (hc : c < v.totalClusters + 2) (value : Nat) :
    PutsFat v (v.writeFat c value) c value (List.range v.bpb.numFats) :=
  h.foldl_writeFatCopy hc value (fun _ hf => List.mem_range.mp hf) List.nodup_range

variable {value : Nat}

theorem PutsFat.readFat_self (h : PutsFat v w c value (List.range v.bpb.numFats))
    (hv : v.Formatted) (hc : c < v.totalClusters + 2) : w.readFat c = value % 2^28 := by
  have hc' : c < w.totalClusters + 2 := h.like.totalClusters.symm ▸ hc
  have hload : loadLE w.image (v.bpb.fatAddr 0 c) 4 = v.merged c value 0 % 256^4 := by
    refine loadLE_digits _ _ _ _ fun j hj => ?_
    rw [h.byte 0 (List.mem_range.mpr hv.fats_pos) j hj, UInt8.toNat_ofNat']
    exact Nat.mod_eq_of_lt (Nat.mod_lt _ (by decide))
  rw [(h.like.formatted hv).readFat hc', h.like.bpb, hload, Volume.merged]
  omega

theorem PutsFat.readFat_ne (h : PutsFat v w c value (List.range v.bpb.numFats))
    (hv : v.Formatted) (hc : c < v.totalClusters + 2) {d : Nat} (hd : d < v.totalClusters + 2)
    (hne : d ≠ c) : w.readFat d = v.readFat d := by
  refine readFat_of_same hv h.like hd fun j hj => h.same _ fun f hf hin => ?_
  have hpair : (0, d) ≠ (f, c) := by
    intro he
    cases he
    exact hne rfl
  have := hv.fatAddr_apart hd hc hpair
  omega

theorem PutsFat.data (h : PutsFat v w c value (List.range v.bpb.numFats)) (hv : v.Formatted)
    (hc : c < v.totalClusters + 2) {a : Nat} (ha : v.bpb.dataAddr ≤ a) :
    w.image a = v.image a := by
  refine h.same a fun f hf hin => ?_
  have := hv.fatAddr_le (List.mem_range.mp hf) hc
  omega

theorem PutsFat.copies (h : PutsFat v w c value (List.range v.bpb.numFats)) (hv : v.Formatted)
    (hc : c < v.totalClusters + 2) (hcopies : v.Copies) : w.Copies := by
  have hentry := hv.entry_lt hc
  -- every copy holds the same number at this entry
  have hmerged : ∀ f < v.bpb.numFats, v.merged c value f = v.merged c value 0 := by
    intro f hf
    have hload : loadLE v.image (v.bpb.fatAddr f c) 4 = loadLE v.image (v.bpb.fatAddr 0 c) 4 := by
      refine loadLE_shift fun j hj => ?_
      have := hcopies f hf (4 * c + j) (by omega)
      simp only [Bpb.fatAddr, Nat.mul_zero, Nat.add_zero] at this ⊢
      rwa [Nat.add_assoc _ (4 * c) j, Nat.add_assoc _ (4 * c) j]
    rw [merged, merged, hload]
  -- bytes of a copy beside the entry
  have hbeside : ∀ f < v.bpb.numFats, ∀ k < v.bpb.tableSize, ¬ (4 * c ≤ k ∧ k < 4 * c + 4) →
      w.image (v.bpb.fatAddr f 0 + k) = v.image (v.bpb.fatAddr f 0 + k) := by
    intro f hf k hk hout
    refine h.same _ fun g hg hin => ?_
    simp only [Bpb.fatAddr] at hin
    rcases Nat.lt_trichotomy f g with hlt | rfl | hlt
    · have := Nat.mul_le_mul_right v.bpb.tableSize (show f + 1 ≤ g from hlt)
      rw [Nat.add_mul, Nat.one_mul] at this
      omega
    · omega
    · have := Nat.mul_le_mul_right v.bpb.tableSize (show g + 1 ≤ f from hlt)
      rw [Nat.add_mul, Nat.one_mul] at this
      omega
  intro f hf k hk
  rw [h.like.bpb] at hf hk ⊢
  by_cases hin : 4 * c ≤ k ∧ k < 4 * c + 4
  · have hbyte : ∀ g < v.bpb.numFats, w.image (v.bpb.fatAddr g 0 + k) =
        UInt8.ofNat (v.merged c value g / 256^(k - 4 * c) % 256) := by
      intro g hg
      rw [← h.byte g (List.mem_range.mpr hg) (k - 4 * c) (by omega)]
      congr 1
      simp only [Bpb.fatAddr]
      omega
    rw [hbyte f hf, hbyte 0 hv.fats_pos, hmerged f hf]
  · rw [hbeside f hf k hk hin, hbeside 0 hv.fats_pos k hk hin]
    exact hcopies f hf k hk

end table

end Volume

end LosTacOS.Fat
