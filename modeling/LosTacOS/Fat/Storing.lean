import LosTacOS.Fat.Contents
import Mathlib.Data.Finset.Card
import Mathlib.Data.Finset.Range
import Mathlib.Data.List.GetD

/-! What a write puts into a file, byte for byte. -/
namespace LosTacOS.Fat

open ByteMemory

namespace Volume

def freeClusters (v : Volume) : Finset Nat :=
  (Finset.range v.totalClusters).filter fun d => 2 ≤ d ∧ v.readFat d = 0

def freeCount (v : Volume) : Nat := v.freeClusters.card

variable {v w x : Volume} {h k k' : Handle} {c d i j n o pos y : Nat} {l l₂ l₃ : List Nat}
  {bs bs' : List UInt8}

section free

theorem mem_freeClusters : d ∈ v.freeClusters ↔ d < v.totalClusters ∧ 2 ≤ d ∧ v.readFat d = 0 := by
  simp [freeClusters]

theorem freeCount_of_same (hlike : Like v w)
    (hfat : ∀ d, 2 ≤ d → d < v.totalClusters → (w.readFat d = 0 ↔ v.readFat d = 0)) :
    w.freeCount = v.freeCount := by
  unfold freeCount
  congr 1
  ext d
  rw [mem_freeClusters, mem_freeClusters, hlike.totalClusters]
  constructor
  · rintro ⟨hlt, h2, h0⟩
    exact ⟨hlt, h2, (hfat d h2 hlt).mp h0⟩
  · rintro ⟨hlt, h2, h0⟩
    exact ⟨hlt, h2, (hfat d h2 hlt).mpr h0⟩

theorem mem_of_freeCluster (hf : v.freeCluster = some n) : n ∈ v.freeClusters := by
  have hmem := List.mem_range'_1.mp (List.mem_of_find?_eq_some hf)
  have h0 : v.readFat n = 0 := by simpa using List.find?_some hf
  exact mem_freeClusters.mpr ⟨by omega, hmem.1, h0⟩

theorem allocCluster_isSome (hpos : 0 < v.freeCount) : ∃ n w, v.allocCluster = some (n, w) := by
  cases hf : v.freeCluster with
  | none =>
    obtain ⟨d, hd⟩ := Finset.card_pos.mp hpos
    obtain ⟨hlt, h2, h0⟩ := mem_freeClusters.mp hd
    exact absurd h0 (freeCluster_none hf h2 hlt)
  | some n => exact ⟨n, _, by rw [allocCluster, hf, Option.map_some]⟩

theorem Formatted.freeCount_alloc (hv : v.Formatted) (ha : v.allocCluster = some (n, w)) :
    w.freeCount + 1 = v.freeCount := by
  have halloc := hv.allocCluster ha
  obtain ⟨m, hfind, heq⟩ := Option.map_eq_some_iff.mp ha
  have hmn : m = n := (Prod.mk.inj heq).1
  subst hmn
  have hmem := mem_of_freeCluster hfind
  have herase : w.freeClusters = v.freeClusters.erase m := by
    ext d
    rw [Finset.mem_erase, mem_freeClusters, mem_freeClusters, halloc.like.totalClusters]
    by_cases hd : d = m
    · subst hd
      rw [halloc.taken]
      simp [endMark]
    · constructor
      · rintro ⟨hlt, h2, h0⟩
        exact ⟨hd, hlt, h2, by rwa [halloc.rest (by omega) hd] at h0⟩
      · rintro ⟨-, hlt, h2, h0⟩
        exact ⟨hlt, h2, by rwa [halloc.rest (by omega) hd]⟩
  rw [freeCount, freeCount, herase, Finset.card_erase_of_mem hmem]
  have := Finset.card_pos.mpr ⟨m, hmem⟩
  omega

end free

section stored

/-- The bytes of the file are those that it had, with `bs` from `pos` on, and zeros where it is
longer now. -/
structure Stored (v : Volume) (l : List Nat) (w : Volume) (l₂ : List Nat) (pos : Nat)
    (bs : List UInt8) : Prop where
  longer : l.length ≤ l₂.length
  size : w.bytesPerCluster = v.bytesPerCluster
  byte : ∀ q < l₂.length * v.bytesPerCluster, w.byteAt l₂ q =
    if pos ≤ q ∧ q < pos + bs.length then bs.getD (q - pos) 0
    else if q < l.length * v.bytesPerCluster then v.byteAt l q else 0

theorem Stored.refl (v : Volume) (l : List Nat) (pos : Nat) : Stored v l v l pos [] := by
  refine ⟨Nat.le_refl _, rfl, fun q hq => ?_⟩
  rw [if_neg (by simp), if_pos hq]

theorem Stored.trans (h1 : Stored v l w l₂ pos bs) (h2 : Stored w l₂ x l₃ (pos + bs.length) bs')
    (hin : pos + bs.length ≤ l₂.length * v.bytesPerCluster) :
    Stored v l x l₃ pos (bs ++ bs') := by
  refine ⟨h1.longer.trans h2.longer, h2.size.trans h1.size, fun q hq => ?_⟩
  have hlong := Nat.mul_le_mul_right v.bytesPerCluster h1.longer
  rw [h2.byte q (h1.size.symm ▸ hq), h1.size, List.length_append]
  by_cases hnew : pos + bs.length ≤ q ∧ q < pos + bs.length + bs'.length
  · rw [if_pos hnew, if_pos (by omega), List.getD_append_right _ _ _ _ (by omega)]
    congr 1
    omega
  · rw [if_neg hnew]
    by_cases hold : pos ≤ q ∧ q < pos + bs.length
    · rw [if_pos (by omega), if_pos (by omega), h1.byte q (by omega), if_pos hold,
        List.getD_append _ _ _ _ (by omega)]
    · have hout : ¬ (pos ≤ q ∧ q < pos + (bs.length + bs'.length)) := by omega
      rw [if_neg hout]
      by_cases hq2 : q < l₂.length * v.bytesPerCluster
      · rw [if_pos hq2, h1.byte q hq2, if_neg hold]
      · rw [if_neg hq2, if_neg (by omega)]

/-- A byte of a file is the byte of one of its clusters. -/
theorem byteAt_eq (hq : q < l.length * v.bytesPerCluster) :
    ∃ j y, l[j]? = some y ∧ q = j * v.bytesPerCluster + q % v.bytesPerCluster ∧
      j < l.length ∧ v.byteAt l q = v.image (v.bpb.clusterAddr y + q % v.bytesPerCluster) := by
  have hpos : 0 < v.bytesPerCluster := by
    by_contra h0
    rw [show v.bytesPerCluster = 0 by omega] at hq
    omega
  have hlt : q / v.bytesPerCluster < l.length := Nat.div_lt_of_lt_mul (by rwa [Nat.mul_comm])
  refine ⟨q / v.bytesPerCluster, l[q / v.bytesPerCluster], List.getElem?_eq_getElem hlt, ?_, hlt, ?_⟩
  · have := Nat.div_add_mod q v.bytesPerCluster
    rw [Nat.mul_comm] at this
    omega
  · rw [byteAt, List.getD_eq_getElem?_getD, List.getElem?_eq_getElem hlt, Option.getD_some]

end stored

section size

theorem sizeAt_of_same {e : Nat}
    (hsame : ∀ m, 28 ≤ m → m < entrySize → w.image (e + m) = v.image (e + m)) :
    w.sizeAt e = v.sizeAt e := by
  refine loadLE_of_same fun m hm => ?_
  have := hsame (28 + m) (by omega) (show 28 + m < 32 by omega)
  rwa [← Nat.add_assoc] at this

/-- Taking a cluster leaves the sizes in the directories alone. -/
theorem Allocs.sizeAt (ha : Allocs v w n) (hwf : v.view.WellFormed) (he : v.view.Entry c i) :
    w.sizeAt (v.bpb.slotAddr c i) = v.sizeAt (v.bpb.slotAddr c i) := by
  obtain ⟨hdir, hi⟩ := he.dirCluster
  refine sizeAt_of_same fun m _ hm => ?_
  have hin := @slot_inCluster v c i m hi hm
  refine ha.data (inCluster_data hin) fun hin' => ?_
  have heq := InCluster.unique hdir.inRange.1 ha.inRange.1 hin hin'
  subst heq
  exact hdir.fat_ne hwf ha.free

structure Sized (v : Volume) (h : Handle) : Prop where
  size : h.fileSize = v.sizeAt h.dirEntry
  le : h.offset ≤ h.fileSize

end size

structure Progress (c i : Nat) (v : Volume) (h : Handle) (l : List Nat) (w : Volume) (k : Handle)
    (l₂ : List Nat) (bs : List UInt8) : Prop where
  moved : Moved c i v h w k
  runs : w.view.Runs (w.view.first c i) l₂
  stored : Stored v l w l₂ h.offset bs
  offset : k.offset = h.offset + bs.length
  free : w.freeCount + l₂.length = v.freeCount + l.length
  sized : Sized v h → h.offset + bs.length < word → Sized w k ∧ k.fileSize = max h.fileSize k.offset

theorem Progress.refl (hf : OnFile v h c i) (hwf : v.view.WellFormed)
    (hl : v.view.Runs (v.view.first c i) l) : Progress c i v h l v h l [] := by
  refine ⟨Moved.refl hf hwf, hl, Stored.refl v l _, rfl, rfl, fun hs _ => ⟨hs, ?_⟩⟩
  have := hs.le
  omega

theorem Progress.trans (h1 : Progress c i v h l w k l₂ bs) (h2 : Progress c i w k l₂ x k' l₃ bs')
    (hin : h.offset + bs.length ≤ l₂.length * v.bytesPerCluster) :
    Progress c i v h l x k' l₃ (bs ++ bs') := by
  have hstored := h2.stored
  rw [h1.offset] at hstored
  have hoff1 := h1.offset
  have hoff2 := h2.offset
  refine ⟨h1.moved.trans h2.moved, h2.runs, h1.stored.trans hstored hin, ?_, ?_, fun hs hlt => ?_⟩
  · rw [List.length_append]
    omega
  · have hfree1 := h1.free
    have hfree2 := h2.free
    omega
  · rw [List.length_append] at hlt
    obtain ⟨hs1, hmax1⟩ := h1.sized hs (by omega)
    obtain ⟨hs2, hmax2⟩ := h2.sized hs1 (by omega)
    exact ⟨hs2, by omega⟩

section moves

theorem OnFile.slot_apart {m : Nat} (hf : OnFile v h c i) (hwf : v.view.WellFormed)
    (hl : v.view.Runs (v.view.first c i) l) (hy : y ∈ l) (hm : m < entrySize) :
    ¬ InCluster v.bpb y (v.bpb.slotAddr c i + m) := by
  intro hin
  obtain ⟨hdir, hi⟩ := hf.entry.dirCluster
  have heq := InCluster.unique (hl.inRange y hy).1 hdir.inRange.1 hin (slot_inCluster hi hm)
  subst heq
  exact hwf.not_dirCluster hf.entry hf.file hl hy hdir

theorem OnFile.not_fields {a : Nat} (hf : OnFile v h c i) (hwf : v.view.WellFormed)
    (hl : v.view.Runs (v.view.first c i) l) (hy : y ∈ l) (hin : InCluster v.bpb y a) :
    ¬ InFields v.bpb c i a := by
  intro hfield
  obtain ⟨h1, h2⟩ := hfield
  have hout := hf.slot_apart hwf hl hy (show a - v.bpb.slotAddr c i < entrySize by omega)
  rw [show v.bpb.slotAddr c i + (a - v.bpb.slotAddr c i) = a by omega] at hout
  exact hout hin

theorem stored_chunk (hv : v.Formatted) (hl : v.view.Runs n l) (hj : l[j]? = some h.currCluster)
    (hle : h.offset % v.bytesPerCluster + bs.length ≤ v.bytesPerCluster)
    (hoff : h.offset = j * v.bytesPerCluster + h.offset % v.bytesPerCluster) (hlike : Like v w)
    (himage : ∀ y ∈ l, ∀ a, InCluster v.bpb y a → w.image a = ByteMemory.storeBytes v.image
      (v.bpb.clusterAddr h.currCluster + h.offset % v.bytesPerCluster) bs a) :
    Stored v l w l h.offset bs := by
  refine ⟨Nat.le_refl _, hlike.bytesPerCluster, fun q hq => ?_⟩
  obtain ⟨j', y, hj', hsplit, hlt, hbyte⟩ := byteAt_eq hq
  have hpos := hv.bytesPerCluster_pos
  have hmod := Nat.mod_lt q hpos
  have hin : InCluster v.bpb y (v.bpb.clusterAddr y + q % v.bytesPerCluster) :=
    ⟨by omega, Nat.add_lt_add_left hmod _⟩
  have hw : w.byteAt l q = w.image (v.bpb.clusterAddr y + q % v.bytesPerCluster) := by
    have hat : w.byteAt l (j' * w.bytesPerCluster + q % v.bytesPerCluster) = _ :=
      byteAt_cluster hj' (hlike.bytesPerCluster.symm ▸ hmod)
    rwa [hlike.bytesPerCluster, ← hsplit, hlike.bpb] at hat
  rw [hw, himage y (List.mem_of_getElem? hj') _ hin, if_pos hq, hbyte]
  by_cases hjj : j' = j
  · subst hjj
    rw [hj] at hj'
    cases hj'
    by_cases hnew : h.offset ≤ q ∧ q < h.offset + bs.length
    · rw [if_pos hnew, ByteMemory.storeBytes, if_pos (by omega)]
      congr 1
      omega
    · rw [if_neg hnew, storeBytes_out (by omega)]
  · -- another cluster of the file
    have hne : y ≠ h.currCluster := by
      rintro rfl
      exact hjj (hl.chain.index_unique hj' hj)
    have hapart := clusterAddr_apart v.bpb (hl.inRange y (List.mem_of_getElem? hj')).1
      (hl.inRange _ (List.mem_of_getElem? hj)).1 hne
    have hsize : v.bytesPerCluster = v.bpb.clusterSize := rfl
    have hfar : ¬ (h.offset ≤ q ∧ q < h.offset + bs.length) := by
      rcases Nat.lt_or_gt_of_ne hjj with hlt' | hlt'
      · have := Nat.mul_le_mul_right v.bytesPerCluster (show j' + 1 ≤ j from hlt')
        rw [Nat.add_mul, Nat.one_mul] at this
        omega
      · have := Nat.mul_le_mul_right v.bytesPerCluster (show j + 1 ≤ j' from hlt')
        rw [Nat.add_mul, Nat.one_mul] at this
        omega
    rw [if_neg hfar, storeBytes_out (by omega)]

/-- A chunk only touches the handle's cluster and the size in the directory. -/
theorem OnFile.chunk_changes (hf : OnFile v h c i) (bs : List UInt8) :
    Like v (v.writeChunk h (v.bpb.clusterAddr h.currCluster) bs).1 ∧
      ∀ a, ¬ InFields v.bpb c i a →
        (v.writeChunk h (v.bpb.clusterAddr h.currCluster) bs).1.image a = ByteMemory.storeBytes v.image
          (v.bpb.clusterAddr h.currCluster + h.offset % v.bytesPerCluster) bs a := by
  unfold Volume.writeChunk Volume.grow
  dsimp only
  split
  · rw [hf.dirEntry]
    generalize ByteMemory.storeBytes v.image
      (v.bpb.clusterAddr h.currCluster + h.offset % v.bytesPerCluster) bs = image
    have hset := setSize_changes { v with image } c i ((h.offset + bs.length) % word)
    exact ⟨⟨rfl, rfl⟩, fun a ha => hset.same a ha⟩
  · exact ⟨⟨rfl, rfl⟩, fun _ _ => rfl⟩

theorem OnFile.sized_chunk (hf : OnFile v h c i) (hwf : v.view.WellFormed)
    (hl : v.view.Runs (v.view.first c i) l) (hmem : h.currCluster ∈ l)
    (hle : h.offset % v.bytesPerCluster + bs.length ≤ v.bytesPerCluster) (hs : Sized v h)
    (hlt : h.offset + bs.length < word) :
    Sized (v.writeChunk h (v.bpb.clusterAddr h.currCluster) bs).1
        (v.writeChunk h (v.bpb.clusterAddr h.currCluster) bs).2 ∧
      (v.writeChunk h (v.bpb.clusterAddr h.currCluster) bs).2.fileSize =
        max h.fileSize (v.writeChunk h (v.bpb.clusterAddr h.currCluster) bs).2.offset := by
  have hsize : v.bytesPerCluster = v.bpb.clusterSize := rfl
  have hkeep : loadLE (ByteMemory.storeBytes v.image
      (v.bpb.clusterAddr h.currCluster + h.offset % v.bytesPerCluster) bs) (h.dirEntry + 28) 4 =
      v.sizeAt h.dirEntry := by
    refine loadLE_of_same fun m hm => storeBytes_out ?_
    have hout := hf.slot_apart hwf hl hmem (show 28 + m < entrySize by simp only [entrySize]; omega)
    rw [← hf.dirEntry] at hout
    simp only [InCluster] at hout
    omega
  have hfs := hs.size
  unfold Volume.writeChunk Volume.grow
  dsimp only
  rw [Nat.mod_eq_of_lt hlt]
  split
  · rename_i hgrow
    refine ⟨⟨?_, Nat.le_refl _⟩, by simp only; omega⟩
    simp only [sizeAt, setSize]
    rw [loadLE_storeLE_same, Nat.mod_eq_of_lt]
    exact hlt
  · refine ⟨⟨?_, by simp only; omega⟩, by simp only; omega⟩
    simp only [sizeAt]
    rw [hkeep]
    exact hfs

theorem OnFile.progress_chunk (hf : OnFile v h c i) (hv : v.Formatted) (hwf : v.view.WellFormed)
    (hl : v.view.Runs (v.view.first c i) l) (hj : l[j]? = some h.currCluster)
    (hle : h.offset % v.bytesPerCluster + bs.length ≤ v.bytesPerCluster)
    (hoff : h.offset = j * v.bytesPerCluster + h.offset % v.bytesPerCluster) :
    Progress c i v h l (v.writeChunk h (v.bpb.clusterAddr h.currCluster) bs).1
      (v.writeChunk h (v.bpb.clusterAddr h.currCluster) bs).2 l bs := by
  have hmem := List.mem_of_getElem? hj
  have hm := hf.writeChunk hv hwf hle
  obtain ⟨hlike, himage⟩ := hf.chunk_changes bs
  have hsized := hf.sized_chunk hwf hl hmem hle
  have hoffset : (v.writeChunk h (v.bpb.clusterAddr h.currCluster) bs).2.offset =
      h.offset + bs.length := by
    unfold Volume.writeChunk Volume.grow
    split <;> rfl
  generalize v.writeChunk h (v.bpb.clusterAddr h.currCluster) bs = r at hm hlike himage hsized hoffset ⊢
  obtain ⟨hdir, hi⟩ := hf.entry.dirCluster
  have hsize : v.bytesPerCluster = v.bpb.clusterSize := rfl
  have hdata : ∀ a, a < v.bpb.dataAddr → r.1.image a = v.image a := by
    intro a ha
    rw [himage a fun hin => ?_, storeBytes_out]
    · have := dataAddr_le v.bpb h.currCluster
      omega
    · have := inCluster_data (hin.inCluster hi)
      omega
  have hfat : ∀ d < v.totalClusters + 2, r.1.readFat d = v.readFat d := by
    intro d hd
    refine readFat_of_same hv hlike hd fun m hm => hdata _ ?_
    have := hv.fatAddr_le hv.fats_pos hd
    omega
  refine ⟨hm, ?_, stored_chunk hv hl hj hle hoff hlike fun y hy a ha => himage a ?_, hoffset, ?_,
    hsized⟩
  · rw [hm.volume.fixed hf.first_ne]
    exact hl.carry hlike.view_limit fun d hd => hfat d (hl.inRange d hd).2
  · exact hf.not_fields hwf hl hy ha
  · rw [freeCount_of_same hlike fun d _ hd => by rw [hfat d (by omega)]]

theorem Allocs.stored_link (ha : Allocs v w n) (hv : v.Formatted) (hl : v.view.Runs c l)
    (hlike : Like w x)
    (hdata : ∀ y ∈ l ++ [n], ∀ a, InCluster v.bpb y a → x.image a = w.image a) (pos : Nat) :
    Stored v l x (l ++ [n]) pos [] := by
  have hsize : x.bytesPerCluster = v.bytesPerCluster :=
    hlike.bytesPerCluster.trans ha.like.bytesPerCluster
  have hbpb : x.bpb = v.bpb := hlike.bpb.trans ha.like.bpb
  have hpos := hv.bytesPerCluster_pos
  refine ⟨by simp, hsize, fun q hq => ?_⟩
  rw [if_neg (by simp)]
  rw [← hsize] at hq
  obtain ⟨j, y, hj, hsplit, -, hbyte⟩ := byteAt_eq hq
  rw [hbyte, hbpb, hsize]
  rw [hsize] at hsplit
  have hmod := Nat.mod_lt q hpos
  have hin : InCluster v.bpb y (v.bpb.clusterAddr y + q % v.bytesPerCluster) :=
    ⟨by omega, Nat.add_lt_add_left hmod _⟩
  rw [hdata y (List.mem_of_getElem? hj) _ hin]
  by_cases hold : j < l.length
  · have hj' : l[j]? = some y := by rwa [List.getElem?_append_left hold] at hj
    have hmem := List.mem_of_getElem? hj'
    have hne : y ≠ n := by
      rintro rfl
      exact hl.fat_ne hmem ha.free
    have hlt := Nat.mul_le_mul_right v.bytesPerCluster (show j + 1 ≤ l.length from hold)
    rw [Nat.add_mul, Nat.one_mul] at hlt
    rw [ha.data (inCluster_data hin) fun hin' =>
      hne (InCluster.unique (hl.inRange y hmem).1 ha.inRange.1 hin hin'), if_pos (by omega)]
    have hat := @byteAt_cluster v j (q % v.bytesPerCluster) y l hj' hmod
    rw [← hsplit] at hat
    exact hat.symm
  · have hj' : ([n] : List Nat)[j - l.length]? = some y := by
      rwa [List.getElem?_append_right (by omega)] at hj
    have hy : y = n := by
      have := List.mem_of_getElem? hj'
      exact List.mem_singleton.mp this
    subst hy
    have hge := Nat.mul_le_mul_right v.bytesPerCluster (show l.length ≤ j by omega)
    rw [ha.zero hin, if_neg (by omega)]

theorem OnFile.progress_next (hf : OnFile v h c i) (hv : v.Formatted) (hwf : v.view.WellFormed)
    (hl : v.view.Runs (v.view.first c i) l) (hj : l[j]? = some h.currCluster)
    (hs : v.nextCluster h = some (w, k)) :
    ∃ l₂, Progress c i v h l w k l₂ [] ∧ l₂[j + 1]? = some k.currCluster := by
  have hm := hf.nextCluster hv hwf hs
  have hmem := List.mem_of_getElem? hj
  have hnext := hl.chain.next_getElem? hj
  unfold Volume.nextCluster at hs
  split at hs
  · rename_i hlast
    obtain ⟨⟨n, u⟩, ha, he⟩ := Option.map_eq_some_iff.mp hs
    cases he
    have halloc := hv.allocCluster ha
    have hu := halloc.like.formatted hv
    have hlt := (halloc.like.inRange.mpr (hl.inRange _ hmem)).2
    have hput := hu.writeFat hlt n
    obtain ⟨hx, hruns⟩ := halloc.extends_link hput hv hwf hf.entry hf.file hl hmem hlast
    have hdata : ∀ a, v.bpb.dataAddr ≤ a → (u.writeFat h.currCluster n).image a = u.image a :=
      fun a ha => hput.data hu hlt (halloc.like.bpb.symm ▸ ha)
    have hend : l.length = j + 1 := by
      have hnone : v.view.next h.currCluster = none := if_pos hlast
      rw [hnone] at hnext
      have := List.getElem?_eq_none_iff.mp hnext.symm
      have := (List.getElem?_eq_some_iff.mp hj).1
      omega
    have hn0 : n ≠ 0 := by
      have := halloc.inRange.1
      omega
    refine ⟨l ++ [n], ⟨hm, ?_, halloc.stored_link hv hl hput.like
      (fun y _ a hin => hdata a (inCluster_data hin)) _, rfl, ?_, fun hsz _ => ?_⟩, ?_⟩
    · rw [hx.fixed hf.first_ne]
      exact hruns
    · have hsame : (u.writeFat h.currCluster n).freeCount = u.freeCount := by
        refine freeCount_of_same hput.like fun d h2 hd => ?_
        by_cases hdy : d = h.currCluster
        · subst hdy
          have hn28 : n < 2^28 := lt_of_lt_of_le halloc.inRange.2 (hv.marks.trans (by decide))
          rw [hput.readFat_self hu hlt, Nat.mod_eq_of_lt hn28]
          refine iff_of_false hn0 (halloc.used (hl.inRange _ hmem) (hl.fat_ne hmem))
        · rw [hput.readFat_ne hu hlt (by omega) hdy]
      have hless := hv.freeCount_alloc ha
      rw [hsame, List.length_append, List.length_singleton]
      omega
    · refine ⟨⟨?_, hsz.le⟩, ?_⟩
      · have hkeep : (u.writeFat h.currCluster n).sizeAt h.dirEntry = v.sizeAt h.dirEntry := by
          rw [hf.dirEntry, ← halloc.sizeAt hwf hf.entry]
          exact sizeAt_of_same fun m _ hm =>
            hdata _ (inCluster_data (slot_inCluster hf.entry.dirCluster.2 hm))
        simp only [hkeep]
        exact hsz.size
      · have := hsz.le
        simp only
        omega
    · rw [← hend, List.getElem?_append_right (Nat.le_refl _), Nat.sub_self]
      rfl
  · rename_i hnot
    cases hs
    have hsome : v.view.next h.currCluster = some (v.readFat h.currCluster) := if_neg hnot
    refine ⟨l, ⟨hm, hl, Stored.refl v l _, rfl, rfl, fun hsz _ => ⟨⟨hsz.size, hsz.le⟩, ?_⟩⟩, ?_⟩
    · have := hsz.le
      simp only
      omega
    · rw [← hnext, hsome]

theorem writeLoop_nil (fuel : Nat) (v : Volume) (h : Handle) (written : Nat) :
    Volume.writeLoop fuel v h [] written = (written, v, h) := by
  cases fuel with
  | zero => rfl
  | succ fuel => rw [Volume.writeLoop, if_pos rfl]

/-- There is a next cluster as long as the chain goes on or a cluster is free. -/
theorem nextCluster_isSome (hl : v.view.Runs n l) (hj : l[j]? = some h.currCluster)
    (hroom : j + 1 < l.length + v.freeCount) : ∃ w k, v.nextCluster h = some (w, k) := by
  unfold Volume.nextCluster
  split
  · rename_i hlast
    have hnone : v.view.next h.currCluster = none := if_pos hlast
    rw [hl.chain.next_getElem? hj] at hnone
    have hend := List.getElem?_eq_none_iff.mp hnone
    obtain ⟨n, u, ha⟩ := allocCluster_isSome (show 0 < v.freeCount by omega)
    exact ⟨_, _, by rw [ha, Option.map_some]⟩
  · exact ⟨_, _, rfl⟩

theorem writeChunk_currCluster (v : Volume) (h : Handle) (a : Nat) (bs : List UInt8) :
    (v.writeChunk h a bs).2.currCluster = h.currCluster := by
  unfold Volume.writeChunk Volume.grow
  split <;> rfl

/-- The chunk of a round is what is left of the cluster, or of the buffer. -/
theorem chunk_fits {buf : List UInt8} (hpos : 0 < v.bytesPerCluster) :
    (buf.take (v.chunk h buf.length)).length = v.chunk h buf.length ∧
      h.offset % v.bytesPerCluster + v.chunk h buf.length ≤ v.bytesPerCluster ∧
      (h.offset % v.bytesPerCluster + v.chunk h buf.length = v.bytesPerCluster ∨
        v.chunk h buf.length = buf.length) := by
  have hmod := Nat.mod_lt h.offset hpos
  have hk : v.chunk h buf.length =
    min (v.bytesPerCluster - h.offset % v.bytesPerCluster) buf.length := rfl
  generalize v.chunk h buf.length = n at hk ⊢
  rw [List.length_take]
  omega

/-- A round that fills its cluster while there is more to write goes on in the next one. -/
theorem OnFile.progress_round {bs : List UInt8} (hf : OnFile v h c i)
    (hv : v.Formatted) (hwf : v.view.WellFormed) (hl : v.view.Runs (v.view.first c i) l)
    (hj : l[j]? = some h.currCluster)
    (hoff : h.offset = j * v.bytesPerCluster + h.offset % v.bytesPerCluster)
    (hfull : h.offset % v.bytesPerCluster + bs.length = v.bytesPerCluster)
    (hmore : j + 1 < l.length + v.freeCount) :
    ∃ x k' l', (v.writeChunk h (v.bpb.clusterAddr h.currCluster) bs).1.nextCluster
        (v.writeChunk h (v.bpb.clusterAddr h.currCluster) bs).2 = some (x, k') ∧
      Progress c i v h l x k' l' bs ∧ l'[j + 1]? = some k'.currCluster := by
  have hp := hf.progress_chunk hv hwf hl hj (Nat.le_of_eq hfull) hoff
  have hcurr := writeChunk_currCluster v h (v.bpb.clusterAddr h.currCluster) bs
  generalize v.writeChunk h (v.bpb.clusterAddr h.currCluster) bs = r at hp hcurr ⊢
  obtain ⟨w, k⟩ := r
  have hw := hp.moved.volume.like.formatted hv
  have hfree := hp.free
  simp only at hp hcurr hw hfree ⊢
  rw [← hcurr] at hj
  obtain ⟨x, k', hnext⟩ := nextCluster_isSome hp.runs hj (by omega)
  obtain ⟨l', hp', hj'⟩ := hp.moved.onFile.progress_next hw hp.moved.volume.wellFormed hp.runs hj
    hnext
  have hlt := (List.getElem?_eq_some_iff.mp hj).1
  have hcap := Nat.mul_le_mul_right v.bytesPerCluster (show j + 1 ≤ l.length from hlt)
  rw [Nat.add_mul, Nat.one_mul] at hcap
  have hboth := hp.trans hp' (by omega)
  rw [List.append_nil] at hboth
  exact ⟨x, k', l', hnext, hboth, hj'⟩

/-- With room enough the loop of `fat32_write` writes all of its buffer, at the handle's place. -/
theorem OnFile.progress_loop {fuel written : Nat} {buf : List UInt8} (hf : OnFile v h c i)
    (hv : v.Formatted) (hwf : v.view.WellFormed) (hl : v.view.Runs (v.view.first c i) l)
    (hj : l[j]? = some h.currCluster)
    (hoff : h.offset = j * v.bytesPerCluster + h.offset % v.bytesPerCluster)
    (hfuel : buf.length ≤ fuel)
    (hroom : h.offset + buf.length ≤ (l.length + v.freeCount) * v.bytesPerCluster) :
    ∃ l₂, (Volume.writeLoop fuel v h buf written).1 = written + buf.length ∧
      Progress c i v h l (Volume.writeLoop fuel v h buf written).2.1
        (Volume.writeLoop fuel v h buf written).2.2 l₂ buf ∧
      (buf ≠ [] → l₂[(h.offset + buf.length - 1) / v.bytesPerCluster]? =
        some (Volume.writeLoop fuel v h buf written).2.2.currCluster) := by
  induction fuel generalizing v h l j buf written with
  | zero =>
    have hnil : buf = [] := List.eq_nil_of_length_eq_zero (by omega)
    subst hnil
    exact ⟨l, rfl, Progress.refl hf hwf hl, fun hne => absurd rfl hne⟩
  | succ fuel ih =>
    by_cases hbuf : buf = []
    · subst hbuf
      rw [writeLoop_nil]
      exact ⟨l, rfl, Progress.refl hf hwf hl, fun hne => absurd rfl hne⟩
    · have hpos := hv.bytesPerCluster_pos
      have hmod := Nat.mod_lt h.offset hpos
      have hlen : 0 < buf.length := List.length_pos_of_ne_nil hbuf
      rw [Volume.writeLoop, if_neg hbuf, hf.clusterPtr hv]
      dsimp only
      obtain ⟨htake, hle, hcase⟩ := @chunk_fits v h buf hpos
      generalize v.chunk h buf.length = n at htake hle hcase ⊢
      have hp := hf.progress_chunk hv hwf hl hj (by rw [htake]; exact hle) hoff
      have hoffk := hp.offset
      have hkmod := @add_mod_of_le n h.offset v.bytesPerCluster hle
      rw [htake] at hoffk
      rw [← hoffk] at hkmod
      by_cases hall : n = buf.length
      · -- the buffer ends in this cluster
        have hnil : buf.drop n = [] := List.drop_eq_nil_of_le (by omega)
        rw [hnil, if_neg fun hgo => hgo.2 rfl, writeLoop_nil]
        rw [List.take_of_length_le (by omega)] at hp ⊢
        refine ⟨l, by simp only; omega, hp, fun _ => ?_⟩
        have hdiv : (h.offset + buf.length - 1) / v.bytesPerCluster = j := by
          rw [show h.offset + buf.length - 1 =
            h.offset % v.bytesPerCluster + buf.length - 1 + j * v.bytesPerCluster by omega,
            Nat.add_mul_div_right _ _ hpos, Nat.div_eq_of_lt (by omega), Nat.zero_add]
        rw [hdiv, writeChunk_currCluster]
        exact hj
      · have hfull := hcase.resolve_right hall
        have hn : n < buf.length := by
          rw [List.length_take] at htake
          omega
        have hdrop : buf.drop n ≠ [] :=
          List.ne_nil_of_length_pos (by rw [List.length_drop]; omega)
        rw [if_pos hfull] at hkmod
        rw [if_pos ⟨hkmod, hdrop⟩]
        have hmore : j + 1 < l.length + v.freeCount := by
          have hlt : (j + 1) * v.bytesPerCluster < (l.length + v.freeCount) * v.bytesPerCluster := by
            rw [Nat.add_mul, Nat.one_mul]
            omega
          exact Nat.lt_of_mul_lt_mul_right hlt
        obtain ⟨x, k', l', hnext, hp', hj'⟩ := hf.progress_round hv hwf hl hj hoff
          (by rw [htake]; exact hfull) hmore
        rw [hnext]
        have hoffk' := hp'.offset
        have hfree' := hp'.free
        have hsize' := hp'.stored.size
        rw [htake] at hoffk'
        have hk'off : k'.offset = (j + 1) * x.bytesPerCluster + k'.offset % x.bytesPerCluster := by
          have hzero : k'.offset % v.bytesPerCluster = 0 := by
            rw [hoffk', ← hoffk]
            exact hkmod
          rw [hsize', hzero, Nat.add_mul, Nat.one_mul]
          omega
        have hroom' : k'.offset + (buf.drop n).length ≤
            (l'.length + x.freeCount) * x.bytesPerCluster := by
          rw [hsize', show l'.length + x.freeCount = l.length + v.freeCount by omega,
            List.length_drop]
          omega
        obtain ⟨l₂, hcount, hp₂, hplace⟩ := @ih x k' (j + 1) l' (written + n) (buf.drop n)
          hp'.moved.onFile (hp'.moved.volume.like.formatted hv) hp'.moved.volume.wellFormed hp'.runs
          hj' hk'off (by rw [List.length_drop]; omega) hroom'
        have hin : h.offset + (buf.take n).length ≤ l'.length * v.bytesPerCluster := by
          have hlt := (List.getElem?_eq_some_iff.mp hj').1
          have hcap := Nat.mul_le_mul_right v.bytesPerCluster (show j + 1 ≤ l'.length by omega)
          rw [Nat.add_mul, Nat.one_mul] at hcap
          omega
        have hboth := hp'.trans hp₂ hin
        rw [List.take_append_drop] at hboth
        refine ⟨l₂, ?_, hboth, fun _ => ?_⟩
        · rw [hcount, List.length_drop]
          omega
        · have hlast := hplace hdrop
          rw [hsize', List.length_drop, show k'.offset + (buf.length - n) - 1 =
            h.offset + buf.length - 1 by omega] at hlast
          exact hlast

end moves

end Volume

end LosTacOS.Fat
