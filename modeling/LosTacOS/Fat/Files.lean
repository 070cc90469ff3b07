import LosTacOS.Fat.Writing

/-! Handles and the loops of reading and writing. -/
namespace LosTacOS.Fat

open ByteMemory

namespace Volume

variable {v w : Volume} {h k : Handle} {c i n y : Nat} {l : List Nat}

section fields

theorem setSize_changes (v : Volume) (c i n : Nat) :
    Changes v (v.setSize (v.bpb.slotAddr c i) n) (InFields v.bpb c i) := by
  refine ⟨like_image _ _, fun a hout => ?_⟩
  simp only [setSize, storeLE]
  refine if_neg fun hin => hout ?_
  exact ⟨by omega, by simp only [entrySize]; omega⟩

theorem setSize_first (v : Volume) (c i n : Nat) :
    (v.setSize (v.bpb.slotAddr c i) n).view.first c i = v.view.first c i := by
  show firstAt _ (v.bpb.slotAddr c i) = firstAt v (v.bpb.slotAddr c i)
  simp only [setSize, firstAt]
  rw [loadLE_storeLE_disjoint v.image n (.inl (by omega)),
    loadLE_storeLE_disjoint v.image n (.inl (by omega))]

theorem setFirst_changes (v : Volume) (c i n : Nat) :
    Changes v (v.setFirst (v.bpb.slotAddr c i) n) (InFields v.bpb c i) := by
  refine ⟨like_image _ _, fun a hout => ?_⟩
  have h20 : ¬ (v.bpb.slotAddr c i + 20 ≤ a ∧ a < v.bpb.slotAddr c i + 20 + 2) := fun hin =>
    hout ⟨by omega, by simp only [entrySize]; omega⟩
  have h26 : ¬ (v.bpb.slotAddr c i + 26 ≤ a ∧ a < v.bpb.slotAddr c i + 26 + 2) := fun hin =>
    hout ⟨by omega, by simp only [entrySize]; omega⟩
  simp only [setFirst, storeLE, if_neg h20, if_neg h26]

theorem setFirst_first (v : Volume) (c i : Nat) (hn : n < word) :
    (v.setFirst (v.bpb.slotAddr c i) n).view.first c i = n := by
  show firstAt _ (v.bpb.slotAddr c i) = n
  simp only [setFirst, firstAt]
  rw [loadLE_storeLE_same, loadLE_storeLE_disjoint _ _ (.inr (by omega)), loadLE_storeLE_same]
  have : word = 2^16 * 2^16 := rfl
  omega

end fields

/-- A handle of the file with the entry `i` of `c`; its cluster is one of the file. -/
structure OnFile (v : Volume) (h : Handle) (c i : Nat) : Prop where
  entry : v.view.Entry c i
  file : isDirectory (v.view.attr c i) = false
  dirEntry : h.dirEntry = v.bpb.slotAddr c i
  curr : ∃ l, v.view.Runs (v.view.first c i) l ∧ h.currCluster ∈ l

structure Steady (h k : Handle) : Prop where
  first : k.firstCluster = h.firstCluster
  entry : k.dirEntry = h.dirEntry
  isDir : k.isDir = h.isDir

theorem Steady.trans {k' : Handle} (h1 : Steady h k) (h2 : Steady k k') : Steady h k' :=
  ⟨h2.first.trans h1.first, h2.entry.trans h1.entry, h2.isDir.trans h1.isDir⟩

theorem OnFile.clusterPtr (hf : OnFile v h c i) (hv : v.Formatted) :
    v.clusterPtr h.currCluster = some (v.bpb.clusterAddr h.currCluster) := by
  obtain ⟨l, hl, hmem⟩ := hf.curr
  exact hv.clusterPtr (hl.inRange _ hmem)

theorem OnFile.step (hf : OnFile v h c i) (hx : Extends c i v w)
    (hentry : k.dirEntry = h.dirEntry) (hcurr : k.currCluster = h.currCluster) :
    OnFile w k c i := by
  refine ⟨hx.keeps.entry.mpr hf.entry, ?_, ?_, ?_⟩
  · rw [hx.keeps.entry_attr hf.entry]
    exact hf.file
  · rw [hentry, hf.dirEntry, hx.like.bpb]
  · obtain ⟨l, hl, hmem⟩ := hf.curr
    obtain ⟨l', hl'⟩ := hx.grows hl
    exact ⟨_, hl', hcurr ▸ List.mem_append_left l' hmem⟩

theorem OnFile.storeBytes (hf : OnFile v h c i) (hv : v.Formatted) (hwf : v.view.WellFormed)
    {o : Nat} {bs : List UInt8} (hle : o + bs.length ≤ v.bytesPerCluster) :
    Extends c i v
      { v with image := ByteMemory.storeBytes v.image (v.bpb.clusterAddr h.currCluster + o) bs } := by
  obtain ⟨l, hl, hmem⟩ := hf.curr
  have hchange : Changes v
      { v with image := ByteMemory.storeBytes v.image (v.bpb.clusterAddr h.currCluster + o) bs }
      (InCluster v.bpb h.currCluster) := by
    refine ⟨like_image _ _, fun a hout => storeBytes_out ?_⟩
    have hsize : v.bytesPerCluster = v.bpb.clusterSize := rfl
    simp only [InCluster] at hout
    omega
  exact hchange.extends_cluster hv hwf hf.entry hf.file hl hmem

theorem OnFile.grow (hf : OnFile v h c i) (hv : v.Formatted) (hwf : v.view.WellFormed) :
    Extends c i v (v.grow h).1 ∧ Steady h (v.grow h).2 ∧
      (v.grow h).2.currCluster = h.currCluster := by
  unfold Volume.grow
  split
  · refine ⟨?_, ⟨rfl, rfl, rfl⟩, rfl⟩
    rw [hf.dirEntry]
    exact (setSize_changes v c i _).extends_fields hv hwf hf.entry hf.file (setSize_first v c i _)
  · exact ⟨Extends.refl hwf, ⟨rfl, rfl, rfl⟩, rfl⟩

structure Moved (c i : Nat) (v : Volume) (h : Handle) (w : Volume) (k : Handle) : Prop where
  volume : Extends c i v w
  handle : Steady h k
  onFile : OnFile w k c i

theorem Moved.refl (hf : OnFile v h c i) (hwf : v.view.WellFormed) : Moved c i v h v h :=
  ⟨Extends.refl hwf, ⟨rfl, rfl, rfl⟩, hf⟩

theorem Moved.trans {x : Volume} {k' : Handle} (h1 : Moved c i v h w k) (h2 : Moved c i w k x k') :
    Moved c i v h x k' :=
  ⟨h1.volume.trans h2.volume, h1.handle.trans h2.handle, h2.onFile⟩

/-- The chunk of one round of a loop fits into its cluster. -/
theorem chunk_le (hv : v.Formatted) (h : Handle) (left : Nat) :
    h.offset % v.bytesPerCluster + v.chunk h left ≤ v.bytesPerCluster := by
  have hlt := Nat.mod_lt h.offset (show 0 < v.bytesPerCluster from Nat.mul_pos hv.sector_pos hv.cluster_pos)
  rw [chunk]
  omega

theorem OnFile.writeChunk (hf : OnFile v h c i) (hv : v.Formatted) (hwf : v.view.WellFormed)
    {bs : List UInt8} (hle : h.offset % v.bytesPerCluster + bs.length ≤ v.bytesPerCluster) :
    Moved c i v h (v.writeChunk h (v.bpb.clusterAddr h.currCluster) bs).1
      (v.writeChunk h (v.bpb.clusterAddr h.currCluster) bs).2 := by
  have hstore := hf.storeBytes hv hwf hle
  have hmid := hf.step hstore (k := { h with offset := h.offset + bs.length }) rfl rfl
  obtain ⟨hgrow, hsteady, hcurr⟩ := hmid.grow (hstore.like.formatted hv) hstore.wellFormed
  exact ⟨hstore.trans hgrow, ⟨hsteady.first, hsteady.entry, hsteady.isDir⟩,
    hmid.step hgrow hsteady.entry hcurr⟩

theorem OnFile.first_ne (hf : OnFile v h c i) : v.view.first c i ≠ 0 := by
  obtain ⟨l, hl, hmem⟩ := hf.curr
  intro h0
  have hchain := hl.chain
  rw [h0] at hchain
  cases l with
  | nil => cases hmem
  | cons z l => cases hchain.1

theorem OnFile.link (hf : OnFile v h c i) (hv : v.Formatted) (hwf : v.view.WellFormed)
    (hlast : endOfChain ≤ v.readFat h.currCluster) (ha : v.allocCluster = some (n, w)) :
    Moved c i v h (w.writeFat h.currCluster n) { h with currCluster := n } := by
  obtain ⟨l, hl, hmem⟩ := hf.curr
  have halloc := hv.allocCluster ha
  have hw := halloc.like.formatted hv
  have hlt := (halloc.like.inRange.mpr (hl.inRange _ hmem)).2
  have hput := hw.writeFat hlt n
  obtain ⟨hx, hruns⟩ := halloc.extends_link hput hv hwf hf.entry hf.file hl hmem hlast
  refine ⟨hx, ⟨rfl, rfl, rfl⟩, ⟨hx.keeps.entry.mpr hf.entry, ?_, ?_, l ++ [n], ?_, by simp⟩⟩
  · rw [hx.keeps.entry_attr hf.entry]
    exact hf.file
  · rw [hx.like.bpb]
    exact hf.dirEntry
  · rw [hx.fixed hf.first_ne]
    exact hruns

theorem OnFile.nextCluster (hf : OnFile v h c i) (hv : v.Formatted) (hwf : v.view.WellFormed)
    (hs : v.nextCluster h = some (w, k)) : Moved c i v h w k := by
  unfold Volume.nextCluster at hs
  split at hs
  · rename_i hlast
    obtain ⟨⟨n, u⟩, ha, he⟩ := Option.map_eq_some_iff.mp hs
    cases he
    exact hf.link hv hwf hlast ha
  · rename_i hnext
    cases hs
    obtain ⟨l, hl, hmem⟩ := hf.curr
    exact ⟨Extends.refl hwf, ⟨rfl, rfl, rfl⟩, hf.entry, hf.file, hf.dirEntry, l, hl,
      hl.next_mem hmem hnext⟩

/-- The loop of `fat32_write` only extends its file. -/
theorem OnFile.writeLoop {fuel written : Nat} {buf : List UInt8} (hf : OnFile v h c i)
    (hv : v.Formatted) (hwf : v.view.WellFormed) :
    Moved c i v h (writeLoop fuel v h buf written).2.1 (writeLoop fuel v h buf written).2.2 := by
  induction fuel generalizing v h buf written with
  | zero => exact Moved.refl hf hwf
  | succ fuel ih =>
    rw [Volume.writeLoop]
    by_cases hbuf : buf = []
    · rw [if_pos hbuf]
      exact Moved.refl hf hwf
    · rw [if_neg hbuf, hf.clusterPtr hv]
      have hle : h.offset % v.bytesPerCluster + (buf.take (v.chunk h buf.length)).length ≤
          v.bytesPerCluster := by
        have hfit := chunk_le hv h buf.length
        rw [List.length_take]
        omega
      have hm := hf.writeChunk hv hwf hle
      dsimp only
      generalize v.writeChunk h (v.bpb.clusterAddr h.currCluster) (buf.take (v.chunk h buf.length)) = r
        at hm ⊢
      obtain ⟨w, k⟩ := r
      have hw := hm.volume.like.formatted hv
      split
      · cases hs : w.nextCluster k with
        | none => exact hm
        | some s =>
          obtain ⟨x, k'⟩ := s
          have hm' := hm.onFile.nextCluster hw hm.volume.wellFormed hs
          exact hm.trans (hm'.trans (ih hm'.onFile (hm'.volume.like.formatted hw)
            hm'.volume.wellFormed))
      · exact hm.trans (ih hm.onFile hw hm.volume.wellFormed)

/-- A cluster is taken and entered in the directory as the first one of a file. -/
theorem publish_first {e : Nat} (hv : v.Formatted) (hwf : v.view.WellFormed)
    (hentry : v.view.Entry c i) (hfile : isDirectory (v.view.attr c i) = false)
    (he : e = v.bpb.slotAddr c i) (ha : v.allocCluster = some (n, w)) :
    Changes w (w.setFirst e n) (InFields w.bpb c i) ∧ (w.setFirst e n).view.first c i = n ∧
      Writes c i v (w.setFirst e n) ∧ (w.setFirst e n).view.Runs n [n] := by
  have halloc := hv.allocCluster ha
  have hword : n < word := lt_of_lt_of_le halloc.inRange.2 (hv.marks.trans (by decide))
  have he' : e = w.bpb.slotAddr c i := by rw [halloc.like.bpb, he]
  have hfirst : (w.setFirst e n).view.first c i = n := by
    rw [he']
    exact setFirst_first w c i hword
  have hchange : Changes w (w.setFirst e n) (InFields w.bpb c i) := by
    rw [he']
    exact setFirst_changes w c i n
  exact ⟨hchange, hfirst, halloc.writes_publish hchange hv hwf hentry hfile hfirst⟩

end Volume

end LosTacOS.Fat
