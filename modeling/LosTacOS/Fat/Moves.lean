import LosTacOS.Fat.Layout

/-! What the steps of a write do to the table and to the directories. -/
namespace LosTacOS.Fat

open ByteMemory

namespace Volume

variable {v w x : Volume} {c d f i j n value : Nat} {l : List Nat}

section views

theorem Like.view_limit (h : Like v w) : w.view.limit = v.view.limit := by
  show w.totalClusters + 2 = v.totalClusters + 2
  rw [h.totalClusters]

theorem Like.view_slots (h : Like v w) : w.view.slots = v.view.slots := by
  show w.bytesPerCluster / entrySize = v.bytesPerCluster / entrySize
  rw [h.bytesPerCluster]

theorem Like.view_root (h : Like v w) : w.view.root = v.view.root := by
  show w.bpb.rootCluster = v.bpb.rootCluster
  rw [h.bpb]

theorem Like.inRange (h : Like v w) : w.view.InRange c ↔ v.view.InRange c := by
  rw [View.InRange, View.InRange, h.view_limit]

theorem Like.mark (h : Like v w)
    (hsame : w.image (v.bpb.slotAddr c i) = v.image (v.bpb.slotAddr c i)) :
    w.view.mark c i = v.view.mark c i := by
  show w.image (w.bpb.slotAddr c i) = v.image (v.bpb.slotAddr c i)
  rw [h.bpb, hsame]

theorem Like.attr (h : Like v w)
    (hsame : w.image (v.bpb.slotAddr c i + 11) = v.image (v.bpb.slotAddr c i + 11)) :
    w.view.attr c i = v.view.attr c i := by
  show w.image (w.bpb.slotAddr c i + 11) = v.image (v.bpb.slotAddr c i + 11)
  rw [h.bpb, hsame]

theorem Like.first (h : Like v w)
    (hsame : ∀ k, 20 ≤ k → k < entrySize →
      w.image (v.bpb.slotAddr c i + k) = v.image (v.bpb.slotAddr c i + k)) :
    w.view.first c i = v.view.first c i := by
  show w.firstAt (w.bpb.slotAddr c i) = v.firstAt (v.bpb.slotAddr c i)
  rw [h.bpb, firstAt_of_same hsame]

/-- The directories are where they were if their entries and their chains are. -/
theorem Like.keeps (h : Like v w)
    (hfat : ∀ d, v.view.DirCluster d → w.readFat d = v.readFat d)
    (hbytes : ∀ d j, v.view.DirCluster d → j < v.view.slots → ∀ k < 20,
      w.image (v.bpb.slotAddr d j + k) = v.image (v.bpb.slotAddr d j + k))
    (hfirst : ∀ d j, v.view.DirCluster d → j < v.view.slots → isDirectory (v.view.attr d j) = true →
      w.view.first d j = v.view.first d j) : View.Keeps v.view w.view where
  limit := h.view_limit
  slots := h.view_slots
  root := h.view_root
  fat := fun {d} hd => hfat d hd
  mark := fun {d j} hd hj => h.mark (hbytes d j hd hj 0 (by decide))
  attr := fun {d j} hd hj => h.attr (hbytes d j hd hj 11 (by decide))
  first := fun {d j} hd hj hdir => hfirst d j hd hj hdir

end views

section bytes

theorem Changes.readFat {P : Nat → Prop} (h : Changes v w P) (hv : v.Formatted)
    (hP : ∀ a, P a → v.bpb.dataAddr ≤ a) (hd : d < v.totalClusters + 2) :
    w.readFat d = v.readFat d := by
  refine readFat_of_same hv h.like hd fun k hk => h.same _ fun hp => ?_
  have := hP _ hp
  have := hv.fatAddr_le hv.fats_pos hd
  omega

theorem inCluster_data {a : Nat} (h : InCluster v.bpb c a) : v.bpb.dataAddr ≤ a :=
  (dataAddr_le v.bpb c).trans h.1

theorem InFields.inCluster {a : Nat} (hi : i < v.view.slots) (h : InFields v.bpb c i a) :
    InCluster v.bpb c a := by
  have hle := slotAddr_le (c := c) v hi
  have hge : v.bpb.clusterAddr c ≤ v.bpb.slotAddr c i := Nat.le_add_right _ _
  obtain ⟨h1, h2⟩ := h
  exact ⟨by omega, by omega⟩

theorem slot_inCluster {k : Nat} (hi : i < v.view.slots) (hk : k < entrySize) :
    InCluster v.bpb c (v.bpb.slotAddr c i + k) := by
  have hle := slotAddr_le (c := c) v hi
  have hge : v.bpb.clusterAddr c ≤ v.bpb.slotAddr c i := Nat.le_add_right _ _
  exact ⟨by omega, by omega⟩

theorem InCluster.unique {a : Nat} (hc : 2 ≤ c) (hd : 2 ≤ d) (h : InCluster v.bpb c a)
    (h' : InCluster v.bpb d a) : c = d := by
  by_contra hne
  obtain ⟨h1, h2⟩ := h
  obtain ⟨h3, h4⟩ := h'
  rcases clusterAddr_apart v.bpb hc hd hne with h | h <;> omega

theorem Changes.keeps_cluster (h : Changes v w (InCluster v.bpb c)) (hv : v.Formatted)
    (hc : 2 ≤ c) (hno : ¬ v.view.DirCluster c) : View.Keeps v.view w.view := by
  have hslot : ∀ d j, v.view.DirCluster d → j < v.view.slots → ∀ k < entrySize,
      w.image (v.bpb.slotAddr d j + k) = v.image (v.bpb.slotAddr d j + k) := by
    intro d j hd hj k hk
    refine h.same _ fun hin => hno ?_
    have := InCluster.unique hc hd.inRange.1 hin (slot_inCluster hj hk)
    subst this
    exact hd
  refine h.like.keeps (fun d hd => ?_) (fun d j hd hj k hk => ?_) (fun d j hd hj _ => ?_)
  · exact h.readFat hv (fun a => inCluster_data) hd.inRange.2
  · exact hslot d j hd hj k (hk.trans (by decide))
  · exact h.like.first fun k _ hk => hslot d j hd hj k hk

theorem Changes.keeps_fields (h : Changes v w (InFields v.bpb c i)) (hv : v.Formatted)
    (hc : 2 ≤ c) (hi : i < v.view.slots) (hattr : isDirectory (v.view.attr c i) = false) :
    View.Keeps v.view w.view := by
  have hother : ∀ d j, v.view.DirCluster d → j < v.view.slots → (d, j) ≠ (c, i) →
      ∀ k < entrySize, w.image (v.bpb.slotAddr d j + k) = v.image (v.bpb.slotAddr d j + k) := by
    intro d j hd hj hne k hk
    refine h.same _ fun hin => ?_
    obtain ⟨h1, h2⟩ := hin
    rcases slotAddr_apart v hd.inRange.1 hc hj hi hne with h | h <;> omega
  refine h.like.keeps (fun d hd => ?_) (fun d j hd hj k hk => ?_) (fun d j hd hj hdir => ?_)
  · exact h.readFat hv (fun a ha => inCluster_data (ha.inCluster hi)) hd.inRange.2
  · by_cases he : (d, j) = (c, i)
    · cases he
      refine h.same _ fun hin => ?_
      obtain ⟨h1, -⟩ := hin
      omega
    · exact hother d j hd hj he k (hk.trans (by decide))
  · have he : (d, j) ≠ (c, i) := by
      intro he
      cases he
      rw [hattr] at hdir
      cases hdir
    exact h.like.first fun k _ hk => hother d j hd hj he k hk

/-- An entry of the table of a cluster that is no directory is written. -/
theorem PutsFat.keeps (h : PutsFat v w c value (List.range v.bpb.numFats)) (hv : v.Formatted)
    (hc : c < v.totalClusters + 2) (hno : ¬ v.view.DirCluster c) : View.Keeps v.view w.view := by
  have hslot : ∀ d j, j < v.view.slots → ∀ k < entrySize,
      w.image (v.bpb.slotAddr d j + k) = v.image (v.bpb.slotAddr d j + k) := fun d j hj k hk =>
    h.data hv hc (inCluster_data (slot_inCluster (c := d) hj hk))
  refine h.like.keeps (fun d hd => ?_) (fun d j _ hj k hk => ?_) (fun d j _ hj _ => ?_)
  · have hne : d ≠ c := by
      rintro rfl
      exact hno hd
    exact h.readFat_ne hv hc hd.inRange.2 hne
  · exact hslot d j hj k (hk.trans (by decide))
  · exact h.like.first fun k _ hk => hslot d j hj k hk

theorem Formatted.zeroCluster (h : v.Formatted) (hc : v.view.InRange c) :
    v.zeroCluster c =
      { v with
        image := storeBytes v.image (v.bpb.clusterAddr c) (List.replicate v.bytesPerCluster 0) } := by
  simp only [Volume.zeroCluster, h.clusterPtr hc]

structure Allocs (v w : Volume) (n : Nat) : Prop where
  like : Like v w
  inRange : v.view.InRange n
  free : v.readFat n = 0
  taken : w.readFat n = endMark
  rest : ∀ {d}, d < v.totalClusters + 2 → d ≠ n → w.readFat d = v.readFat d
  data : ∀ {a}, v.bpb.dataAddr ≤ a → ¬ InCluster v.bpb n a → w.image a = v.image a
  zero : ∀ {a}, InCluster v.bpb n a → w.image a = 0
  copies : v.Copies → w.Copies

theorem freeCluster_some (h : v.freeCluster = some n) : v.view.InRange n ∧ v.readFat n = 0 := by
  have hmem := List.mem_range'_1.mp (List.mem_of_find?_eq_some h)
  refine ⟨⟨hmem.1, ?_⟩, by simpa using List.find?_some h⟩
  show n < v.totalClusters + 2
  omega

theorem freeCluster_none (h : v.freeCluster = none) (hc : 2 ≤ c) (hlt : c < v.totalClusters) :
    v.readFat c ≠ 0 := by
  have := List.find?_eq_none.mp h c (List.mem_range'_1.mpr ⟨hc, by omega⟩)
  simpa using this

theorem Formatted.allocCluster (h : v.Formatted) (ha : v.allocCluster = some (n, w)) :
    Allocs v w n := by
  obtain ⟨m, hfind, heq⟩ := Option.map_eq_some_iff.mp ha
  obtain ⟨hmn, rfl⟩ := Prod.mk.inj heq
  subst m
  obtain ⟨hn, hfree⟩ := freeCluster_some hfind
  have hput := h.writeFat hn.2 endMark
  have hw := hput.like.formatted h
  rw [hw.zeroCluster (hput.like.inRange.mpr hn)]
  have hbpb := hput.like.bpb
  have hsize : (List.replicate (v.writeFat n endMark).bytesPerCluster (0 : UInt8)).length =
      v.bpb.clusterSize := by
    rw [List.length_replicate, hput.like.bytesPerCluster]
    rfl
  have hchange : Changes (v.writeFat n endMark)
      { v.writeFat n endMark with
        image := storeBytes (v.writeFat n endMark).image ((v.writeFat n endMark).bpb.clusterAddr n)
          (List.replicate (v.writeFat n endMark).bytesPerCluster 0) }
      (InCluster (v.writeFat n endMark).bpb n) := by
    refine ⟨like_image _ _, fun a hout => ?_⟩
    simp only [storeBytes, hsize, hbpb] at hout ⊢
    exact if_neg hout
  have hfat : ∀ {d}, d < v.totalClusters + 2 → _ = (v.writeFat n endMark).readFat d :=
    fun {d} hd => hchange.readFat hw (fun a => inCluster_data) (hput.like.totalClusters.symm ▸ hd)
  refine ⟨hput.like.trans (like_image _ _), hn, hfree, ?_, fun hd hne => ?_, fun ha hout => ?_,
    fun hin => ?_, fun hcopies => ?_⟩
  · rw [hfat hn.2, hput.readFat_self h hn.2]
    decide
  · rw [hfat hd, hput.readFat_ne h hn.2 hd hne]
  · rw [hchange.same _ (hbpb.symm ▸ hout), hput.data h hn.2 ha]
  · simp only [storeBytes, hsize, hbpb]
    rw [if_pos (show _ ∧ _ from hin), List.getD_eq_getElem?_getD, List.getElem?_replicate]
    split <;> rfl
  · refine Copies.of_same hw (hput.copies h hn.2 hcopies) (like_image _ _) fun a hlt => ?_
    refine hchange.same a fun hin => ?_
    have := inCluster_data hin
    omega

end bytes

end Volume

end LosTacOS.Fat
