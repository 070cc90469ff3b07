import LosTacOS.Fat.Pieces
import Mathlib.Data.List.SplitLengths

/-! A piece that begins right behind a full cluster overwrites that cluster. -/
namespace LosTacOS.Fat

open ByteMemory

namespace Volume

variable {v w x : Volume} {h k : Handle} {a c e i j n o : Nat} {l : List Nat} {buf bs : List UInt8}
  {path : List UInt8}

section zeros

def Zeroed (c i : Nat) (v w : Volume) : Prop :=
  ∀ a, v.bpb.dataAddr ≤ a → ¬ InFields v.bpb c i a → w.image a = v.image a ∨ w.image a = 0

theorem Zeroed.refl (c i : Nat) (v : Volume) : Zeroed c i v v := fun _ _ _ => Or.inl rfl

theorem Zeroed.trans (h1 : Zeroed c i v w) (h2 : Zeroed c i w x) (hlike : Like v w) :
    Zeroed c i v x := by
  intro a ha hout
  rcases h2 a (hlike.bpb.symm ▸ ha) (hlike.bpb.symm ▸ hout) with hsame | hzero
  · rw [hsame]
    exact h1 a ha hout
  · exact Or.inr hzero

theorem storeBytes_zero {m : Mem} {p : Nat} (hbs : ∀ b ∈ bs, b = 0) (a : Nat) :
    storeBytes m p bs a = m a ∨ storeBytes m p bs a = 0 := by
  by_cases hin : p ≤ a ∧ a < p + bs.length
  · refine Or.inr ?_
    rw [storeBytes, if_pos hin, List.getD_eq_getElem _ _ (show a - p < bs.length by omega)]
    exact hbs _ (List.getElem_mem _)
  · exact Or.inl (if_neg hin)

theorem OnFile.zeroed_chunk (hf : OnFile v h c i) (hbs : ∀ b ∈ bs, b = 0) :
    Zeroed c i v (v.writeChunk h (v.bpb.clusterAddr h.currCluster) bs).1 := by
  intro a _ hout
  rw [(hf.chunk_changes bs).2 a hout]
  exact storeBytes_zero hbs a

theorem OnFile.zeroed_next (hf : OnFile v h c i) (hv : v.Formatted)
    (hs : v.nextCluster h = some (w, k)) : Zeroed c i v w := by
  obtain ⟨l, hl, hmem⟩ := hf.curr
  intro a ha _
  unfold Volume.nextCluster at hs
  split at hs
  · obtain ⟨⟨n, u⟩, halloc, he⟩ := Option.map_eq_some_iff.mp hs
    cases he
    have hA := hv.allocCluster halloc
    have hu := hA.like.formatted hv
    have hlt := (hA.like.inRange.mpr (hl.inRange _ hmem)).2
    rw [(hu.writeFat hlt n).data hu hlt (hA.like.bpb.symm ▸ ha)]
    by_cases hin : InCluster v.bpb n a
    · exact Or.inr (hA.zero hin)
    · exact Or.inl (hA.data ha hin)
  · cases hs
    exact Or.inl rfl

theorem OnFile.zeroed_round {fuel written : Nat} (hf : OnFile v h c i) (hv : v.Formatted)
    (hwf : v.view.WellFormed) (hne : buf ≠ [])
    (hrest : ∀ {w : Volume} {k : Handle} {bs : List UInt8} {m : Nat}, OnFile w k c i → w.Formatted →
      w.view.WellFormed → (∀ b ∈ bs, b = 0) → Zeroed c i w (Volume.writeLoop fuel w k bs m).2.1)
    (hbuf : ∀ b ∈ buf, b = 0) :
    Zeroed c i
      (v.writeChunk h (v.bpb.clusterAddr h.currCluster) (buf.take (v.chunk h buf.length))).1
      (Volume.writeLoop (fuel + 1) v h buf written).2.1 := by
  rw [Volume.writeLoop, if_neg hne, hf.clusterPtr hv]
  dsimp only
  have hfit := chunk_le hv h buf.length
  have hle : h.offset % v.bytesPerCluster + (buf.take (v.chunk h buf.length)).length ≤
      v.bytesPerCluster := by
    rw [List.length_take]
    omega
  have hm := hf.writeChunk hv hwf hle
  have hdrop : ∀ b ∈ buf.drop (v.chunk h buf.length), b = 0 :=
    fun b hb => hbuf b (List.mem_of_mem_drop hb)
  generalize v.writeChunk h (v.bpb.clusterAddr h.currCluster) (buf.take (v.chunk h buf.length)) = r
    at hm ⊢
  obtain ⟨w, k⟩ := r
  have hw := hm.volume.like.formatted hv
  split
  · cases hs : w.nextCluster k with
    | none => exact Zeroed.refl c i w
    | some s =>
      obtain ⟨x, k'⟩ := s
      have hm' := hm.onFile.nextCluster hw hm.volume.wellFormed hs
      exact (hm.onFile.zeroed_next hw hs).trans (hrest hm'.onFile (hm'.volume.like.formatted hw)
        hm'.volume.wellFormed hdrop) hm'.volume.like
  · exact hrest hm.onFile hw hm.volume.wellFormed hdrop

theorem OnFile.zeroed_loop {fuel written : Nat} (hf : OnFile v h c i) (hv : v.Formatted)
    (hwf : v.view.WellFormed) (hbuf : ∀ b ∈ buf, b = 0) :
    Zeroed c i v (Volume.writeLoop fuel v h buf written).2.1 := by
  induction fuel generalizing v h buf written with
  | zero => exact Zeroed.refl c i v
  | succ fuel ih =>
    by_cases hnil : buf = []
    · rw [hnil, writeLoop_nil]
      exact Zeroed.refl c i v
    · have hchunk := hf.zeroed_chunk fun b hb =>
        hbuf b (List.mem_of_mem_take (hb : b ∈ buf.take (v.chunk h buf.length)))
      exact hchunk.trans (hf.zeroed_round hv hwf hnil (fun hk hw hwf' hz => ih hk hw hwf' hz) hbuf)
        (hf.chunk_changes _).1

theorem OnFile.zero_first {fuel written : Nat} (hf : OnFile v h c i) (hv : v.Formatted)
    (hwf : v.view.WellFormed) (hbuf : ∀ b ∈ buf, b = 0) (hne : buf ≠ []) :
    (Volume.writeLoop (fuel + 1) v h buf written).2.1.image
      (v.bpb.clusterAddr h.currCluster + h.offset % v.bytesPerCluster) = 0 := by
  obtain ⟨l, hl, hmem⟩ := hf.curr
  have hmod := Nat.mod_lt h.offset hv.bytesPerCluster_pos
  have hlen := List.length_pos_of_ne_nil hne
  generalize hat : v.bpb.clusterAddr h.currCluster + h.offset % v.bytesPerCluster = a
  have hin : InCluster v.bpb h.currCluster a := by
    rw [← hat]
    exact ⟨Nat.le_add_right _ _, Nat.add_lt_add_left hmod _⟩
  have hout := hf.not_fields hwf hl hmem hin
  obtain ⟨hlike, himage⟩ := hf.chunk_changes (buf.take (v.chunk h buf.length))
  have htake : 0 < (buf.take (v.chunk h buf.length)).length := by
    rw [List.length_take, chunk]
    omega
  have hzero : (v.writeChunk h (v.bpb.clusterAddr h.currCluster)
      (buf.take (v.chunk h buf.length))).1.image a = 0 := by
    rw [himage a hout, hat, ByteMemory.storeBytes, if_pos ⟨Nat.le_refl a, by omega⟩, Nat.sub_self,
      List.getD_eq_getElem _ _ htake]
    exact hbuf _ (List.mem_of_mem_take (List.getElem_mem htake))
  have hrest := @OnFile.zeroed_round v h c i buf fuel written hf hv hwf hne
    (fun hk hw hwf' hz => hk.zeroed_loop hw hwf' hz) hbuf a
    (hlike.bpb.symm ▸ inCluster_data hin) (hlike.bpb.symm ▸ hout)
  rcases hrest with hsame | hz
  · rw [hsame, hzero]
  · exact hz

theorem OnFile.zeroed_all {ds : List (List UInt8)} (hf : OnFile v h c i) (hv : v.Formatted)
    (hwf : v.view.WellFormed) (hdir : h.isDir = false) (hfirst : h.firstCluster ≠ 0)
    (hds : ∀ d ∈ ds, ∀ b ∈ d, b = 0) :
    Extends c i v (writeAll v h ds).2.1 ∧ Zeroed c i v (writeAll v h ds).2.1 := by
  induction ds generalizing v h with
  | nil => exact ⟨Extends.refl hwf, Zeroed.refl c i v⟩
  | cons d ds ih =>
    simp only [writeAll, fat32Write_loop hdir hfirst]
    have hm := @OnFile.writeLoop v h c i d.length 0 d hf hv hwf
    have hz := @OnFile.zeroed_loop v h c i d d.length 0 hf hv hwf (hds d List.mem_cons_self)
    generalize Volume.writeLoop d.length v h d 0 = r at hm hz ⊢
    obtain ⟨hx, hz'⟩ := ih hm.onFile (hm.volume.like.formatted hv) hm.volume.wellFormed
      (hm.handle.isDir.trans hdir) (by rw [hm.handle.first]; exact hfirst)
      fun d' hd' => hds d' (List.mem_cons_of_mem _ hd')
    exact ⟨hm.volume.trans hx, hz.trans hz' hm.volume.like⟩

end zeros

section boundary

theorem writeAll_append (v : Volume) (h : Handle) (ds ds' : List (List UInt8)) :
    (writeAll v h (ds ++ ds')).2 =
      (writeAll (writeAll v h ds).2.1 (writeAll v h ds).2.2 ds').2 := by
  induction ds generalizing v h with
  | nil => rfl
  | cons d ds ih =>
    simp only [List.cons_append, writeAll]
    exact ih _ _

theorem exists_of_not_splits {cs : Nat} {ns : List Nat} (hs : ¬ Splits cs o ns) :
    ∃ ns₁ n ns₂, ns = ns₁ ++ n :: ns₂ ∧ Splits cs o ns₁ ∧ n ≠ 0 ∧ 0 < o + ns₁.sum ∧
      cs ∣ o + ns₁.sum := by
  induction ns generalizing o with
  | nil => exact absurd trivial hs
  | cons n ns ih =>
    by_cases hfirst : n = 0 ∨ ¬ (0 < o ∧ cs ∣ o)
    · obtain ⟨ns₁, m, ns₂, rfl, hs₁, hm, hpos, hdvd⟩ := ih fun hrest => hs ⟨hfirst, hrest⟩
      refine ⟨n :: ns₁, m, ns₂, rfl, ⟨hfirst, hs₁⟩, hm, ?_, ?_⟩
      · rw [List.sum_cons]
        omega
      · rw [List.sum_cons, ← Nat.add_assoc]
        exact hdvd
    · rw [not_or, not_not] at hfirst
      exact ⟨[], n, ns, rfl, trivial, hfirst.1, by simpa using hfirst.2.1, by simpa using hfirst.2.2⟩

theorem Ready.overwritten {d : List UInt8} {ds : List (List UInt8)} (hr : Ready v h c i l)
    (hv : v.Formatted) (hwf : v.view.WellFormed) (hpos : 0 < h.offset)
    (hdvd : v.bytesPerCluster ∣ h.offset) (hd : d ≠ []) (hzero : ∀ p ∈ d :: ds, ∀ b ∈ p, b = 0) :
    ∃ l', (Volume.writeAll v h (d :: ds)).2.1.view.Runs
        ((Volume.writeAll v h (d :: ds)).2.1.view.first c i) (l ++ l') ∧
      Extends c i v (Volume.writeAll v h (d :: ds)).2.1 ∧
      ∃ y, l[(h.offset - 1) / v.bytesPerCluster]? = some y ∧
        (Volume.writeAll v h (d :: ds)).2.1.image (v.bpb.clusterAddr y) = 0 := by
  obtain ⟨hne, hcurr⟩ := hr.place.resolve_left fun h0 => by have := h0.2.2; omega
  have hf := hr.onFile hne
  have hlen := List.length_pos_of_ne_nil hd
  have hmem := List.mem_of_getElem? hcurr
  have hdata : v.bpb.dataAddr ≤ v.bpb.clusterAddr h.currCluster := dataAddr_le _ _
  have hout := hf.not_fields hwf hr.runs hmem
    ⟨Nat.le_refl _, Nat.lt_add_of_pos_right hv.bytesPerCluster_pos⟩
  simp only [Volume.writeAll, fat32Write_loop hr.isDir hne]
  have hm := @OnFile.writeLoop v h c i d.length 0 d hf hv hwf
  have hfirst : (Volume.writeLoop d.length v h d 0).2.1.image (v.bpb.clusterAddr h.currCluster) = 0 := by
    obtain ⟨fuel, hfuel⟩ := Nat.exists_eq_add_one_of_ne_zero (Nat.ne_of_gt hlen)
    have h0 := @OnFile.zero_first v h c i d fuel 0 hf hv hwf (hzero d List.mem_cons_self) hd
    rw [Nat.mod_eq_zero_of_dvd hdvd, Nat.add_zero, ← hfuel] at h0
    exact h0
  generalize Volume.writeLoop d.length v h d 0 = r at hm hfirst ⊢
  obtain ⟨hx, hz⟩ := hm.onFile.zeroed_all (hm.volume.like.formatted hv) hm.volume.wellFormed
    (hm.handle.isDir.trans hr.isDir) (by rw [hm.handle.first]; exact hne)
    fun p hp => hzero p (List.mem_cons_of_mem _ hp)
  have hboth := hm.volume.trans hx
  obtain ⟨l', hl'⟩ := hboth.grows hr.runs
  refine ⟨l', hl', hboth, h.currCluster, hcurr, ?_⟩
  have hbpb := hm.volume.like.bpb
  have hzat := hz (v.bpb.clusterAddr h.currCluster) (by rw [hbpb]; exact hdata) (by rw [hbpb]; exact hout)
  rcases hzat with hsame | h0
  · rw [hsame, hfirst]
  · exact h0

theorem place_of_dvd {m : Nat} (hm : 0 < m) (ho : 0 < o) (hdvd : m ∣ o) :
    (o - 1) / m * m = o - m := by
  obtain ⟨t, rfl⟩ := hdvd
  have ht : 0 < t := Nat.pos_of_mul_pos_left ho
  obtain ⟨s, rfl⟩ := Nat.exists_eq_add_one_of_ne_zero (Nat.ne_of_gt ht)
  rw [Nat.mul_add, Nat.mul_one, show m * s + m - 1 = m - 1 + m * s by omega,
    Nat.add_mul_div_left _ _ hm, Nat.div_eq_of_lt (by omega), Nat.zero_add, Nat.mul_comm]
  omega

/-- Zeros behind a full cluster, as they are read from the file. -/
theorem Ready.reads_zero {d : List UInt8} {ds : List (List UInt8)} {b : UInt8} (hr : Ready v h c i l)
    (hv : v.Formatted) (hwf : v.view.WellFormed) (hpos : 0 < h.offset)
    (hdvd : v.bytesPerCluster ∣ h.offset) (hd : d ≠ []) (hzero : ∀ p ∈ d :: ds, ∀ b ∈ p, b = 0)
    {bytes : List UInt8} (hread : ((Volume.writeAll v h (d :: ds)).2.1.fat32Read
      ((Volume.writeAll v h (d :: ds)).2.1.openEntry h.dirEntry) n).1 = some bytes)
    (hb : bytes[h.offset - v.bytesPerCluster]? = some b) : b = 0 := by
  obtain ⟨l', hl', hx, y, hy, himage⟩ := hr.overwritten hv hwf hpos hdvd hd hzero
  have hentry := hx.keeps.entry_attr hr.entry
  generalize (Volume.writeAll v h (d :: ds)).2.1 = w at hread hl' hx himage hentry
  have hw := hx.like.formatted hv
  have hcs := hv.bytesPerCluster_pos
  have hslot : w.bpb.slotAddr c i = h.dirEntry := by rw [hx.like.bpb, hr.dirEntry]
  have hruns : w.view.Runs (w.firstAt h.dirEntry) (l ++ l') := by
    rw [← hslot]
    exact hl'
  have hfile : isDirectory (w.attrAt h.dirEntry) = false := by
    rw [← hslot]
    exact (congrArg isDirectory hentry).trans hr.file
  rw [read_fresh hw hruns hfile] at hread
  cases hread
  rw [bytesFrom, List.getElem?_map] at hb
  obtain ⟨q, hq, rfl⟩ := Option.map_eq_some_iff.mp hb
  have hqe : q = h.offset - v.bytesPerCluster := by
    obtain ⟨hlt, hget⟩ := List.getElem?_eq_some_iff.mp hq
    rw [← hget, List.getElem_range]
  have hplace := place_of_dvd hcs hpos hdvd
  have hylong : (l ++ l')[(h.offset - 1) / v.bytesPerCluster]? = some y := by
    rw [List.getElem?_append_left (List.getElem?_eq_some_iff.mp hy).1]
    exact hy
  have hat : w.byteAt (l ++ l') ((h.offset - 1) / v.bytesPerCluster * w.bytesPerCluster + 0) = _ :=
    byteAt_cluster hylong (hx.like.bytesPerCluster.symm ▸ hcs)
  rw [hx.like.bytesPerCluster, hplace, Nat.add_zero, Nat.add_zero, hx.like.bpb, himage] at hat
  rw [Nat.zero_add, hqe]
  exact hat

/-- A byte string that is 1 where the overwritten cluster begins. -/
theorem exists_not_rewritten {ns : List Nat} (hv : v.Formatted) (hwf : v.view.WellFormed)
    (ho : v.fat32Open path = some h) (hfile : h.isDir = false)
    (hroom : ∀ l, v.view.Runs h.firstCluster l →
      max 1 ns.sum ≤ (l.length + v.freeCount) * v.bytesPerCluster)
    (hword : ns.sum < word) (hs : ¬ Splits v.bytesPerCluster 0 ns) :
    ∃ ds : List (List UInt8), ds.map List.length = ns ∧ ¬ Rewritten v path h ds := by
  obtain ⟨ns₁, n, ns₂, rfl, hs₁, hn, hpos, hdvd⟩ := exists_of_not_splits hs
  rw [Nat.zero_add] at hpos hdvd
  have hcs := hv.bytesPerCluster_pos
  have hle := Nat.le_of_dvd hpos hdvd
  generalize hq : ns₁.sum - v.bytesPerCluster = q at *
  -- the pieces before the boundary hold a single 1, those behind it only zeros
  let front : List UInt8 := List.replicate q 0 ++ 1 :: List.replicate (v.bytesPerCluster - 1) 0
  have hfront : front.length = ns₁.sum := by
    simp only [front, List.length_append, List.length_replicate, List.length_cons]
    omega
  let ds₁ := ns₁.splitLengths front
  have hds₁ : ds₁.map List.length = ns₁ := List.map_splitLengths_length _ _ (by omega)
  have hflat : ds₁.flatten = front := List.flatten_splitLengths _ _ (by omega)
  let zeros : List (List UInt8) := ns₂.map fun m => List.replicate m 0
  refine ⟨ds₁ ++ List.replicate n 0 :: zeros, ?_, fun hgood => ?_⟩
  · simp [hds₁, zeros, Function.comp_def]
  · obtain ⟨c, i, l, hr, hpath, hopen, hl⟩ := ready_open hv hwf ho hfile
    have hoff : h.offset = 0 := by rw [hopen]; rfl
    have hlen₁ : ds₁.flatten.length = ns₁.sum := by rw [hflat, hfront]
    rw [List.sum_append, List.sum_cons] at hroom hword
    have hroom₁ := hroom l hl
    obtain ⟨l₂, -, hcall⟩ := hr.writeAll hv hwf (by rw [hds₁, hoff]; exact hs₁)
      (by rw [hlen₁, hoff]; omega) (by rw [hlen₁, hoff]; omega)
    obtain ⟨h', old, hopen', -, -, hread⟩ := hgood.contents
    rw [show (writeAll v h (ds₁ ++ List.replicate n 0 :: zeros)).2.1 = _ from
      congrArg Prod.fst (writeAll_append v h ds₁ (List.replicate n 0 :: zeros))] at hopen' hread
    have hoff₁ := hcall.offset
    rw [hlen₁, hoff, Nat.zero_add] at hoff₁
    have hv₁ := hcall.frames.like.formatted hv
    have hsize₁ := hcall.frames.like.bytesPerCluster
    have hready := hcall.ready
    have hnne : List.replicate n (0 : UInt8) ≠ [] := by simpa using hn
    have hzero : ∀ p ∈ List.replicate n 0 :: zeros, ∀ b ∈ p, b = (0 : UInt8) := by
      intro p hp b hb
      rcases List.mem_cons.mp hp with rfl | hp
      · exact List.eq_of_mem_replicate hb
      · obtain ⟨m, -, rfl⟩ := List.mem_map.mp hp
        exact List.eq_of_mem_replicate hb
    have hpos₁ : 0 < (writeAll v h ds₁).2.2.offset := by omega
    have hdvd₁ : (writeAll v h ds₁).2.1.bytesPerCluster ∣ (writeAll v h ds₁).2.2.offset := by
      rw [hsize₁, hoff₁]
      exact hdvd
    obtain ⟨-, -, hx, -⟩ := hready.overwritten hv₁ hcall.frames.wellFormed hpos₁ hdvd₁ hnne hzero
    have hframes := hcall.frames.trans (hx.toWrites.frames hready.entry hready.file)
    have hentry : (writeAll v h ds₁).2.2.dirEntry = h.dirEntry := by
      rw [hready.dirEntry, hcall.frames.like.bpb, hr.dirEntry]
    rw [hframes.fat32Open hv hwf hpath, ← hentry] at hopen'
    cases hopen'
    have hone := hready.reads_zero hv₁ hcall.frames.wellFormed hpos₁ hdvd₁ hnne hzero
      (hread _ (Nat.le_refl _)) (b := 1) ?_
    · revert hone
      decide
    · rw [hoff₁, hsize₁, hq, List.flatten_append, hflat, List.append_assoc, List.append_assoc,
        List.getElem?_append_right (by simp)]
      simp

/-- No call returns more than the largest `int`. -/
theorem writeAll_results_lt {ds : List (List UInt8)} :
    ∀ r ∈ (writeAll v h ds).1, r < 2^31 := by
  induction ds generalizing v h with
  | nil => exact fun r hr => absurd hr List.not_mem_nil
  | cons d ds ih =>
    have hmod : ∀ m : Int, Int.bmod m word < 2^31 := by
      intro m
      have hlt := Int.bmod_lt (x := m) (show 0 < word by decide)
      have hword : ((word : Nat) : Int) = 4294967296 := rfl
      rw [hword] at hlt
      omega
    have hneg : (-1 : Int) < 2^31 := by decide
    have hone : (v.fat32Write h d).1 < 2^31 := by
      unfold Volume.fat32Write
      split
      · exact hneg
      · split
        · cases v.allocCluster with
          | none => exact hneg
          | some a =>
            dsimp only
            generalize (Volume.writeLoop _ _ _ _ _).1 = m
            exact hmod m
        · dsimp only
          generalize (Volume.writeLoop _ _ _ _ _).1 = m
          exact hmod m
    intro r hr
    simp only [writeAll] at hr
    rcases List.mem_cons.mp hr with rfl | hr
    · exact hone
    · exact ih r hr

end boundary

/-- Every byte string that is cut into pieces of these lengths goes to its file as it should exactly
when the sizes fit an `int` and the size field and no piece begins right behind a full cluster. -/
theorem rewritten_iff {ns : List Nat} (hv : v.Formatted) (hwf : v.view.WellFormed)
    (ho : v.fat32Open path = some h) (hfile : h.isDir = false)
    (hfits : ∀ l, v.view.Runs h.firstCluster l → h.fileSize ≤ l.length * v.bytesPerCluster)
    (hroom : ∀ l, v.view.Runs h.firstCluster l →
      max 1 ns.sum ≤ (l.length + v.freeCount) * v.bytesPerCluster) :
    (∀ ds : List (List UInt8), ds.map List.length = ns → Rewritten v path h ds) ↔
      ns.sum < 2^32 ∧ (∀ n ∈ ns, n < 2^31) ∧ Splits v.bytesPerCluster 0 ns := by
  constructor
  · intro hall
    have hzeros := hall (ns.map fun m => List.replicate m 0) (by simp [Function.comp_def])
    have hsum : ns.sum < 2^32 := by
      obtain ⟨h', old, hopen, -, hsize, -⟩ := hzeros.contents
      obtain ⟨e, -, rfl⟩ := Option.map_eq_some_iff.mp hopen
      have hlt : loadLE (writeAll v h (ns.map fun m => List.replicate m 0)).2.1.image (e + 28) 4 < 256^4 :=
        loadLE_lt _ _ 4
      have hmax : loadLE (writeAll v h (ns.map fun m => List.replicate m 0)).2.1.image (e + 28) 4 =
        max h.fileSize _ := hsize
      rw [List.length_flatten, List.map_map] at hmax
      simp only [Function.comp_def, List.length_replicate, List.map_id_fun', id_eq] at hmax
      omega
    refine ⟨hsum, fun n hn => ?_, ?_⟩
    · have hres := hzeros.results
      have hmem : ((n : Nat) : Int) ∈ (writeAll v h (ns.map fun m => List.replicate m 0)).1 := by
        rw [hres, List.map_map]
        exact List.mem_map.mpr ⟨n, hn, by simp⟩
      have := writeAll_results_lt _ hmem
      omega
    · by_contra hs
      obtain ⟨ds, hds, hbad⟩ := exists_not_rewritten hv hwf ho hfile hroom hsum hs
      exact hbad (hall ds hds)
  · rintro ⟨hsum, hint, hs⟩ ds rfl
    rw [← List.length_flatten] at hsum hroom
    exact rewritten_of_splits hv hwf ho hfile hfits hroom hs
      (fun d hd => hint _ (List.mem_map_of_mem hd)) hsum

section oneFile

theorem oneFile_open : Session.oneFile.fat32Open [65] = some (Session.oneFile.openEntry 1024) := by
  have hpath : Session.oneFile.findPath [65] = some 1024 := by decide
  rw [fat32Open, hpath, Option.map_some]

theorem oneFile_cluster : Session.oneFile.bytesPerCluster = 512 := by decide

theorem oneFile_room {ns : List Nat} (hns : max 1 ns.sum ≤ 2560) (l : List Nat) :
    max 1 ns.sum ≤ (l.length + Session.oneFile.freeCount) * Session.oneFile.bytesPerCluster := by
  have hfree : Session.oneFile.freeCount = 5 := by decide
  rw [hfree, oneFile_cluster]
  omega

theorem oneFile_size : (Session.oneFile.openEntry 1024).fileSize = 0 := by decide

end oneFile

/-- Three bytes in two pieces, for an empty file. -/
theorem rewritten_iff_two_pieces :
    Rewritten Session.oneFile [65] (Session.oneFile.openEntry 1024) [[7], [8, 9]] := by
  have hs : Splits Session.oneFile.bytesPerCluster 0 [1, 2] := by
    rw [oneFile_cluster]
    simp [Splits]
  exact (rewritten_iff Session.oneFile_formatted Session.oneFile_wellFormed oneFile_open
    (by decide) (fun l _ => by rw [oneFile_size]; exact Nat.zero_le _)
    (fun l _ => oneFile_room (by decide) l)).mpr ⟨by decide, by decide, hs⟩ [[7], [8, 9]] rfl

/-- A piece of a whole cluster and another one behind it, which overwrites the first. -/
theorem boundary_overwritten :
    ¬ ∀ (v : Volume) (path : List UInt8) (h : Handle) (ds : List (List UInt8)), v.Formatted →
      v.view.WellFormed → v.fat32Open path = some h → h.isDir = false →
      (∀ l, v.view.Runs h.firstCluster l → h.fileSize ≤ l.length * v.bytesPerCluster) →
      (∀ l, v.view.Runs h.firstCluster l →
        max 1 ds.flatten.length ≤ (l.length + v.freeCount) * v.bytesPerCluster) →
      Rewritten v path h ds := by
  intro H
  have hs : ¬ Splits Session.oneFile.bytesPerCluster 0 [512, 1] := by
    rw [oneFile_cluster]
    simp [Splits]
  obtain ⟨ds, hds, hbad⟩ := exists_not_rewritten Session.oneFile_formatted Session.oneFile_wellFormed
    oneFile_open (by decide) (fun l _ => oneFile_room (by decide) l) (by decide) hs
  refine hbad (H _ _ _ ds Session.oneFile_formatted Session.oneFile_wellFormed oneFile_open
    (by decide) (fun l _ => by rw [oneFile_size]; exact Nat.zero_le _) fun l _ => ?_)
  rw [List.length_flatten, hds]
  exact oneFile_room (by decide) l

end Volume

end LosTacOS.Fat
