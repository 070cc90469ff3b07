import LosTacOS.Fat.Storing

/-! A byte string that is written to a file in several calls. -/
namespace LosTacOS.Fat

open ByteMemory

namespace Volume

/-- Calls of `fat32_write` one after the other, and what each of them returned. -/
def writeAll : Volume → Handle → List (List UInt8) → List Int × Volume × Handle
  | v, h, [] => ([], v, h)
  | v, h, d :: ds =>
    let r := v.fat32Write h d
    let t := writeAll r.2.1 r.2.2 ds
    (r.1 :: t.1, t.2)

variable {v w x : Volume} {h k : Handle} {c d e i j n : Nat} {l l₂ : List Nat}
  {buf : List UInt8} {path : List UInt8}

section names

/-- The directories are the same, names and all; only first clusters and sizes of files may differ. -/
structure Frames (v w : Volume) : Prop where
  like : Like v w
  keeps : View.Keeps v.view w.view
  wellFormed : w.view.WellFormed
  names : ∀ {d j}, v.view.DirCluster d → j < v.view.slots → ∀ m < 20,
    w.image (v.bpb.slotAddr d j + m) = v.image (v.bpb.slotAddr d j + m)

theorem Frames.refl (hwf : v.view.WellFormed) : Frames v v :=
  ⟨Like.rfl, (@Extends.refl v 0 0 hwf).keeps, hwf, fun _ _ _ _ => rfl⟩

theorem Frames.trans (h1 : Frames v w) (h2 : Frames w x) : Frames v x := by
  refine ⟨h1.like.trans h2.like, h1.keeps.trans h2.keeps, h2.wellFormed, fun hd hj m hm => ?_⟩
  have hlater := h2.names (h1.keeps.dirCluster.mpr hd) (h1.keeps.slots.symm ▸ hj) m hm
  rw [h1.like.bpb] at hlater
  rw [hlater, h1.names hd hj m hm]

theorem Writes.frames (hw : Writes c i v w) (he : v.view.Entry c i)
    (hfile : isDirectory (v.view.attr c i) = false) : Frames v w := by
  refine ⟨hw.like, hw.keeps, hw.wellFormed, fun {d j} hd hj m hm => ?_⟩
  have hm32 : m < entrySize := hm.trans (by decide)
  have hin := @slot_inCluster v d j m hj hm32
  by_contra hne
  rcases hw.bytes _ (inCluster_data hin) hne with hfield | ⟨l, y, hl, hy, hin'⟩
  · obtain ⟨hdir, hi⟩ := he.dirCluster
    obtain ⟨h1, h2⟩ := hfield
    by_cases hsame : (d, j) = (c, i)
    · cases hsame
      omega
    · rcases slotAddr_apart v hd.inRange.1 hdir.inRange.1 hj hi hsame with hlt | hlt <;> omega
  · -- the file holds no directory
    have hyr := hw.like.inRange.mp (hl.inRange y hy)
    have heq := InCluster.unique hyr.1 hd.inRange.1 hin' hin
    subst heq
    have hfile' : isDirectory (w.view.attr c i) = false := by
      rw [hw.keeps.entry_attr he]
      exact hfile
    exact hw.wellFormed.not_dirCluster (hw.keeps.entry.mpr he) hfile' hl hy
      (hw.keeps.dirCluster.mpr hd)

theorem scanSlots_congr {target : List UInt8} {es : List Nat}
    (hsame : ∀ e ∈ es, ∀ m < 20, w.image (e + m) = v.image (e + m)) :
    w.scanSlots target es = v.scanSlots target es := by
  induction es with
  | nil => rfl
  | cons e es ih =>
    have hrest := ih fun e' he' => hsame e' (List.mem_cons_of_mem _ he')
    have hbyte := hsame e List.mem_cons_self
    have hattr : w.attrAt e = v.attrAt e := hbyte 11 (by decide)
    have hname : w.nameAt e = v.nameAt e :=
      List.map_congr_left fun m hm => hbyte m ((List.mem_range.mp hm).trans (by decide))
    have hmark : w.image e = v.image e := hbyte 0 (by decide)
    rw [scanSlots, scanSlots, hmark, hattr, hname, hrest]

theorem Frames.findInChain {target : List UInt8} {fuel curr : Nat} (hf : Frames v w)
    (hv : v.Formatted) (hd : v.view.Dir d)
    (hscan : ¬ (curr < 2 ∨ endOfChain ≤ curr) → v.view.Scans d curr)
    (hnext : ∀ y, v.view.Scans d y → ¬ endOfChain ≤ v.readFat y → v.view.InRange (v.readFat y)) :
    w.findInChain target fuel curr = v.findInChain target fuel curr := by
  induction fuel generalizing curr with
  | zero => rfl
  | succ fuel ih =>
    rw [Volume.findInChain, Volume.findInChain]
    by_cases hend : curr < 2 ∨ endOfChain ≤ curr
    · rw [if_pos hend, if_pos hend]
    · have hs := hscan hend
      have hdir : v.view.DirCluster curr := ⟨d, hd, hs⟩
      have hfat : w.readFat curr = v.readFat curr := hf.keeps.fat hdir
      have hslots : w.slots (v.bpb.clusterAddr curr) = v.slots (v.bpb.clusterAddr curr) := by
        rw [slots, slots, hf.like.bytesPerCluster]
      rw [if_neg hend, if_neg hend, hf.like.clusterPtr, hv.clusterPtr hs.inRange]
      dsimp only
      rw [hslots, hfat, scanSlots_congr fun e he m hm => ?_]
      · cases hscanned : v.scanSlots target (v.slots (v.bpb.clusterAddr curr)) with
        | stop => rfl
        | found e => rfl
        | next =>
          refine ih fun hgo => ?_
          rw [slots_eq] at hscanned
          have hmarks := scanSlots_next hscanned
          exact hs.snoc (fun j hj => hmarks j (Nat.zero_le j) (by omega))
            (if_neg fun h => hgo (Or.inr h)) (hnext curr hs fun h => hgo (Or.inr h))
      · obtain ⟨j, hj, rfl⟩ := List.mem_map.mp he
        exact hf.names hdir (List.mem_range.mp hj) m hm

theorem Frames.findEntryInDir (hf : Frames v w) (hv : v.Formatted) (hwf : v.view.WellFormed)
    (hd : v.view.Dir d) (name : List UInt8) : w.findEntryInDir d name = v.findEntryInDir d name := by
  unfold Volume.findEntryInDir
  rw [hf.like.totalClusters]
  obtain ⟨l, hl⟩ := hwf.dir hd
  have hmem : ∀ y, v.view.Scans d y → y ∈ l := by
    intro y hy
    have hchain := hl.chain
    rw [View.headOf, if_neg (by have := hy.start.1; omega)] at hchain
    exact hy.mem hchain
  refine hf.findInChain hv hd (fun hgo => ?_) fun y hy hnot => ?_
  · have hchain := hl.chain
    rw [View.headOf, if_neg (by omega)] at hchain
    cases l with
    | nil => cases hchain
    | cons y l =>
      cases hchain.1
      exact .here (hl.inRange _ List.mem_cons_self)
  · exact hl.inRange _ (hl.next_mem (hmem y hy) hnot)

theorem Frames.findFrom {find find' : Nat → List UInt8 → Option Nat} {entry : Option Nat}
    (hf : Frames v w) (hsame : ∀ d name, v.view.Dir d → find' d name = find d name)
    (hfound : ∀ d name e, v.view.Dir d → find d name = some e →
      ∃ c i, e = v.bpb.slotAddr c i ∧ v.view.Shown d c i) (hd : v.view.Dir d) :
    w.findFrom find' n d path entry = v.findFrom find n d path entry := by
  induction n generalizing d path entry with
  | zero => rfl
  | succ n ih =>
    rw [Volume.findFrom, Volume.findFrom, hsame d _ hd]
    cases hfind : find d (component path) with
    | none => rfl
    | some e =>
      obtain ⟨c, i, rfl, hshown⟩ := hfound d _ e hd hfind
      have hdc : v.view.DirCluster c := ⟨d, hd, hshown.scans⟩
      have hattr : w.attrAt (v.bpb.slotAddr c i) = v.attrAt (v.bpb.slotAddr c i) := by
        have hkeep : w.attrAt (w.bpb.slotAddr c i) = v.attrAt (v.bpb.slotAddr c i) :=
          hf.keeps.attr hdc hshown.lt
        rwa [hf.like.bpb] at hkeep
      dsimp only
      rw [hattr]
      by_cases hdir : isDirectory (v.attrAt (v.bpb.slotAddr c i)) = true
      · have hfirst : w.firstAt (v.bpb.slotAddr c i) = v.firstAt (v.bpb.slotAddr c i) := by
          have hkeep : w.firstAt (w.bpb.slotAddr c i) = v.firstAt (v.bpb.slotAddr c i) :=
            hf.keeps.first hdc hshown.lt hdir
          rwa [hf.like.bpb] at hkeep
        have hsub : v.view.Dir (v.firstAt (v.bpb.slotAddr c i)) := .sub hd hshown hdir
        rw [if_pos hdir, if_pos hdir, hfirst, ih hsub]
      · rw [if_neg hdir, if_neg hdir]

theorem Frames.findPath (hf : Frames v w) (hv : v.Formatted) (hwf : v.view.WellFormed)
    (path : List UInt8) : w.findPath path = v.findPath path := by
  unfold Volume.findPath
  have hroot : v.view.Dir v.bpb.rootCluster := .root
  rw [hf.like.bpb, hf.findFrom (fun d name hd => hf.findEntryInDir hv hwf hd name)
    (fun d name e hd he => findEntryInDir_shown hv hwf hd he) hroot]

end names

section calls

/-- A handle before a call: the file is still empty, or the handle's cluster is the one with the last
byte that it wrote. -/
structure Ready (v : Volume) (h : Handle) (c i : Nat) (l : List Nat) : Prop where
  entry : v.view.Entry c i
  file : isDirectory (v.view.attr c i) = false
  isDir : h.isDir = false
  dirEntry : h.dirEntry = v.bpb.slotAddr c i
  runs : v.view.Runs (v.view.first c i) l
  sized : Sized v h
  place : (h.firstCluster = 0 ∧ l = [] ∧ h.offset = 0) ∨
    (h.firstCluster ≠ 0 ∧ l[(h.offset - 1) / v.bytesPerCluster]? = some h.currCluster)

structure Call (c i : Nat) (v : Volume) (h : Handle) (l : List Nat) (w : Volume) (k : Handle)
    (l₂ : List Nat) (bs : List UInt8) : Prop where
  frames : Frames v w
  ready : Ready w k c i l₂
  stored : Stored v l w l₂ h.offset bs
  offset : k.offset = h.offset + bs.length
  free : w.freeCount + l₂.length = v.freeCount + l.length
  fileSize : k.fileSize = max h.fileSize k.offset

theorem Ready.onFile (hr : Ready v h c i l) (hne : h.firstCluster ≠ 0) : OnFile v h c i := by
  refine ⟨hr.entry, hr.file, hr.dirEntry, l, hr.runs, ?_⟩
  rcases hr.place with ⟨h0, -⟩ | ⟨-, hcurr⟩
  · exact absurd h0 hne
  · exact List.mem_of_getElem? hcurr

/-- A part of a write through a handle with a cluster, as a call. -/
theorem Progress.call {bs : List UInt8} (hp : Progress c i v h l w k l₂ bs) (hs : Sized v h)
    (hdir : h.isDir = false) (hne : h.firstCluster ≠ 0) (hlt : h.offset + bs.length < word)
    (hplace : l₂[(k.offset - 1) / v.bytesPerCluster]? = some k.currCluster)
    (he : v.view.Entry c i) (hfile : isDirectory (v.view.attr c i) = false) :
    Call c i v h l w k l₂ bs := by
  obtain ⟨hsized, hmax⟩ := hp.sized hs hlt
  have hon := hp.moved.onFile
  refine ⟨hp.moved.volume.toWrites.frames he hfile, ⟨hon.entry, hon.file, ?_, hon.dirEntry, hp.runs,
    hsized, Or.inr ⟨?_, ?_⟩⟩, hp.stored, hp.offset, hp.free, hmax⟩
  · rw [hp.moved.handle.isDir]
    exact hdir
  · rw [hp.moved.handle.first]
    exact hne
  · rw [hp.stored.size]
    exact hplace

/-- The place of the next byte, unless the handle waits behind a full cluster. -/
theorem place_split {o m : Nat} (hm : 0 < m) (hgo : ¬ (0 < o ∧ m ∣ o)) :
    o = (o - 1) / m * m + o % m := by
  have hsplit := Nat.div_add_mod o m
  have hdiv : (o - 1) / m = o / m := by
    by_cases h0 : o = 0
    · rw [h0]
    · have hmod : o % m ≠ 0 := fun hz => hgo ⟨by omega, Nat.dvd_of_mod_eq_zero hz⟩
      have hlt := Nat.mod_lt o hm
      have heq : o - 1 = o % m - 1 + m * (o / m) := by omega
      rw [heq, Nat.add_mul_div_left _ _ hm, Nat.div_eq_of_lt (by omega), Nat.zero_add]
  rw [hdiv, Nat.mul_comm]
  omega

theorem Ready.write_loop (hr : Ready v h c i l) (hv : v.Formatted) (hwf : v.view.WellFormed)
    (hne : h.firstCluster ≠ 0)
    (hgo : buf = [] ∨ ¬ (0 < h.offset ∧ v.bytesPerCluster ∣ h.offset))
    (hroom : h.offset + buf.length ≤ (l.length + v.freeCount) * v.bytesPerCluster)
    (hlt : h.offset + buf.length < word) :
    ∃ l₂, (Volume.writeLoop buf.length v h buf 0).1 = buf.length ∧
      Call c i v h l (Volume.writeLoop buf.length v h buf 0).2.1
        (Volume.writeLoop buf.length v h buf 0).2.2 l₂ buf := by
  have hf := hr.onFile hne
  have hcurr := (hr.place.resolve_left fun h0 => hne h0.1).2
  by_cases hbuf : buf = []
  · subst hbuf
    refine ⟨l, rfl, ?_⟩
    exact (Progress.refl hf hwf hr.runs).call hr.sized hr.isDir hne hlt hcurr hr.entry hr.file
  · have hoff := place_split hv.bytesPerCluster_pos (hgo.resolve_left hbuf)
    obtain ⟨l₂, hcount, hp, hplace⟩ := @OnFile.progress_loop v h c i _ l buf.length 0 buf hf hv hwf
      hr.runs hcurr hoff (Nat.le_refl _) hroom
    refine ⟨l₂, by rw [hcount, Nat.zero_add], ?_⟩
    refine hp.call hr.sized hr.isDir hne hlt ?_ hr.entry hr.file
    rw [hp.offset]
    exact hplace hbuf

theorem Ready.write_first (hr : Ready v h c i []) (hv : v.Formatted) (hwf : v.view.WellFormed)
    (hoff : h.offset = 0) (ha : v.allocCluster = some (n, w)) :
    Call c i v h [] (w.setFirst h.dirEntry n) { h with firstCluster := n, currCluster := n } [n] [] := by
  have halloc := hv.allocCluster ha
  obtain ⟨hchange, hfirst, hw, hruns⟩ := publish_first hv hwf hr.entry hr.file hr.dirEntry ha
  obtain ⟨hdir, hi⟩ := hr.entry.dirCluster
  have hsize : (w.setFirst h.dirEntry n).sizeAt h.dirEntry = v.sizeAt h.dirEntry := by
    rw [hr.dirEntry, ← halloc.sizeAt hwf hr.entry]
    simp only [sizeAt, setFirst]
    rw [loadLE_storeLE_disjoint _ _ (.inr (by omega)), loadLE_storeLE_disjoint _ _ (.inr (by omega))]
  have hfree : (w.setFirst h.dirEntry n).freeCount + 1 = v.freeCount := by
    rw [freeCount_of_same hchange.like fun d _ hd => ?_, hv.freeCount_alloc ha]
    have hi' : i < w.view.slots := halloc.like.view_slots.symm ▸ hi
    rw [hchange.readFat (halloc.like.formatted hv) (fun a hin => inCluster_data (hin.inCluster hi'))
      (by omega)]
  have hstored : Stored v [] (w.setFirst h.dirEntry n) [n] h.offset [] := by
    refine halloc.stored_link hv hr.runs hchange.like (fun y hy a hin => hchange.same a fun hf => ?_) _
    have hyn : y = n := by simpa using hy
    subst hyn
    rw [halloc.like.bpb] at hf
    have heq := InCluster.unique halloc.inRange.1 hdir.inRange.1 hin (hf.inCluster hi)
    subst heq
    exact hdir.fat_ne hwf halloc.free
  generalize w.setFirst h.dirEntry n = x at hfirst hw hruns hsize hfree hstored ⊢
  have hn : n ≠ 0 := by
    have := halloc.inRange.1
    omega
  have hready : Ready x { h with firstCluster := n, currCluster := n } c i [n] := by
    refine ⟨hw.keeps.entry.mpr hr.entry, ?_, hr.isDir, ?_, ?_, ⟨?_, hr.sized.le⟩, Or.inr ⟨hn, ?_⟩⟩
    · rw [hw.keeps.entry_attr hr.entry]
      exact hr.file
    · rw [hw.like.bpb]
      exact hr.dirEntry
    · rw [hfirst]
      exact hruns
    · rw [hsize]
      exact hr.sized.size
    · simp only [hoff, Nat.zero_sub, Nat.zero_div]
      rfl
  have hle := hr.sized.le
  refine ⟨hw.frames hr.entry hr.file, hready, hstored, rfl, ?_, (Nat.max_eq_left hle).symm⟩
  rw [List.length_nil, List.length_singleton, hfree, Nat.add_zero]

/-- One call that wrote all of its bytes, then another one. -/
theorem Call.trans {k' : Handle} {l₃ : List Nat} {bs bs' : List UInt8}
    (h1 : Call c i v h l w k l₂ bs) (h2 : Call c i w k l₂ x k' l₃ bs')
    (hin : h.offset + bs.length ≤ l₂.length * v.bytesPerCluster) :
    Call c i v h l x k' l₃ (bs ++ bs') := by
  have hstored := h2.stored
  rw [h1.offset] at hstored
  have hoff1 := h1.offset
  have hoff2 := h2.offset
  have hfree1 := h1.free
  have hfree2 := h2.free
  have hmax1 := h1.fileSize
  have hmax2 := h2.fileSize
  refine ⟨h1.frames.trans h2.frames, h2.ready, h1.stored.trans hstored hin, ?_, by omega, by omega⟩
  rw [List.length_append]
  omega

theorem fat32Write_loop (hdir : h.isDir = false) (hne : h.firstCluster ≠ 0) :
    v.fat32Write h buf = (Int.bmod (Volume.writeLoop buf.length v h buf 0).1 word,
      (Volume.writeLoop buf.length v h buf 0).2) := by
  have hno : ¬ h.isDir = true := by
    rw [hdir]
    exact Bool.false_ne_true
  unfold Volume.fat32Write
  rw [if_neg hno, if_neg hne]

/-- `fat32_write` returns the length of its buffer as an `int`. -/
theorem Ready.fat32Write (hr : Ready v h c i l) (hv : v.Formatted) (hwf : v.view.WellFormed)
    (hgo : buf = [] ∨ ¬ (0 < h.offset ∧ v.bytesPerCluster ∣ h.offset))
    (hroom : max 1 (h.offset + buf.length) ≤ (l.length + v.freeCount) * v.bytesPerCluster)
    (hlt : h.offset + buf.length < word) :
    ∃ l₂, (v.fat32Write h buf).1 = Int.bmod buf.length word ∧
      Call c i v h l (v.fat32Write h buf).2.1 (v.fat32Write h buf).2.2 l₂ buf := by
  by_cases h0 : h.firstCluster = 0
  · have hno : ¬ h.isDir = true := by
      rw [hr.isDir]
      exact Bool.false_ne_true
    unfold Volume.fat32Write
    rw [if_neg hno, if_pos h0]
    obtain ⟨-, rfl, hoff⟩ := hr.place.resolve_right fun hp => hp.1 h0
    have hfree : 0 < v.freeCount := by
      rcases Nat.eq_zero_or_pos v.freeCount with hz | hz
      · rw [hz] at hroom
        simp at hroom
      · exact hz
    obtain ⟨n, u, ha⟩ := allocCluster_isSome hfree
    have hcall := hr.write_first hv hwf hoff ha
    rw [ha]
    dsimp only
    generalize u.setFirst h.dirEntry n = w at hcall ⊢
    have hw := hcall.frames.like.formatted hv
    have hsize := hcall.frames.like.bytesPerCluster
    have hfree1 : w.freeCount + 1 = v.freeCount := hcall.free.trans (Nat.add_zero _)
    have hne : n ≠ 0 := (hcall.ready.place.resolve_left fun hp => by cases hp.2.1).1
    have hroom' : h.offset + buf.length ≤ ([n].length + w.freeCount) * w.bytesPerCluster := by
      rw [hsize, List.length_singleton, Nat.add_comm 1, hfree1]
      rw [List.length_nil, Nat.zero_add] at hroom
      omega
    obtain ⟨l₂, hcount, hcall'⟩ := @Ready.write_loop w _ c i [n] buf hcall.ready hw
      hcall.frames.wellFormed hne (Or.inr fun hp => by have := hp.1; simp only at this; omega)
      hroom' hlt
    refine ⟨l₂, by rw [hcount], ?_⟩
    have hboth := hcall.trans hcall' (by rw [hoff]; exact Nat.zero_le _)
    rwa [List.nil_append] at hboth
  · rw [fat32Write_loop hr.isDir h0]
    obtain ⟨l₂, hcount, hcall⟩ := hr.write_loop hv hwf h0 hgo (by omega) hlt
    exact ⟨l₂, by rw [hcount], hcall⟩

theorem Call.refl (hr : Ready v h c i l) (hwf : v.view.WellFormed) : Call c i v h l v h l [] :=
  ⟨Frames.refl hwf, hr, Stored.refl v l _, rfl, rfl, (Nat.max_eq_left hr.sized.le).symm⟩

theorem Ready.offset_le (hr : Ready v h c i l) (hv : v.Formatted) :
    h.offset ≤ l.length * v.bytesPerCluster := by
  rcases hr.place with ⟨-, -, h0⟩ | ⟨-, hcurr⟩
  · omega
  · have hlt := (List.getElem?_eq_some_iff.mp hcurr).1
    have := (Nat.div_lt_iff_lt_mul hv.bytesPerCluster_pos).mp hlt
    omega

/-- No piece begins right behind a cluster that the ones before it have filled; `o` bytes have been
written. -/
def Splits (cs : Nat) : Nat → List Nat → Prop
  | _, [] => True
  | o, n :: ns => (n = 0 ∨ ¬ (0 < o ∧ cs ∣ o)) ∧ Splits cs (o + n) ns

/-- Calls one after the other, none of which begins behind a full cluster. -/
theorem Ready.writeAll {ds : List (List UInt8)} (hr : Ready v h c i l) (hv : v.Formatted)
    (hwf : v.view.WellFormed) (hs : Splits v.bytesPerCluster h.offset (ds.map List.length))
    (hroom : max 1 (h.offset + ds.flatten.length) ≤ (l.length + v.freeCount) * v.bytesPerCluster)
    (hlt : h.offset + ds.flatten.length < word) :
    ∃ l₂, (Volume.writeAll v h ds).1 = ds.map (fun d => Int.bmod d.length word) ∧
      Call c i v h l (Volume.writeAll v h ds).2.1 (Volume.writeAll v h ds).2.2 l₂ ds.flatten := by
  induction ds generalizing v h l with
  | nil => exact ⟨l, rfl, Call.refl hr hwf⟩
  | cons d ds ih =>
    rw [List.flatten_cons, List.length_append] at hroom hlt
    obtain ⟨hfirst, hrest⟩ := hs
    have hgo : d = [] ∨ ¬ (0 < h.offset ∧ v.bytesPerCluster ∣ h.offset) :=
      hfirst.imp_left List.eq_nil_of_length_eq_zero
    obtain ⟨l₂, hret, hcall⟩ := hr.fat32Write hv hwf hgo (by omega) (by omega)
    have hsize := hcall.frames.like.bytesPerCluster
    have hoff := hcall.offset
    have hfree := hcall.free
    have hw := hcall.frames.like.formatted hv
    simp only [Volume.writeAll]
    generalize v.fat32Write h d = r at hret hcall hsize hoff hfree hw ⊢
    rw [← hsize, ← hoff] at hrest
    have hroom' : max 1 (r.2.2.offset + ds.flatten.length) ≤
        (l₂.length + r.2.1.freeCount) * r.2.1.bytesPerCluster := by
      rw [hsize, Nat.add_comm l₂.length, hfree, Nat.add_comm v.freeCount]
      omega
    obtain ⟨l₃, hrets, hcalls⟩ := ih hcall.ready hw hcall.frames.wellFormed hrest hroom' (by omega)
    have hin := hcall.ready.offset_le hw
    rw [hsize, hoff] at hin
    exact ⟨l₃, by rw [hrets, hret, List.map_cons], hcall.trans hcalls hin⟩

end calls

/-- All calls returned the lengths of their pieces, and the file that is opened again holds the
pieces, followed by what it held behind them. -/
structure Rewritten (v : Volume) (path : List UInt8) (h : Handle) (ds : List (List UInt8)) :
    Prop where
  results : (writeAll v h ds).1 = ds.map fun d => (d.length : Int)
  contents : ∃ h' old, (writeAll v h ds).2.1.fat32Open path = some h' ∧
    (∀ n, h.fileSize ≤ n → (v.fat32Read h n).1 = some old) ∧
    h'.fileSize = max h.fileSize ds.flatten.length ∧
    ∀ n, h'.fileSize ≤ n → ((writeAll v h ds).2.1.fat32Read h' n).1 =
      some (ds.flatten ++ old.drop ds.flatten.length)

section files

theorem ready_open (hv : v.Formatted) (hwf : v.view.WellFormed) (ho : v.fat32Open path = some h)
    (hfile : h.isDir = false) : ∃ c i l, Ready v h c i l ∧ v.findPath path = some h.dirEntry ∧
      h = v.openEntry h.dirEntry ∧ v.view.Runs h.firstCluster l := by
  obtain ⟨e, he, rfl⟩ := Option.map_eq_some_iff.mp ho
  obtain ⟨c, i, rfl, hentry⟩ := findPath_entry hv hwf he
  obtain ⟨l, hl⟩ := hwf.entry hentry
  refine ⟨c, i, l, ⟨hentry, hfile, hfile, rfl, hl, ⟨rfl, Nat.zero_le _⟩, ?_⟩, he, rfl, hl⟩
  have hchain := hl.chain
  by_cases h0 : v.view.first c i = 0
  · rw [View.headOf, if_pos h0] at hchain
    cases l with
    | nil => exact Or.inl ⟨h0, rfl, rfl⟩
    | cons y l => cases hchain.1
  · rw [View.headOf, if_neg h0] at hchain
    cases l with
    | nil => cases hchain
    | cons y l =>
      refine Or.inr ⟨h0, ?_⟩
      have hplace : (v.openEntry (v.bpb.slotAddr c i)).offset = 0 := rfl
      rw [hplace, Nat.zero_sub, Nat.zero_div]
      exact hchain.1.symm

/-- What a file holds after bytes were stored at its beginning. -/
theorem Stored.bytesFrom {bs : List UInt8} (hs : Stored v l w l₂ 0 bs) {s : Nat}
    (hfits : s ≤ l.length * v.bytesPerCluster)
    (hin : bs.length ≤ l₂.length * v.bytesPerCluster) :
    w.bytesFrom l₂ 0 (max s bs.length) = bs ++ (v.bytesFrom l 0 s).drop bs.length := by
  have hlong := Nat.mul_le_mul_right v.bytesPerCluster hs.longer
  refine List.ext_getElem ?_ fun q h1 h2 => ?_
  · simp only [Volume.bytesFrom, List.length_append, List.length_map, List.length_range,
      List.length_drop]
    omega
  · simp only [Volume.bytesFrom, List.length_map, List.length_range] at h1
    simp only [Volume.bytesFrom, List.getElem_map, List.getElem_range, Nat.zero_add]
    rw [hs.byte q (by omega), Nat.zero_add, Nat.sub_zero]
    by_cases hq : q < bs.length
    · rw [if_pos ⟨Nat.zero_le q, hq⟩, List.getElem_append_left hq, List.getD_eq_getElem _ _ hq]
    · rw [if_neg (by omega), if_pos (by omega), List.getElem_append_right (by omega)]
      simp only [List.getElem_drop, List.getElem_map, List.getElem_range]
      congr 1
      omega

theorem bmod_length {n : Nat} (hn : n < 2^31) : Int.bmod n word = n := by
  have hword : ((word : Nat) : Int) = 4294967296 := rfl
  rw [Int.bmod_eq_of_le (by rw [hword]; omega) (by rw [hword]; omega)]

theorem Frames.fat32Open (hf : Frames v w) (hv : v.Formatted) (hwf : v.view.WellFormed)
    (hpath : v.findPath path = some e) : w.fat32Open path = some (w.openEntry e) := by
  rw [Volume.fat32Open, hf.findPath hv hwf, hpath, Option.map_some]

/-- A byte string goes to its file as it should if no piece begins behind a full cluster. -/
theorem rewritten_of_splits {ds : List (List UInt8)} (hv : v.Formatted) (hwf : v.view.WellFormed)
    (ho : v.fat32Open path = some h) (hfile : h.isDir = false)
    (hfits : ∀ l, v.view.Runs h.firstCluster l → h.fileSize ≤ l.length * v.bytesPerCluster)
    (hroom : ∀ l, v.view.Runs h.firstCluster l →
      max 1 ds.flatten.length ≤ (l.length + v.freeCount) * v.bytesPerCluster)
    (hs : Splits v.bytesPerCluster 0 (ds.map List.length)) (hint : ∀ d ∈ ds, d.length < 2^31)
    (hword : ds.flatten.length < word) : Rewritten v path h ds := by
  obtain ⟨c, i, l, hr, hpath, hopen, hl⟩ := ready_open hv hwf ho hfile
  have hoff : h.offset = 0 := by rw [hopen]; rfl
  obtain ⟨l₂, hrets, hcall⟩ := hr.writeAll hv hwf (hoff.symm ▸ hs)
    (by rw [hoff, Nat.zero_add]; exact hroom l hl) (by omega)
  have hreopen := hcall.frames.fat32Open hv hwf hpath
  have hw := hcall.frames.like.formatted hv
  have hsize := hcall.frames.like.bytesPerCluster
  have hin := hcall.ready.offset_le hw
  have hk := hcall.ready
  have hkoff := hcall.offset
  have hkmax := hcall.fileSize
  have hstored := hcall.stored
  rw [hoff] at hstored hkoff
  refine ⟨?_, ?_⟩
  · rw [hrets]
    exact List.map_congr_left fun d hd => bmod_length (hint d hd)
  · generalize Volume.writeAll v h ds = r at hreopen hw hsize hin hk hkoff hkmax hstored hcall ⊢
    have hentry : r.2.1.bpb.slotAddr c i = h.dirEntry := by
      rw [hcall.frames.like.bpb, hr.dirEntry]
    have hkentry : r.2.2.dirEntry = h.dirEntry := hk.dirEntry.trans hentry
    have hsizeAt : r.2.1.sizeAt h.dirEntry = max h.fileSize ds.flatten.length := by
      rw [← hkentry, ← hk.sized.size, hkmax]
      omega
    rw [hsize] at hin
    have hlong := Nat.mul_le_mul_right v.bytesPerCluster hstored.longer
    have hfit := hfits l hl
    refine ⟨_, v.bytesFrom l 0 h.fileSize, hreopen, fun n hn => ?_, hsizeAt, fun n hn => ?_⟩
    · have hold : isDirectory (v.attrAt h.dirEntry) = false := by
        rw [hr.dirEntry]
        exact hr.file
      have hread := read_fresh hv (show v.view.Runs (v.firstAt h.dirEntry) l by
        rw [hr.dirEntry]; exact hr.runs) hold n
      rw [← hopen, ← hr.sized.size] at hread
      rw [hread, Nat.min_eq_right hn, Nat.min_eq_left hfit]
    · have hnew : isDirectory (r.2.1.attrAt h.dirEntry) = false := by
        rw [← hentry]
        exact hk.file
      have hn' : r.2.1.sizeAt h.dirEntry ≤ n := hn
      rw [read_fresh hw (show r.2.1.view.Runs (r.2.1.firstAt h.dirEntry) l₂ by
        rw [← hentry]; exact hk.runs) hnew n, Nat.min_eq_right hn', hsizeAt, hsize,
        Nat.min_eq_left (by omega), hstored.bytesFrom hfit (by omega)]

end files

end Volume

end LosTacOS.Fat
