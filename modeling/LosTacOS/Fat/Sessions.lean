import LosTacOS.Fat.Opening

/-! Several handles on one volume. -/
namespace LosTacOS.Fat

open ByteMemory

inductive Op where
  | fat32Open (path : List UInt8)
  | fat32Read (k size : Nat)
  | fat32Write (k : Nat) (buf : List UInt8)
  | fat32Close (k : Nat)

/-- A volume and the handles that were opened on it; a closed one is `none`. -/
structure Session where
  vol : Volume
  handles : List (Option Handle)

namespace Session

def start (v : Volume) : Session := ⟨v, []⟩

def handle (s : Session) (k : Nat) : Option Handle := s.handles[k]?.join

def step (s : Session) : Op → Session
  | .fat32Open path =>
    match s.vol.fat32Open path with
    | none => s
    | some h => { s with handles := s.handles ++ [some h] }
  | .fat32Read k size =>
    match s.handle k with
    | none => s
    | some h => { s with handles := s.handles.set k (some (s.vol.fat32Read h size).2) }
  | .fat32Write k buf =>
    match s.handle k with
    | none => s
    | some h =>
      let r := s.vol.fat32Write h buf
      ⟨r.2.1, s.handles.set k (some r.2.2)⟩
  | .fat32Close k => { s with handles := s.handles.set k none }

/-- Sessions on the volume `v` in which all calls meet `C`. -/
inductive Reached (C : Session → Op → Prop) (v : Volume) : Session → Prop
  | start : Reached C v (start v)
  | step {s : Session} {op : Op} : Reached C v s → C s op → Reached C v (s.step op)

def Current (s : Session) : Op → Prop
  | .fat32Write k _ => ∀ h, s.handle k = some h →
      h.firstCluster = 0 ∨ h.firstCluster = s.vol.firstAt h.dirEntry
  | _ => True

/-- The volume stays well-formed, the copies of its table stay equal, and a write changes no byte
but those of the file's own chain and of its directory entry. -/
structure Safe (s : Session) (op : Op) : Prop where
  wellFormed : (s.step op).vol.view.WellFormed
  copies : (s.step op).vol.Copies
  bytes : ∀ k buf h, op = .fat32Write k buf → s.handle k = some h →
    ∀ a, s.vol.bpb.dataAddr ≤ a → (s.step op).vol.image a ≠ s.vol.image a →
      (h.dirEntry ≤ a ∧ a < h.dirEntry + entrySize) ∨
      ∃ l d, (s.step op).vol.view.Runs ((s.step op).vol.firstAt h.dirEntry) l ∧ d ∈ l ∧
        Volume.InCluster s.vol.bpb d a
  others : (∀ k buf, op ≠ .fat32Write k buf) → (s.step op).vol = s.vol

end Session

namespace Volume

variable {v w : Volume} {h k : Handle} {c i c' i' n : Nat}

/-- What a handle and its volume have to do with each other, also when another handle has changed
the file meanwhile. -/
structure Tracks (v : Volume) (h : Handle) (c i : Nat) : Prop where
  entry : v.view.Entry c i
  dirEntry : h.dirEntry = v.bpb.slotAddr c i
  isDir : h.isDir = isDirectory (v.view.attr c i)
  taken : h.firstCluster ≠ 0 → v.view.InRange h.firstCluster ∧ v.readFat h.firstCluster ≠ 0
  curr : h.firstCluster ≠ 0 → h.firstCluster = v.view.first c i →
    ∃ l, v.view.Runs (v.view.first c i) l ∧ h.currCluster ∈ l

theorem Tracks.firstAt (ht : Tracks v h c i) : v.firstAt h.dirEntry = v.view.first c i := by
  rw [ht.dirEntry]
  rfl

theorem Tracks.onFile (ht : Tracks v h c i) (hfile : h.isDir = false) (hne : h.firstCluster ≠ 0)
    (hcur : h.firstCluster = v.firstAt h.dirEntry) : OnFile v h c i :=
  ⟨ht.entry, ht.isDir.symm.trans hfile, ht.dirEntry, ht.curr hne (hcur.trans ht.firstAt)⟩

theorem tracks_open {path : List UInt8} (hv : v.Formatted) (hwf : v.view.WellFormed)
    (ho : v.fat32Open path = some h) : ∃ c i, Tracks v h c i := by
  obtain ⟨e, he, rfl⟩ := Option.map_eq_some_iff.mp ho
  obtain ⟨c, i, rfl, hentry⟩ := findPath_entry hv hwf he
  obtain ⟨l, hl⟩ := hwf.entry hentry
  have hhead : v.view.first c i ≠ 0 → v.view.first c i ∈ l := by
    intro hne
    have hchain := hl.chain
    rw [View.headOf, if_neg hne] at hchain
    cases l with
    | nil => cases hchain
    | cons y l =>
      cases hchain.1
      exact List.mem_cons_self
  refine ⟨c, i, hentry, rfl, rfl, fun hne => ?_, fun hne _ => ⟨l, hl, hhead hne⟩⟩
  exact ⟨hl.inRange _ (hhead hne), hl.fat_ne (hhead hne)⟩

section reading

theorem readLoop_steady {fuel left : Nat} {read : List UInt8} :
    Steady h (v.readLoop fuel h left read).2 := by
  induction fuel generalizing h left read with
  | zero => exact ⟨rfl, rfl, rfl⟩
  | succ fuel ih =>
    rw [readLoop]
    split
    · exact ⟨rfl, rfl, rfl⟩
    · cases v.clusterPtr h.currCluster with
      | none => exact ⟨rfl, rfl, rfl⟩
      | some p =>
        dsimp only
        split
        · split
          · exact ⟨rfl, rfl, rfl⟩
          · exact ⟨ih.first, ih.entry, ih.isDir⟩
        · exact ⟨ih.first, ih.entry, ih.isDir⟩

theorem readLoop_curr {fuel left : Nat} {read : List UInt8} {l : List Nat} (hl : v.view.Runs n l)
    (hmem : h.currCluster ∈ l) : (v.readLoop fuel h left read).2.currCluster ∈ l := by
  induction fuel generalizing h left read with
  | zero => exact hmem
  | succ fuel ih =>
    rw [readLoop]
    split
    · exact hmem
    · cases v.clusterPtr h.currCluster with
      | none => exact hmem
      | some p =>
        dsimp only
        split
        · split
          · exact hmem
          · rename_i hnext
            exact ih (hl.next_mem hmem hnext)
        · exact ih hmem

theorem Tracks.fat32Read (ht : Tracks v h c i) (size : Nat) :
    Tracks v (v.fat32Read h size).2 c i := by
  unfold Volume.fat32Read
  split
  · exact ht
  · split
    · exact ht
    · dsimp only
      have hs := @readLoop_steady v h (min size (h.fileSize - h.offset)) (min size (h.fileSize - h.offset)) []
      refine ⟨ht.entry, hs.entry.trans ht.dirEntry, hs.isDir.trans ht.isDir, ?_, ?_⟩
      · rw [hs.first]
        exact ht.taken
      · rw [hs.first]
        intro hne he
        obtain ⟨l, hl, hmem⟩ := ht.curr hne he
        exact ⟨l, hl, readLoop_curr hl hmem⟩

end reading

section writing

/-- Handles survive a write to a file: those of other files, and those that do not share its chain. -/
theorem Tracks.writes (ht : Tracks v k c' i') (hw : Writes c i v w)
    (hcurr : (c', i') = (c, i) → k.firstCluster ≠ 0 → k.firstCluster = w.view.first c i →
      ∃ l, w.view.Runs (w.view.first c i) l ∧ k.currCluster ∈ l) : Tracks w k c' i' := by
  refine ⟨hw.keeps.entry.mpr ht.entry, ?_, ?_, fun hne => ?_, fun hne he => ?_⟩
  · rw [hw.like.bpb]
    exact ht.dirEntry
  · rw [hw.keeps.entry_attr ht.entry]
    exact ht.isDir
  · obtain ⟨hin, h0⟩ := ht.taken hne
    exact ⟨hw.like.inRange.mpr hin, hw.used hin h0⟩
  · by_cases hsame : (c', i') = (c, i)
    · cases hsame
      exact hcurr rfl hne he
    · obtain ⟨hfirst, hruns⟩ := hw.others ht.entry hsame
      rw [hfirst] at he ⊢
      obtain ⟨l, hl, hmem⟩ := ht.curr hne he
      exact ⟨l, hruns hl, hmem⟩

theorem Tracks.extends (ht : Tracks v k c' i') (hx : Extends c i v w)
    (hne : v.view.first c i ≠ 0) : Tracks w k c' i' := by
  refine ht.writes hx.toWrites fun hsame hk he => ?_
  cases hsame
  rw [hx.fixed hne] at he
  obtain ⟨l, hl, hmem⟩ := ht.curr hk he
  obtain ⟨l', hl'⟩ := hx.grows hl
  exact ⟨_, hl', List.mem_append_left l' hmem⟩

theorem Tracks.moved (ht : Tracks v h c i) (hm : Moved c i v h w k) : Tracks w k c i := by
  have hx := hm.volume
  refine ⟨hm.onFile.entry, hm.onFile.dirEntry, ?_, ?_, fun _ _ => hm.onFile.curr⟩
  · rw [hm.handle.isDir, hx.keeps.entry_attr ht.entry]
    exact ht.isDir
  · rw [hm.handle.first]
    intro hne
    obtain ⟨hin, h0⟩ := ht.taken hne
    exact ⟨hx.like.inRange.mpr hin, hx.used hin h0⟩

structure Written (c i : Nat) (v w : Volume) (k : Handle) : Prop where
  volume : Writes c i v w
  own : Tracks w k c i
  kept : ∀ {k' c' i'}, Tracks v k' c' i' → Tracks w k' c' i'

theorem Tracks.written_loop {fuel written : Nat} {buf : List UInt8} (ht : Tracks v h c i)
    (hf : OnFile v h c i) (hv : v.Formatted) (hwf : v.view.WellFormed) :
    Written c i v (writeLoop fuel v h buf written).2.1 (writeLoop fuel v h buf written).2.2 := by
  have hm := @OnFile.writeLoop v h c i fuel written buf hf hv hwf
  exact ⟨hm.volume.toWrites, ht.moved hm, fun hk => hk.extends hm.volume hf.first_ne⟩

/-- The first cluster is taken and entered in the directory. -/
theorem Tracks.written_first (ht : Tracks v h c i) (hfile : h.isDir = false) (hv : v.Formatted)
    (hwf : v.view.WellFormed) (ha : v.allocCluster = some (n, w)) :
    Written c i v (w.setFirst h.dirEntry n) { h with firstCluster := n, currCluster := n } ∧
      OnFile (w.setFirst h.dirEntry n) { h with firstCluster := n, currCluster := n } c i := by
  have halloc := hv.allocCluster ha
  have hin := halloc.inRange
  obtain ⟨-, hfirst, hw, hruns⟩ := publish_first hv hwf ht.entry (ht.isDir.symm.trans hfile)
    ht.dirEntry ha
  generalize w.setFirst h.dirEntry n = x at hfirst hw hruns ⊢
  have hown : Tracks x { h with firstCluster := n, currCluster := n } c i := by
    refine ⟨hw.keeps.entry.mpr ht.entry, ?_, ?_, fun _ => ?_, fun _ _ => ?_⟩
    · rw [hw.like.bpb]
      exact ht.dirEntry
    · rw [hw.keeps.entry_attr ht.entry]
      exact ht.isDir
    · exact ⟨hw.like.inRange.mpr hin, hruns.fat_ne List.mem_cons_self⟩
    · rw [hfirst]
      exact ⟨[n], hruns, List.mem_cons_self⟩
  refine ⟨⟨hw, hown, fun hk => hk.writes hw fun _ hne hkn => ?_⟩, ?_⟩
  · -- no handle knows the cluster, it was free
    rw [hfirst] at hkn
    have hused := (hk.taken hne).2
    rw [hkn] at hused
    exact absurd halloc.free hused
  · have hn : n ≠ 0 := by
      have := hin.1
      omega
    exact hown.onFile hfile hn (hfirst.symm.trans hown.firstAt.symm)

theorem Written.trans {x : Volume} {h' : Handle} (h1 : Written c i v w k) (hx : Extends c i w x)
    (h2 : Written c i w x h') : Written c i v x h' :=
  ⟨h1.volume.trans hx, h2.own, fun hk => h2.kept (h1.kept hk)⟩

theorem Tracks.fat32Write {buf : List UInt8} (ht : Tracks v h c i) (hv : v.Formatted)
    (hwf : v.view.WellFormed) (hcur : h.firstCluster = 0 ∨ h.firstCluster = v.firstAt h.dirEntry) :
    Written c i v (v.fat32Write h buf).2.1 (v.fat32Write h buf).2.2 := by
  have hsame : Written c i v v h := ⟨(Extends.refl hwf).toWrites, ht, id⟩
  unfold Volume.fat32Write
  split
  · exact hsame
  · rename_i hdir
    have hfile : h.isDir = false := Bool.eq_false_iff.mpr hdir
    split
    · cases ha : v.allocCluster with
      | none => exact hsame
      | some r =>
        obtain ⟨n, u⟩ := r
        obtain ⟨hw, hf⟩ := ht.written_first hfile hv hwf ha
        have hfmt := hw.volume.like.formatted hv
        have hm := @OnFile.writeLoop _ _ c i buf.length 0 buf hf hfmt hw.volume.wellFormed
        exact hw.trans hm.volume (hw.own.written_loop hf hfmt hw.volume.wellFormed)
    · rename_i hne
      have hf := ht.onFile hfile hne (hcur.resolve_left hne)
      exact ht.written_loop hf hv hwf

end writing

end Volume

namespace Session

variable {s : Session} {v : Volume} {op : Op}

structure Sound (s : Session) : Prop where
  formatted : s.vol.Formatted
  wellFormed : s.vol.view.WellFormed
  copies : s.vol.Copies
  handles : ∀ h, some h ∈ s.handles → ∃ c i, s.vol.Tracks h c i

theorem mem_of_handle {k : Nat} {h : Handle} (hk : s.handle k = some h) : some h ∈ s.handles :=
  List.mem_of_getElem? (Option.join_eq_some_iff.mp hk)

theorem Sound.start (hv : v.Formatted) (hwf : v.view.WellFormed) (hc : v.Copies) :
    (start v).Sound :=
  ⟨hv, hwf, hc, fun _ hh => absurd hh List.not_mem_nil⟩

theorem Sound.set (hs : s.Sound) {k : Nat} {o : Option Handle}
    (ho : ∀ h, o = some h → ∃ c i, s.vol.Tracks h c i) :
    Sound { s with handles := s.handles.set k o } := by
  refine ⟨hs.formatted, hs.wellFormed, hs.copies, fun h hh => ?_⟩
  cases List.mem_or_eq_of_mem_set hh with
  | inl hold => exact hs.handles h hold
  | inr hnew => exact ho h hnew.symm

theorem Sound.fat32Open (hs : s.Sound) (path : List UInt8) :
    (s.step (.fat32Open path)).Sound ∧ (s.step (.fat32Open path)).vol = s.vol := by
  rw [step]
  cases ho : s.vol.fat32Open path with
  | none => exact ⟨hs, rfl⟩
  | some h =>
    refine ⟨⟨hs.formatted, hs.wellFormed, hs.copies, fun h' hh => ?_⟩, rfl⟩
    cases List.mem_append.mp hh with
    | inl hold => exact hs.handles h' hold
    | inr hnew =>
      cases List.mem_singleton.mp hnew
      exact Volume.tracks_open hs.formatted hs.wellFormed ho

theorem Sound.fat32Read (hs : s.Sound) (k size : Nat) :
    (s.step (.fat32Read k size)).Sound ∧ (s.step (.fat32Read k size)).vol = s.vol := by
  rw [step]
  cases hk : s.handle k with
  | none => exact ⟨hs, rfl⟩
  | some h =>
    refine ⟨hs.set fun h' hh => ?_, rfl⟩
    cases hh
    obtain ⟨c, i, ht⟩ := hs.handles h (mem_of_handle hk)
    exact ⟨c, i, ht.fat32Read size⟩

theorem Sound.fat32Write (hs : s.Sound) {k : Nat} {h : Handle} (buf : List UInt8)
    (hk : s.handle k = some h)
    (hcur : h.firstCluster = 0 ∨ h.firstCluster = s.vol.firstAt h.dirEntry) :
    (s.step (.fat32Write k buf)).Sound ∧ ∃ c i, h.dirEntry = s.vol.bpb.slotAddr c i ∧
      Volume.Writes c i s.vol (s.step (.fat32Write k buf)).vol := by
  obtain ⟨c, i, ht⟩ := hs.handles h (mem_of_handle hk)
  have hw := @Volume.Tracks.fat32Write _ _ c i buf ht hs.formatted hs.wellFormed hcur
  simp only [step, hk]
  generalize s.vol.fat32Write h buf = r at hw ⊢
  refine ⟨⟨hw.volume.like.formatted hs.formatted, hw.volume.wellFormed,
    hw.volume.copies hs.copies, fun h' hh => ?_⟩, c, i, ht.dirEntry, hw.volume⟩
  cases List.mem_or_eq_of_mem_set hh with
  | inl hold =>
    obtain ⟨c', i', ht'⟩ := hs.handles h' hold
    exact ⟨c', i', hw.kept ht'⟩
  | inr hnew =>
    cases hnew
    exact ⟨c, i, hw.own⟩

theorem Sound.safe (hs : s.Sound) (hv : (s.step op).vol = s.vol)
    (hop : ∀ k buf, op ≠ .fat32Write k buf) : s.Safe op := by
  refine ⟨?_, ?_, fun k buf h he => absurd he (hop k buf), fun _ => hv⟩
  · rw [hv]
    exact hs.wellFormed
  · rw [hv]
    exact hs.copies

theorem Sound.safe_step (hs : s.Sound) (hcur : s.Current op) : s.Safe op ∧ (s.step op).Sound := by
  cases op with
  | fat32Open path =>
    obtain ⟨hs', hv⟩ := hs.fat32Open path
    exact ⟨hs.safe hv (fun _ _ h => nomatch h), hs'⟩
  | fat32Read k size =>
    obtain ⟨hs', hv⟩ := hs.fat32Read k size
    exact ⟨hs.safe hv (fun _ _ h => nomatch h), hs'⟩
  | fat32Close k =>
    exact ⟨hs.safe rfl (fun _ _ h => nomatch h), hs.set fun h hh => nomatch hh⟩
  | fat32Write k buf =>
    cases hk : s.handle k with
    | none =>
      have he : s.step (.fat32Write k buf) = s := by simp only [step, hk]
      have hsafe : s.Safe (.fat32Write k buf) := by
        refine ⟨by rw [he]; exact hs.wellFormed, by rw [he]; exact hs.copies,
          fun k' buf' h hop hk' => ?_, fun _ => by rw [he]⟩
        cases hop
        rw [hk] at hk'
        cases hk'
      rw [he]
      exact ⟨hsafe, hs⟩
    | some h =>
      obtain ⟨hs', c, i, hentry, hw⟩ := hs.fat32Write buf hk (hcur h hk)
      refine ⟨⟨hs'.wellFormed, hs'.copies, fun k' buf' h' hop hk' a ha hne => ?_,
        fun hno => absurd rfl (hno k buf)⟩, hs'⟩
      cases hop
      rw [hk] at hk'
      cases hk'
      have hfirst : (s.step (.fat32Write k buf)).vol.firstAt h.dirEntry =
          (s.step (.fat32Write k buf)).vol.view.first c i := by
        rw [hentry, ← hw.like.bpb]
        rfl
      rw [hfirst, hentry]
      cases hw.bytes a ha hne with
      | inl hin => exact Or.inl ⟨by have := hin.1; omega, hin.2⟩
      | inr hin => exact Or.inr hin

/-- The sessions in which only current handles write keep their volume in order. -/
theorem Reached.sound (hv : v.Formatted) (hwf : v.view.WellFormed) (hc : v.Copies)
    (hr : Reached Current v s) : s.Sound := by
  induction hr with
  | start => exact Sound.start hv hwf hc
  | step _ hcur ih => exact (ih.safe_step hcur).2

/-- As long as no handle writes whose first cluster another one has replaced in the directory, every
call is safe. -/
theorem writes_safe (hv : v.Formatted) (hwf : v.view.WellFormed) (hc : v.Copies)
    (hr : Reached Current v s) (hcur : s.Current op) : s.Safe op :=
  ((hr.sound hv hwf hc).safe_step hcur).1

section oneFile

/-- A volume of ten sectors with the empty file `A` in its root directory. -/
def oneFile : Volume where
  bpb := ⟨512, 1, 1, 1, 10, 1, 2⟩
  diskSize := 5120
  image := storeBytes (storeLE (fun _ => 0) 520 4 endMark) 1024 (65 :: List.replicate 10 32 ++ [0x20])

theorem oneFile_formatted : oneFile.Formatted :=
  ⟨by decide, by decide, by decide, by decide, by decide, by decide, by decide, by decide⟩

theorem oneFile_fat {c : Nat} (hc : oneFile.view.InRange c) :
    oneFile.view.next c = if c = 2 then none else some 0 := by
  have hall : ∀ d < 10, oneFile.view.next d = if d = 2 then none else if d < 2 then oneFile.view.next d
      else some 0 := by decide
  have hlt : c < 10 := hc.2
  rw [hall c hlt, if_neg (show ¬ c < 2 by have := hc.1; omega)]

theorem oneFile_scans {c : Nat} (h : oneFile.view.Scans 2 c) : c = 2 := by
  cases h with
  | here _ => rfl
  | next hin _ hnext _ =>
    rw [oneFile_fat hin, if_pos rfl] at hnext
    cases hnext

theorem oneFile_shown {c i : Nat} (h : oneFile.view.Shown 2 c i) : c = 2 ∧ i = 0 := by
  have hc := oneFile_scans h.scans
  subst hc
  refine ⟨rfl, ?_⟩
  have hblank : oneFile.view.mark 2 1 = 0 := by decide
  by_contra hne
  by_cases h1 : i = 1
  · subst h1
    exact h.used.1 hblank
  · exact h.before 1 (by omega) hblank

theorem oneFile_dir {d : Nat} (h : oneFile.view.Dir d) : d = 2 := by
  induction h with
  | root => rfl
  | sub _ hshown hattr ih =>
    subst ih
    obtain ⟨rfl, rfl⟩ := oneFile_shown hshown
    revert hattr
    decide

theorem oneFile_entry {c i : Nat} (h : oneFile.view.Entry c i) : oneFile.view.first c i = 0 := by
  obtain ⟨d, hd, hshown⟩ := h
  have hd2 := oneFile_dir hd
  subst hd2
  obtain ⟨rfl, rfl⟩ := oneFile_shown hshown
  decide

theorem oneFile_points {src : View.Source} {n : Nat} (hn : oneFile.view.InRange n)
    (h : oneFile.view.Points src n) : src = .root := by
  have hn2 := hn.1
  cases src with
  | root => rfl
  | entry c i =>
    have h0 := oneFile_entry h.1
    have hfirst := h.2
    omega
  | cluster c =>
    have hnext := h.2
    rw [oneFile_fat h.1] at hnext
    split at hnext
    · cases hnext
    · cases hnext
      omega

theorem oneFile_wellFormed : oneFile.view.WellFormed where
  unique hn h h' := (oneFile_points hn h).trans (oneFile_points hn h').symm
  linked hc hnext hn := nomatch oneFile_points hn (show oneFile.view.Points (.cluster _) _ from ⟨hc, hnext⟩)
  root := by
    have hend : oneFile.view.next 2 = none := by decide
    refine ⟨[2], ⟨rfl, hend⟩, fun c hc => ?_⟩
    rw [List.mem_singleton.mp hc]
    exact ⟨by decide, by decide⟩
  entry he := by
    rw [oneFile_entry he]
    exact ⟨[], rfl, fun c hc => absurd hc List.not_mem_nil⟩

theorem oneFile_copies : oneFile.Copies := by
  intro f hf k _
  have h0 : f = 0 := Nat.lt_one_iff.mp hf
  rw [h0]

end oneFile

/-- The file has 300 bytes from one handle, and another one is open. -/
def sharedFile : Session :=
  (((start oneFile).step (.fat32Open [65])).step (.fat32Write 0 (List.replicate 300 1))).step
    (.fat32Open [65])

theorem current_of_handle {k : Nat} {buf : List UInt8}
    (h : (s.handle k).all (fun h => h.firstCluster = 0 ∨ h.firstCluster = s.vol.firstAt h.dirEntry) =
      true) : s.Current (.fat32Write k buf) := by
  intro d hd
  rw [hd] at h
  exact of_decide_eq_true h

/-- The other handle writes over them and on into a second cluster. -/
theorem writes_safe_two_handles : sharedFile.Safe (.fat32Write 1 (List.replicate 600 2)) ∧
    ((sharedFile.step (.fat32Write 1 (List.replicate 600 2))).handle 1).any
      (fun h => h.firstCluster = 3 ∧ h.currCluster = 4) = true := by
  refine ⟨writes_safe oneFile_formatted oneFile_wellFormed oneFile_copies
    (.step (.step (.step .start trivial) ?_) trivial) ?_, by decide +kernel⟩
  · exact current_of_handle (by decide +kernel)
  · exact current_of_handle (by decide +kernel)

def twoHandles : Session :=
  ((((start oneFile).step (.fat32Open [65])).step (.fat32Open [65])).step (.fat32Write 0 [1])).step
    (.fat32Write 1 [2])

/-- The handle whose cluster was replaced in the directory goes on writing there. -/
theorem stale_handle_writes :
    ¬ ∀ (v : Volume) (s : Session) (op : Op), v.Formatted → v.view.WellFormed → v.Copies →
      Reached (fun _ _ => True) v s → s.Safe op := by
  intro H
  have hsafe := H oneFile twoHandles (.fat32Write 0 [3]) oneFile_formatted oneFile_wellFormed
    oneFile_copies (.step (.step (.step (.step .start trivial) trivial) trivial) trivial)
  have hgeometry : twoHandles.vol.bpb.dataAddr = 1024 ∧ twoHandles.vol.bpb.clusterAddr 4 = 2048 := by
    decide
  have hhandle : (twoHandles.handle 0).any (·.dirEntry = 1024) = true := by decide
  have himage : twoHandles.vol.image 1537 = 0 ∧
      (twoHandles.step (.fat32Write 0 [3])).vol.image 1537 = 3 := by decide +kernel
  have hfirst : (twoHandles.step (.fat32Write 0 [3])).vol.firstAt 1024 = 4 := by decide
  have hnext : (twoHandles.step (.fat32Write 0 [3])).vol.view.next 4 = none := by decide
  cases hh : twoHandles.handle 0 with
  | none =>
    rw [hh] at hhandle
    cases hhandle
  | some h =>
    rw [hh] at hhandle
    have he : h.dirEntry = 1024 := of_decide_eq_true hhandle
    have hbytes := hsafe.bytes 0 [3] h rfl hh 1537 (by omega) (by rw [himage.1, himage.2]; decide)
    rw [he, hfirst] at hbytes
    rcases hbytes with hin | ⟨l, d, hl, hd, hin⟩
    · obtain ⟨-, hlt⟩ := hin
      simp only [entrySize] at hlt
      omega
    · -- the chain of the file is the second handle's cluster alone
      have hl4 : l = [4] := hl.chain.unique ⟨rfl, hnext⟩
      rw [hl4, List.mem_singleton] at hd
      subst hd
      have hlow := hin.1
      omega

end Session

end LosTacOS.Fat
