import LosTacOS.Os.Existence
import LosTacOS.Os.FileData

/-! What the calls on files give back to the heap. -/
namespace LosTacOS.Os.Kernel

variable {env : Env} {k k' q : Kernel} {n m b : Nat} {path : List Char}

def Owns (k : Kernel) (n : Nat) : Prop := ∀ p, k.fileData n = some p → p.off = 0

def FreesWell (k k' : Kernel) : Prop :=
  k'.freed = k.freed ∨ ∃ p, k'.freed = p :: k.freed ∧ k.OwnedStart p

structure Sound (k : Kernel) : Prop where
  home : AtHome k
  data : DataKept k

section same

theorem Sound.quiet (h : Sound k) (hh : AtHome k') (hq : SameData k k') : Sound k' :=
  ⟨hh, h.data.of_same hq⟩

theorem FreesWell.of_same (h : Sound k) (hs : SameData k q) (hf : FreesWell q k') :
    FreesWell k k' := by
  unfold FreesWell
  rw [← hs.freed]
  cases hf with
  | inl hf => exact Or.inl hf
  | inr hf =>
    obtain ⟨p, hp, ho⟩ := hf
    obtain ⟨n, hn, hd, _⟩ := ho.owner
    obtain ⟨hu, hd', _⟩ := hs.data hn hd
    exact Or.inr ⟨p, hp, h.data.owned hu hd' ho.start⟩

/-- Everything that a call which is not about the data of files may change. -/
theorem Sound.aside (h : Sound k) (hn : k'.nodes = k.nodes) (hf : k'.files = k.files)
    (hb : k'.blocks.used = k.blocks.used) (hl : k'.blockLen = k.blockLen) (hr : k'.root = k.root)
    (hc : k'.getProcessCwd = k.getProcessCwd) : Sound k' := by
  refine ⟨h.home.of_shape ?_ hc, h.data.congr hn hf hb hl⟩
  unfold shape node
  rw [hn, hr]

theorem setEntry_cwd (p : Nat) (i : Fin maxFds) (e : FdEntry) :
    (k.setEntry p i e).getProcessCwd = k.getProcessCwd := by
  have hcur : (k.setEntry p i e).currentProc = k.currentProc := rfl
  have hcwd : ∀ x, ((k.setEntry p i e).proc x).cwd = (k.proc x).cwd := by
    intro x
    unfold setEntry proc setProc
    dsimp only
    rw [Arena.set_cell]
    split
    · rename_i hx
      rw [hx]
    · rfl
  unfold getProcessCwd
  rw [hcur]
  cases k.currentProc with
  | none => rfl
  | some x =>
    dsimp only
    rw [hcwd]
    rfl

theorem Sound.setEntry (h : Sound k) (p : Nat) (i : Fin maxFds) (e : FdEntry) :
    Sound (k.setEntry p i e) :=
  h.aside rfl rfl rfl rfl rfl (setEntry_cwd p i e)

end same

section content

theorem Sound.replaced {f size len : Nat} {content : Nat → UInt8} (h : Sound k)
    (hn : n ∈ k.nodes.used) (hf : (k.node n).file = some f) (ho : k.Owns n) (hs : size < len)
    (hr : Replaced k k' f b size len content) : Sound k' ∧ FreesWell k k' := by
  refine ⟨⟨h.home.of_shape ?_ ?_, hr.kept h.data hn hf hs ho⟩, ?_⟩
  · unfold shape node
    rw [hr.nodes, hr.root]
  · exact getProcessCwd_of_procSide hr.procs hr.root
  · cases hr.freed with
    | inl hfree => exact Or.inl hfree.2
    | inr hfree =>
      obtain ⟨p, hp, hfree⟩ := hfree
      have hd : k.fileData n = some p := (fileData_eq hf).trans hp
      exact Or.inr ⟨p, hfree, h.data.owned hn hd (ho p hd)⟩

theorem Sound.allocated (h : Sound k) : Sound { k with allocs := k.allocs + 1 } :=
  h.aside rfl rfl rfl rfl rfl rfl

theorem Sound.ensured_none (h : Sound k) (he : k.ensureFileStorage env n = (none, k')) :
    Sound k' ∧ k'.freed = k.freed := by
  cases ensureFileStorage_none he with
  | inl hk =>
    rw [hk]
    exact ⟨h, rfl⟩
  | inr hk =>
    rw [hk]
    exact ⟨h.allocated, rfl⟩

/-- A file of its own does not change what there is to give back. -/
theorem Ensured.freesWell {f : Nat} (he : Ensured k q n f) (hf : FreesWell q k')
    (ho : ∀ p, q.OwnedStart p → k.OwnedStart p) : FreesWell k k' := by
  unfold FreesWell
  rw [← he.freed]
  cases hf with
  | inl hf => exact Or.inl hf
  | inr hf =>
    obtain ⟨p, hp, hs⟩ := hf
    exact Or.inr ⟨p, hp, ho p hs⟩

theorem Ensured.owned {f : Nat} {p : Ptr} (he : Ensured k q n f) (h : q.OwnedStart p) :
    k.OwnedStart p := by
  obtain ⟨m, hm, hp, hown⟩ := h.owner
  rw [he.used] at hm hown
  refine ⟨h.start, he.blocks ▸ h.live, m, hm, ?_, fun x hx r hr => ?_⟩
  · rw [← (he.data m (Or.inr hm)).1]
    exact hp
  · rw [← (he.data x (Or.inr hx)).1] at hr
    exact hown x hx r hr

theorem Ensured.owns {f : Nat} (he : Ensured k q n f) (h : k.Owns n) : q.Owns n := by
  intro p hp
  rw [(he.data n (Or.inl rfl)).1] at hp
  exact h p hp

theorem Sound.setContent {data : List UInt8} {r : Bool} (h : Sound k) (hn : n ∈ k.nodes.used)
    (ho : k.Owns n) (hs : k.setContent env n data = (r, k')) : Sound k' ∧ FreesWell k k' := by
  rcases setContent_cases h.data hn hs with he | ⟨f, k1, he, hk⟩
  · obtain ⟨h1, hfreed⟩ := h.ensured_none he
    exact ⟨h1, Or.inl hfreed⟩
  · have hens := ensureFileStorage_some h.data he
    have h1 : Sound k1 := ⟨hens.home h.home, hens.kept⟩
    rcases hk with rfl | ⟨b, content, hr⟩
    · exact ⟨h1.allocated, Or.inl hens.freed⟩
    · obtain ⟨h2, hfree⟩ := h1.replaced (hens.used ▸ hn) hens.file (hens.owns ho)
        (Nat.lt_succ_self _) hr
      exact ⟨h2, hens.freesWell hfree fun p hp => hens.owned hp⟩

theorem Sound.copyTo (h : Sound k) (p : Ptr) (bytes : List UInt8) : Sound (k.copyTo p bytes) :=
  h.aside rfl rfl rfl rfl rfl rfl

/-- Growth is the only part of a write that gives data back. -/
theorem Sound.growFile {f size : Nat} (h : Sound k) (hf : (k.node n).file = some f)
    (hn : k.fileSize n < size → n ∈ k.nodes.used ∧ k.Owns n)
    (hg : k.growFile env f size = some k') : Sound k' ∧ FreesWell k k' := by
  by_cases hlt : k.fileSize n < size
  · obtain ⟨hu, ho⟩ := hn hlt
    rcases growFile_cases h.data hu hf hg with ⟨hle, -⟩ | ⟨-, b, content, hr, -⟩
    · exact absurd hle (Nat.not_le.mpr hlt)
    · exact h.replaced hu hf ho (Nat.lt_succ_self size) hr
  · rw [fileSize_eq hf] at hlt
    rw [Kernel.growFile, if_neg hlt] at hg
    cases hg
    exact ⟨h, Or.inl rfl⟩

theorem Sound.writeNode {p : Nat} {i : Fin maxFds} {data : List UInt8} {r : Int} (h : Sound k)
    (hn : k.fileSize n < (k.entry p i).offset + data.length →
      n ∈ k.nodes.used ∧ k.Owns n)
    (hw : k.writeNode env p i n data = some (r, k')) : Sound k' ∧ FreesWell k k' := by
  unfold Kernel.writeNode at hw
  dsimp only at hw
  cases he : k.ensureFileStorage env n with
  | mk file k1 =>
    rw [he] at hw
    cases file with
    | none =>
      cases hw
      obtain ⟨h1, hfreed⟩ := h.ensured_none he
      exact ⟨h1, Or.inl hfreed⟩
    | some f =>
      have hens := ensureFileStorage_some h.data he
      have h1 : Sound k1 := ⟨hens.home h.home, hens.kept⟩
      dsimp only at hw
      cases hg : k1.growFile env f ((k.entry p i).offset + data.length) with
      | none =>
        rw [hg] at hw
        cases hw
        exact ⟨h1.allocated, Or.inl hens.freed⟩
      | some k2 =>
        rw [hg] at hw
        dsimp only at hw
        have hgrow : k1.fileSize n < (k.entry p i).offset + data.length →
            n ∈ k1.nodes.used ∧ k1.Owns n := by
          intro hlt
          rw [(hens.data n (Or.inl rfl)).2] at hlt
          rw [hens.used]
          exact ⟨(hn hlt).1, hens.owns (hn hlt).2⟩
        obtain ⟨h2, hfree⟩ := h1.growFile hens.file hgrow hg
        obtain ⟨-, hw⟩ := Option.ite_none_right_eq_some.mp hw
        cases hq : (k2.files.cell f).privateData with
        | none =>
          rw [hq] at hw
          cases hw
        | some q =>
          rw [hq] at hw
          cases hw
          refine ⟨((h2.copyTo _ data).copyTo _ [0]).setEntry p i _, ?_⟩
          exact hens.freesWell hfree fun p hp => hens.owned hp

end content

section calls

def plainWrite (k : Kernel) (fd : Int) : Option (Nat × Fin maxFds × Nat) := do
  let (p, i) ← k.openFd fd
  let e := k.entry p i
  if e.type = .tty ∨ e.type = .pipe then none
  else
    let n ← e.node
    if (k.node n).dev.any (·.write) ∨ (k.node n).directory then none else some (p, i, n)


inductive Hits (env : Env) (k : Kernel) : Event → Nat → Kernel → Prop
  | write {fd : Int} {data : List UInt8} {p : Nat} {i : Fin maxFds} {n : Nat} :
      data ≠ [] → k.plainWrite fd = some (p, i, n) →
      k.fileSize n < (k.entry p i).offset + data.length → Hits env k (.write fd data) n k
  | truncate {path a : List Char} {flags : Nat} {fd : Int} {k1 q : Kernel} {n : Nat} :
      flags.testBit 9 = true → k.absPath env path = some a →
      k.answering a = none → k.openNode env a (flags &&& 64) = some (fd, k1) → 0 ≤ fd →
      k1.find env a = some (some n, q) → Hits env k (.open path flags) n q
  | remove {path : List Char} {n : Nat} {q : Kernel} :
      k.find env path = some (some n, q) → (q.node n).directory = false →
      Hits env k (.remove path) n q

/-- The call comes to no file that has been removed and to none whose data lies in the archive, and
`kfree` comes back with the data that it gives back. -/
def SparesArchive (env : Env) (k : Kernel) (ev : Event) : Prop :=
  ∀ n q, Hits env k ev n q → n ∈ q.nodes.used ∧ q.Owns n ∧ q.freesContent env n = true

structure Elsewhere (k k' : Kernel) : Prop where
  nodes : k'.nodes = k.nodes
  root : k'.root = k.root
  files : k'.files = k.files
  blocks : k'.blocks = k.blocks
  blockLen : k'.blockLen = k.blockLen
  freed : k'.freed = k.freed
  cwd : k'.getProcessCwd = k.getProcessCwd

theorem Sound.elsewhere (h : Sound k) (he : Elsewhere k k') : Sound k' :=
  h.aside he.nodes he.files (by rw [he.blocks]) he.blockLen he.root he.cwd

/-- What is no write to a plain file does nothing to the data of files. -/
theorem sysWrite_cases {fd r : Int} {data : List UInt8}
    (h : k.sysWrite env fd data = some (r, k')) :
    Elsewhere k k' ∨ data ≠ [] ∧ ∃ p i n, k.plainWrite fd = some (p, i, n) ∧
      k.writeNode env p i n data = some (r, k') := by
  have hsame : Elsewhere k k := ⟨rfl, rfl, rfl, rfl, rfl, rfl, rfl⟩
  unfold sysWrite at h
  split at h
  · cases h
    exact Or.inl hsame
  rename_i hd
  cases hfd : k.openFd fd with
  | none =>
    rw [hfd] at h
    dsimp only at h
    split at h
    · cases h
      exact Or.inl hsame
    · cases h
      exact Or.inl hsame
  | some x =>
    obtain ⟨p, i⟩ := x
    rw [hfd] at h
    dsimp only at h
    split at h
    · cases h
      exact Or.inl hsame
    rename_i htty
    split at h
    · split at h
      · cases hj : (k.entry p i).pipe with
        | none =>
          rw [hj] at h
          cases h
        | some j =>
          rw [hj] at h
          cases h
          exact Or.inl ⟨rfl, rfl, rfl, rfl, rfl, rfl, rfl⟩
      · cases h
        exact Or.inl hsame
    rename_i hpipe
    have hno : ¬((k.entry p i).type = .tty ∨ (k.entry p i).type = .pipe) := fun ht =>
      ht.elim htty hpipe
    cases hn : (k.entry p i).node with
    | none =>
      rw [hn] at h
      dsimp only at h
      cases hfs : k.fsOf (k.entry p i) .write with
      | none =>
        rw [hfs] at h
        cases h
        exact Or.inl hsame
      | some x =>
        rw [hfs] at h
        cases h
        exact Or.inl ⟨rfl, rfl, rfl, rfl, rfl, rfl, rfl⟩
    | some n =>
      rw [hn] at h
      dsimp only at h
      have hplain : k.plainWrite fd =
          if (k.node n).dev.any (·.write) ∨ (k.node n).directory then none else some (p, i, n) := by
        unfold plainWrite
        rw [hfd]
        simp [hno, hn]
      have hnode : (k.node n).dev.any (·.write) = false →
          (if (k.node n).directory = true then some (-1, k) else k.writeNode env p i n data) =
            some (r, k') → Elsewhere k k' ∨ data ≠ [] ∧ ∃ p i n, k.plainWrite fd = some (p, i, n) ∧
              k.writeNode env p i n data = some (r, k') := by
        intro hdev h
        by_cases hdir : (k.node n).directory = true
        · rw [if_pos hdir] at h
          cases h
          exact Or.inl hsame
        · rw [if_neg hdir] at h
          refine Or.inr ⟨hd, p, i, n, ?_, h⟩
          rw [hplain, if_neg fun hc => hc.elim (by rw [hdev]; exact nofun) hdir]
      cases hdev : (k.node n).dev with
      | none =>
        rw [hdev] at h hnode
        exact hnode rfl h
      | some dev =>
        rw [hdev] at h hnode
        dsimp only at h
        by_cases hw : dev.write = true
        · rw [if_pos hw] at h
          cases h
          exact Or.inl ⟨rfl, rfl, rfl, rfl, rfl, rfl, setEntry_cwd p i _⟩
        · rw [if_neg hw] at h
          exact hnode (by simpa using hw) h

theorem Sound.sysWrite {fd r : Int} {data : List UInt8} (h : Sound k)
    (hs : k.SparesArchive env (.write fd data)) (hw : k.sysWrite env fd data = some (r, k')) :
    Sound k' ∧ FreesWell k k' := by
  rcases sysWrite_cases hw with he | ⟨hd, p, i, n, hp, hw⟩
  · exact ⟨h.elsewhere he, Or.inl he.freed⟩
  · refine h.writeNode (fun hlt => ?_) hw
    obtain ⟨hn, hown, -⟩ := hs n k (.write hd hp hlt)
    exact ⟨hn, hown⟩

theorem Sound.find {node : Option Nat} (h : Sound k) (hf : k.find env path = some (node, q)) :
    Sound q ∧ SameData k q ∧ ∀ n, node = some n → n ∈ q.nodes.used := by
  have T : NodeRule env AtHome Quiet Linked (fun _ _ _ => True) := home_nodes
  obtain ⟨h1, h2, h3⟩ := T.find h.home hf
  exact ⟨h.quiet h1 h2.toSameData, h2.toSameData, fun n hn => h1.used (h3 n hn)⟩

/-- `write_content` at the path of an open file. -/
theorem Sound.writeContent {data : List UInt8} {r : Bool} (h : Sound k)
    (hs : ∀ n q, k.find env path = some (some n, q) → q.Owns n)
    (hw : k.writeContent env path data = some (r, k')) : Sound k' ∧ FreesWell k k' := by
  obtain ⟨⟨node, q⟩, hf, hw⟩ := Option.bind_eq_some_iff.mp hw
  obtain ⟨h1, hsame, hused⟩ := h.find hf
  cases node with
  | some n =>
    obtain ⟨-, hw⟩ := Option.ite_none_right_eq_some.mp hw
    obtain ⟨h2, hfree⟩ := h1.setContent (hused n rfl) (hs n q hf) (Option.some.inj hw)
    exact ⟨h2, .of_same h hsame hfree⟩
  | none =>
    obtain ⟨⟨n, q1⟩, hn, hw⟩ := Option.bind_eq_some_iff.mp hw
    obtain ⟨h2, h3, h4⟩ := h1.home.createNode .refl hn
    have hown : q1.Owns n := by
      intro p hp
      exact absurd (h3.toSameData.data (h2.used h4) hp).1 (createNode_eq env hn).1
    obtain ⟨h5, hfree⟩ := (h1.quiet h2 h3.toSameData).setContent (h2.used h4) hown
      (Option.some.inj hw)
    exact ⟨h5, .of_same h (hsame.trans h3.toSameData) hfree⟩

/-- The part of `open` before the file is truncated. -/
theorem openFound_cases {flags : Nat} {node : Option Nat} {r : Int}
    (h : k.openFound env path flags node = some (r, k')) :
    k.openFound env path (flags &&& 64) node = some (r, k') ∨ flags.testBit 9 = true ∧ 0 ≤ r ∧
      ∃ k1 b, k.openFound env path (flags &&& 64) node = some (r, k1) ∧
        k1.writeContent env path [] = some (b, k') := by
  have hbit : (flags &&& 64).testBit 9 = false := by
    rw [Nat.testBit_and]
    exact Bool.and_false _
  cases node with
  | none => exact Or.inl h
  | some n =>
    unfold openFound at h ⊢
    dsimp only at h ⊢
    cases ha : k.allocFd (some n) with
    | mk slot k1 =>
      rw [ha] at h
      cases slot with
      | none => exact Or.inl h
      | some slot =>
        obtain ⟨p, i⟩ := slot
        dsimp only at h ⊢
        rw [hbit, if_neg Bool.false_ne_true]
        by_cases ht : flags.testBit 9 = true
        · rw [if_pos ht] at h
          obtain ⟨⟨b, k2⟩, hw, h⟩ := Option.bind_eq_some_iff.mp h
          cases h
          exact Or.inr ⟨ht, Int.natCast_nonneg _, k1, b, rfl, hw⟩
        · rw [if_neg ht] at h
          exact Or.inl h

theorem openNode_cases {flags : Nat} {r : Int} (h : k.openNode env path flags = some (r, k')) :
    k.openNode env path (flags &&& 64) = some (r, k') ∨ flags.testBit 9 = true ∧ 0 ≤ r ∧
      ∃ k1 b, k.openNode env path (flags &&& 64) = some (r, k1) ∧
        k1.writeContent env path [] = some (b, k') := by
  have hbit : (flags &&& 64).testBit 6 = flags.testBit 6 := by
    rw [Nat.testBit_and]
    exact Bool.and_true _
  obtain ⟨⟨node, q⟩, hf, h⟩ := Option.bind_eq_some_iff.mp h
  unfold openNode
  rw [hf]
  simp only [Option.bind_eq_bind, Option.bind_some]
  rw [hbit]
  dsimp only at h
  by_cases hc : node.isNone ∧ flags.testBit 6 = true
  · rw [if_pos hc] at h
    obtain ⟨⟨made, q1⟩, hm, h⟩ := Option.bind_eq_some_iff.mp h
    simp only [if_pos hc, hm, Option.bind_some]
    exact openFound_cases h
  · rw [if_neg hc] at h
    simp only [if_neg hc]
    exact openFound_cases h

theorem Sound.openPlain {flags : Nat} {r : Int} (h : Sound k) (ht : flags.testBit 9 = false)
    (ho : k.openNode env path flags = some (r, k')) : Sound k' ∧ SameData k k' := by
  have T : NodeRule env AtHome Quiet Linked (fun _ _ _ => True) := home_nodes
  have hfound : ∀ {q node}, Sound q → q.openFound env path flags node = some (r, k') →
      Sound k' ∧ SameData q k' := by
    intro q node hq hof
    cases node with
    | none =>
      cases hof
      exact ⟨hq, .refl k'⟩
    | some n =>
      unfold openFound at hof
      dsimp only at hof
      cases ha : q.allocFd (some n) with
      | mk slot k1 =>
        rw [ha] at hof
        cases slot with
        | none =>
          cases hof
          rw [allocFd_none ha]
          exact ⟨hq, .refl q⟩
        | some slot =>
          obtain ⟨p, i⟩ := slot
          obtain ⟨-, -, rfl⟩ := allocFd_some ha
          dsimp only at hof
          rw [ht, if_neg Bool.false_ne_true] at hof
          cases hof
          exact ⟨hq.setEntry p i _, .of_nodes rfl rfl rfl rfl rfl⟩
  obtain ⟨⟨node, q⟩, hf, ho⟩ := Option.bind_eq_some_iff.mp ho
  obtain ⟨h1, hsame, -⟩ := h.find hf
  dsimp only at ho
  split at ho
  · obtain ⟨⟨made, q1⟩, hm, ho⟩ := Option.bind_eq_some_iff.mp ho
    obtain ⟨h2, h3, -⟩ := T.createFilePath h1.home hm
    obtain ⟨h4, h5⟩ := hfound (h1.quiet h2 h3.toSameData) ho
    exact ⟨h4, hsame.trans (h3.toSameData.trans h5)⟩
  · obtain ⟨h4, h5⟩ := hfound h1 ho
    exact ⟨h4, hsame.trans h5⟩

theorem Sound.openMounted {fs : FileSystem} {sub : List Char} {r : Int} (h : Sound k)
    (ho : k.openMounted env m fs sub = some (r, k')) : Sound k' ∧ k'.freed = k.freed := by
  have T : NodeRule env AtHome Quiet Linked (fun _ _ _ => True) := home_nodes
  obtain ⟨⟨handle, q⟩, hf, ho⟩ := Option.bind_eq_some_iff.mp ho
  obtain ⟨k1, found, h1, hq1, -, rfl⟩ := T.fsOpen h.home hf
  have h2 : Sound k1 := h.quiet h1 hq1.toSameData
  have h3 : Sound (k1.opened fs (k.mounts.cell m).data found) :=
    h2.aside rfl rfl rfl rfl rfl rfl
  have hfreed : (k1.opened fs (k.mounts.cell m).data found).freed = k.freed := hq1.freed
  cases handle with
  | none =>
    cases ho
    exact ⟨h3, hfreed⟩
  | some x =>
    dsimp only at ho
    cases ha : (k1.opened fs (k.mounts.cell m).data found).allocFd none with
    | mk slot k2 =>
      rw [ha] at ho
      cases slot with
      | none =>
        cases ho
        rw [allocFd_none ha]
        exact ⟨h3, hfreed⟩
      | some slot =>
        obtain ⟨p, i⟩ := slot
        obtain ⟨-, -, rfl⟩ := allocFd_some ha
        cases ho
        exact ⟨(h3.setEntry p i _).setEntry p i _, hfreed⟩

theorem Sound.sysOpen {flags : Nat} {r : Int} (h : Sound k)
    (hs : k.SparesArchive env (.open path flags)) (ho : k.sysOpen env path flags = some (r, k')) :
    Sound k' ∧ FreesWell k k' := by
  obtain ⟨a, ha, -⟩ := Option.bind_eq_some_iff.mp ho
  cases hans : k.answering a with
  | some x =>
    obtain ⟨m, fs, sub⟩ := x
    rw [sysOpen_eq_openMounted ha hans] at ho
    obtain ⟨h1, hfreed⟩ := h.openMounted ho
    exact ⟨h1, Or.inl hfreed⟩
  | none =>
    rw [sysOpen_eq_openNode ha hans] at ho
    have hbit : (flags &&& 64).testBit 9 = false := by
      rw [Nat.testBit_and]
      exact Bool.and_false _
    rcases openNode_cases ho with ho | ⟨ht, hr, k1, b, ho, hw⟩
    · obtain ⟨h1, hsame⟩ := h.openPlain hbit ho
      exact ⟨h1, Or.inl hsame.freed⟩
    · obtain ⟨h1, hsame⟩ := h.openPlain hbit ho
      obtain ⟨h2, hfree⟩ := h1.writeContent
        (fun n q hf => (hs n q (.truncate ht ha hans ho hr hf)).2.1) hw
      exact ⟨h2, .of_same h hsame hfree⟩

/-- Nodes go, and with them the data that belongs to nothing else. -/
theorem DataKept.without (h : DataKept k) (hu : k'.nodes.used ⊆ k.nodes.used)
    (hfile : ∀ m ∈ k'.nodes.used, (k'.node m).file = (k.node m).file)
    (hcell : k'.files.cell = k.files.cell)
    (hrec : ∀ m ∈ k'.nodes.used, ∀ f, (k.node m).file = some f → f ∈ k'.files.used)
    (hsub : k'.blocks.used ⊆ k.blocks.used)
    (hkeep : ∀ m ∈ k'.nodes.used, ∀ p, k.fileData m = some p → p.block ∈ k.blocks.used →
      p.block ∈ k'.blocks.used)
    (hlen : k'.blockLen = k.blockLen) : DataKept k' := by
  have hdata : ∀ m ∈ k'.nodes.used, k'.fileData m = k.fileData m := by
    intro m hm
    unfold fileData
    rw [hfile m hm, hcell]
  have hsize : ∀ m ∈ k'.nodes.used, k'.fileSize m = k.fileSize m := by
    intro m hm
    unfold fileSize
    rw [hfile m hm, hcell]
  refine ⟨fun m hm f hf => ?_, fun m hm x hx f hf hf' => ?_, fun hz => h.zero (hsub hz),
    fun m hm p hp ho => ?_, fun m hm p hp => ?_, fun m hm x hx p r hp hr => ?_, fun m hm hp => ?_⟩
  · rw [hfile m hm] at hf
    exact hrec m hm f hf
  · rw [hfile m hm] at hf
    rw [hfile x hx] at hf'
    exact h.single m (hu hm) x (hu hx) f hf hf'
  · rw [hdata m hm] at hp
    rw [hsize m hm, hlen]
    obtain ⟨h1, h2⟩ := h.block m (hu hm) p hp ho
    exact ⟨hkeep m hm p hp h1, h2⟩
  · rw [hdata m hm] at hp
    exact (h.known m (hu hm) p hp).imp_right (hkeep m hm p hp)
  · rw [hdata m hm] at hp
    rw [hdata x hx] at hr
    exact h.apart m (hu hm) x (hu hx) p r hp hr
  · rw [hdata m hm] at hp
    rw [hsize m hm]
    exact h.empty m (hu hm) hp

/-- What `remove` gives back with a node: the record of its file and the data. -/
structure Dropped (k k' : Kernel) (n : Nat) : Prop where
  rest : ∃ files blocks freed, k' = { k with files, blocks, freed }
  cell : k'.files.cell = k.files.cell
  record : ∀ f ∈ k.files.used, (k.node n).file ≠ some f → f ∈ k'.files.used
  sub : k'.blocks.used ⊆ k.blocks.used
  keep : ∀ x ∈ k.blocks.used, (∀ p, k.fileData n = some p → p.off = 0 → x ≠ p.block) →
    x ∈ k'.blocks.used
  freed : k'.freed = k.freed ∨ (k.node n).directory = false ∧
    ∃ p, k.fileData n = some p ∧ k'.freed = p :: k.freed

theorem dropFile_dropped (k : Kernel) (n : Nat) : Dropped k (k.dropFile n) n := by
  unfold dropFile
  split
  · rename_i f hd hf
    have hrec : ∀ g ∈ k.files.used, (k.node n).file ≠ some g → g ∈ (k.files.free f).used := by
      intro g hg hne
      exact Finset.mem_erase.mpr ⟨fun he => hne (he ▸ hf), hg⟩
    unfold freeFile
    cases hp : (k.files.cell f).privateData with
    | none => exact ⟨⟨_, k.blocks, k.freed, rfl⟩, rfl, hrec, Finset.Subset.refl _, fun _ hx _ => hx,
        Or.inl rfl⟩
    | some p =>
      have hdata : k.fileData n = some p := (fileData_eq hf).trans hp
      refine ⟨⟨_, _, _, rfl⟩, rfl, hrec, ?_, fun x hx hne => ?_, Or.inr ⟨hd, p, hdata, rfl⟩⟩
      · change (if p.off = 0 then k.blocks.free p.block else k.blocks).used ⊆ _
        split
        · exact Finset.erase_subset _ _
        · exact Finset.Subset.refl _
      · change x ∈ (if p.off = 0 then k.blocks.free p.block else k.blocks).used
        split
        · rename_i ho
          exact Finset.mem_erase.mpr ⟨hne p hdata ho, hx⟩
        · exact hx
  · exact ⟨⟨k.files, k.blocks, k.freed, rfl⟩, rfl, fun _ hx _ => hx, Finset.Subset.refl _,
      fun _ hx _ => hx, Or.inl rfl⟩

theorem takeOut_file {parent : Nat} : ((k.takeOut n parent).node m).file = (k.node m).file := by
  change ((k.setNode parent _).node m).file = _
  rw [setNode_node]
  split
  · rename_i hm
    rw [hm]
  · rfl

theorem Sound.removed {parent : Nat} (h : Sound k) (hn : n ∈ k.nodes.used) (hroot : n ≠ k.root)
    (hp : (k.node n).parent = some parent) (ho : (k.node n).directory = false → k.Owns n)
    (hk : k' = { k.dropFile n with nodes := (k.takeOut n parent).nodes }) :
    Sound k' ∧ FreesWell k k' := by
  have hdrop := dropFile_dropped k n
  obtain ⟨files, blocks, freed, hrest⟩ := hdrop.rest
  rw [hrest] at hdrop hk
  subst hk
  have hfile : ∀ m, ((k.takeOut n parent).node m).file = (k.node m).file := fun m => takeOut_file
  refine ⟨⟨⟨(h.home.takeOut hroot hp).of_shape rfl, h.home.home⟩, ?_⟩, ?_⟩
  · refine h.data.without (Finset.erase_subset _ _) (fun m _ => hfile m) hdrop.cell
      (fun m hm f hf => ?_) hdrop.sub (fun m hm p hmp hb => ?_) rfl
    · obtain ⟨hne, hu⟩ := Finset.mem_erase.mp hm
      exact hdrop.record f (h.data.record m hu f hf) fun hnf =>
        hne (h.data.single n hn m hu f hnf hf)
    · obtain ⟨hne, hu⟩ := Finset.mem_erase.mp hm
      exact hdrop.keep p.block hb fun r hr hoff hb => hne (h.data.apart n hn m hu r p hr hmp hoff hb)
  · cases hdrop.freed with
    | inl hfree => exact Or.inl hfree
    | inr hfree =>
      obtain ⟨hd, p, hpd, hfree⟩ := hfree
      exact Or.inr ⟨p, hfree, h.data.owned hn hpd (ho hd p hpd)⟩

theorem Sound.remove {r : Bool} (h : Sound k) (hs : k.SparesArchive env (.remove path))
    (hr : k.remove env path = some (r, k')) : Sound k' ∧ FreesWell k k' := by
  obtain ⟨node, q, hf, hr⟩ := remove_cases hr
  obtain ⟨h1, hsame, hused⟩ := h.find hf
  rcases hr with rfl | ⟨n, parent, rfl, hroot, -, hp, hk⟩
  · exact ⟨h1, Or.inl hsame.freed⟩
  · obtain ⟨h2, hfree⟩ := h1.removed (hused n rfl) hroot hp
      (fun hd => (hs n q (.remove hf hd)).2.1) hk
    exact ⟨h2, .of_same h hsame hfree⟩

def onData : Event → Bool
  | .open _ _ => true
  | .write _ _ => true
  | .remove _ => true
  | _ => false

theorem Sound.step {ev : Event} {r : Reply} (h : Sound k) (hev : onData ev = true)
    (hok : k.SparesArchive env ev) (hs : k.step env ev = some (r, k')) :
    Sound k' ∧ FreesWell k k' := by
  cases ev with
  | «open» path flags =>
    obtain ⟨x, hx⟩ := answer_some hs
    exact h.sysOpen hok hx
  | write fd data =>
    obtain ⟨x, hx⟩ := answer_some hs
    exact h.sysWrite hok hx
  | remove path =>
    obtain ⟨x, hx⟩ := answer_some hs
    exact h.remove hok hx
  | _ => cases hev

end calls

end LosTacOS.Os.Kernel
