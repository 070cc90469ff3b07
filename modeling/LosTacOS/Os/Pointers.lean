import LosTacOS.Os.Calls
import LosTacOS.Os.PipeCount

/-! The untyped pointers of mounts and descriptors: a file system is handed only what it made. -/
namespace LosTacOS.Os

namespace Kernel

variable {env : Env} {k k' : Kernel} {l : List Nat} {p : Nat} {i : Fin maxFds}

def MadeBy (k : Kernel) (fs : FileSystem) (data : Nat) : Prop := data = 0 ∨ (fs, data) ∈ k.volumes

def OpenedBy (k : Kernel) (fs : FileSystem) (h : Nat) : Prop :=
  ∃ data, FsCall.opened fs data (some h) ∈ k.fsLog

def Trusted (k : Kernel) : FsCall → Prop
  | .opened fs data _ => k.MadeBy fs data
  | .used fs _ h => k.OpenedBy fs h
  | .closed fs h => k.OpenedBy fs h
  | .asProcFile h => k.OpenedBy .procfs h

def Handled (k : Kernel) (e : FdEntry) : Prop :=
  ∀ m h, e.mount = some m → e.fsHandle = some h →
    m ∈ k.mounts.used ∧ ∀ fs, (k.mounts.cell m).fs = some fs → k.OpenedBy fs h

structure Typed (k : Kernel) : Prop where
  log : ∀ c ∈ k.fsLog, k.Trusted c
  nodes : ∀ n fs, (k.node n).filesystem = some fs → fs.has .open = true →
    k.MadeBy fs (k.node n).mountData
  mounts : ∀ m ∈ k.mounts.used, ∀ fs, (k.mounts.cell m).fs = some fs → fs.has .open = true →
    k.MadeBy fs (k.mounts.cell m).data
  table : ∀ m ∈ k.mountTable, m ∈ k.mounts.used
  nodup : k.mountTable.Nodup
  entries : ∀ p ∈ k.procs.used, ∀ i, k.Handled (k.entry p i)

theorem boot_typed : Typed boot where
  log := nofun
  nodes _ _ h := by cases h
  mounts _ h := by cases h
  table := nofun
  nodup := List.nodup_nil
  entries _ _ _ _ _ h := by cases h

section changes

theorem OpenedBy.mono {fs : FileSystem} {h : Nat} (ho : k.OpenedBy fs h)
    (hl : ∀ c ∈ k.fsLog, c ∈ k'.fsLog) : k'.OpenedBy fs h := by
  obtain ⟨data, hd⟩ := ho
  exact ⟨data, hl _ hd⟩

theorem MadeBy.mono {fs : FileSystem} {data : Nat} (hm : k.MadeBy fs data)
    (hv : ∀ x ∈ k.volumes, x ∈ k'.volumes) : k'.MadeBy fs data :=
  hm.imp_right (hv _)

theorem Trusted.mono {c : FsCall} (hc : k.Trusted c) (hl : ∀ c ∈ k.fsLog, c ∈ k'.fsLog)
    (hv : ∀ x ∈ k.volumes, x ∈ k'.volumes) : k'.Trusted c := by
  cases c with
  | opened fs data r => exact MadeBy.mono hc hv
  | used fs cb h => exact OpenedBy.mono hc hl
  | closed fs h => exact OpenedBy.mono hc hl
  | asProcFile h => exact OpenedBy.mono hc hl

theorem Handled.mono {e : FdEntry} (he : k.Handled e) (hm : k'.mounts = k.mounts)
    (hl : ∀ c ∈ k.fsLog, c ∈ k'.fsLog) : k'.Handled e := by
  intro m h hem heh
  rw [hm]
  obtain ⟨h1, h2⟩ := he m h hem heh
  exact ⟨h1, fun fs hfs => (h2 fs hfs).mono hl⟩

def bookSide (k : Kernel) : List FsCall × List (FileSystem × Nat) × Arena Mount × List Nat ×
    Arena Process := (k.fsLog, k.volumes, k.mounts, k.mountTable, k.procs)

theorem Typed.tree (h : Typed k) (hs : k'.bookSide = k.bookSide)
    (hn : ∀ n fs, (k'.node n).filesystem = some fs → fs.has .open = true →
      k.MadeBy fs (k'.node n).mountData) : Typed k' := by
  have hlog : k'.fsLog = k.fsLog := congrArg (·.1) hs
  have hvol : k'.volumes = k.volumes := congrArg (·.2.1) hs
  have hmnt : k'.mounts = k.mounts := congrArg (·.2.2.1) hs
  have htab : k'.mountTable = k.mountTable := congrArg (·.2.2.2.1) hs
  have hprocs : k'.procs = k.procs := congrArg (·.2.2.2.2) hs
  have hl : ∀ c ∈ k.fsLog, c ∈ k'.fsLog := by
    rw [hlog]
    exact fun _ hc => hc
  have hv : ∀ x ∈ k.volumes, x ∈ k'.volumes := by
    rw [hvol]
    exact fun _ hx => hx
  refine ⟨?_, fun n fs hfs ho => (hn n fs hfs ho).mono hv, ?_, ?_, ?_, ?_⟩
  · intro c hc
    rw [hlog] at hc
    exact (h.log c hc).mono hl hv
  · rw [hmnt]
    exact fun m hm fs hfs ho => (h.mounts m hm fs hfs ho).mono hv
  · rw [htab, hmnt]
    exact h.table
  · rw [htab]
    exact h.nodup
  · intro p hp i
    have he : k'.entry p i = k.entry p i := by
      unfold entry proc
      rw [hprocs]
    rw [hprocs] at hp
    rw [he]
    exact (h.entries p hp i).mono hmnt hl

theorem Typed.setNode {x : Node} {n : Nat} (h : Typed k) (hx : ∀ fs, x.filesystem = some fs →
    fs.has .open = true → k.MadeBy fs x.mountData) : Typed (k.setNode n x) := by
  refine h.tree rfl fun m fs hfs ho => ?_
  rw [setNode_node] at hfs ⊢
  split at hfs
  · rename_i hm
    rw [if_pos hm]
    exact hx fs hfs ho
  · rename_i hm
    rw [if_neg hm]
    exact h.nodes m fs hfs ho

/-- A new node takes the file system of its parent over. -/
theorem Typed.linkNew {n dir : Nat} {name : List Char} {d : Bool} (h : Typed k) :
    Typed (k.linkNew n name d dir) := by
  refine h.tree rfl fun m fs hfs ho => ?_
  have hold : ∀ x fs, (if x = n then k.newNode name d dir else k.node x).filesystem = some fs →
      fs.has .open = true →
        k.MadeBy fs (if x = n then k.newNode name d dir else k.node x).mountData := by
    intro x fs hx ho
    split at hx
    · rename_i hxn
      rw [if_pos hxn]
      exact h.nodes dir fs hx ho
    · rename_i hxn
      rw [if_neg hxn]
      exact h.nodes x fs hx ho
  rw [linkNew_node] at hfs ⊢
  dsimp only at hfs ⊢
  by_cases hm : m = dir
  · rw [if_pos hm] at hfs ⊢
    exact hold dir fs hfs ho
  · rw [if_neg hm] at hfs ⊢
    exact hold m fs hfs ho

theorem Typed.setEntry {e : FdEntry} (h : Typed k) (he : k.Handled e) :
    Typed (k.setEntry p i e) := by
  refine ⟨h.log, h.nodes, h.mounts, h.table, h.nodup, fun q hq j => ?_⟩
  rw [setEntry_entry]
  split
  · exact he
  · exact h.entries q hq j

theorem Typed.setProc {x : Process} (h : Typed k) (hx : ∀ i, k.Handled (x.fds i)) :
    Typed (k.setProc p x) := by
  refine ⟨h.log, h.nodes, h.mounts, h.table, h.nodup, fun q hq j => ?_⟩
  unfold entry proc Kernel.setProc
  dsimp only
  rw [Arena.set_cell]
  split
  · exact hx j
  · exact h.entries q hq j

theorem Typed.sameFds {x : Process} (h : Typed k) (hx : x.fds = (k.proc p).fds) :
    Typed (k.setProc p x) := by
  refine ⟨h.log, h.nodes, h.mounts, h.table, h.nodup, fun q hq j => ?_⟩
  rw [setProc_entry hx]
  exact h.entries q hq j

theorem Typed.openedBy {fs : FileSystem} {hd : Nat} {c : Callback} (h : Typed k)
    (hp : p ∈ k.procs.used) (hfs : k.fsOf (k.entry p i) c = some (fs, hd)) : k.OpenedBy fs hd := by
  obtain ⟨m, hm, hh, hfs⟩ := fsOf_some hfs
  exact (h.entries p hp i m hd hm hh).2 fs hfs

theorem Typed.logged {c : FsCall} (handles : Nat) (h : Typed k)
    (hc : Trusted { k with fsLog := c :: k.fsLog, handles } c) :
    Typed { k with fsLog := c :: k.fsLog, handles } := by
  have hl : ∀ d ∈ k.fsLog, d ∈ c :: k.fsLog := fun d hd => List.mem_cons_of_mem c hd
  refine ⟨?_, h.nodes, h.mounts, h.table, h.nodup, ?_⟩
  · intro d hd
    cases hd with
    | head => exact hc
    | tail _ hd => exact (h.log d hd).mono hl fun _ hx => hx
  · exact fun p hp i => (h.entries p hp i).mono rfl hl

theorem Typed.opened {fs : FileSystem} {data : Nat} (h : Typed k) (hm : k.MadeBy fs data)
    (found : Bool) : Typed (k.opened fs data found) :=
  h.logged (k.handles + 1) hm

theorem Typed.asked {fs : FileSystem} {data : Nat} (h : Typed k) (hm : k.MadeBy fs data)
    (found : Bool) : Typed (k.asked fs data found) := by
  cases found with
  | false => exact h.opened hm false
  | true =>
    refine (h.opened hm true).logged (k.handles + 1) ?_
    exact ⟨data, List.mem_cons_of_mem _ List.mem_cons_self⟩

end changes

section rule

structure Grows (k k' : Kernel) : Prop where
  procs : k'.procSide = k.procSide
  volumes : ∀ x ∈ k.volumes, x ∈ k'.volumes
  mounts : ∀ m ∈ k.mounts.used, m ∈ k'.mounts.used ∧ k'.mounts.cell m = k.mounts.cell m
  table : ∀ m ∈ k'.mountTable, m ∈ k.mountTable ∨ m ∉ k.mounts.used

theorem Grows.refl (k : Kernel) : Grows k k :=
  ⟨rfl, fun _ h => h, fun _ h => ⟨h, rfl⟩, fun _ h => Or.inl h⟩

theorem Grows.trans {a b c : Kernel} (h : Grows a b) (h' : Grows b c) : Grows a c := by
  refine ⟨h'.procs.trans h.procs, fun x hx => h'.volumes x (h.volumes x hx), fun m hm => ?_, ?_⟩
  · obtain ⟨h1, h2⟩ := h.mounts m hm
    obtain ⟨h3, h4⟩ := h'.mounts m h1
    exact ⟨h3, h4.trans h2⟩
  · intro m hm
    cases h'.table m hm with
    | inl hb => exact h.table m hb
    | inr hb => exact Or.inr fun ha => hb (h.mounts m ha).1

theorem Grows.of_eq (hp : k'.procSide = k.procSide) (hv : k'.volumes = k.volumes)
    (hm : k'.mounts = k.mounts) (ht : k'.mountTable = k.mountTable) : Grows k k' := by
  refine ⟨hp, ?_, ?_, ?_⟩
  · rw [hv]
    exact fun _ h => h
  · rw [hm]
    exact fun _ h => ⟨h, rfl⟩
  · rw [ht]
    exact fun _ h => Or.inl h

def Mountable (k : Kernel) (fs : Option FileSystem) (data : Nat) : Prop :=
  ∀ f, fs = some f → f.has .open = true → k.MadeBy f data

theorem typed_tree : TreeRule env Typed Grows (fun _ _ => True) Mountable where
  refl := Grows.refl
  trans := Grows.trans
  keep _ _ := trivial
  root _ := trivial
  cwd _ := trivial
  parent _ _ _ := trivial
  child _ _ _ := trivial
  alloc h := ⟨h.tree rfl h.nodes, .of_eq rfl rfl rfl rfl⟩
  device _ h := ⟨h.tree rfl h.nodes, .of_eq rfl rfl rfl rfl⟩
  dev := by
    intro k name dir n k' dev h _ _ hc
    obtain ⟨_, rfl⟩ := createNode_eq env hc
    have h1 : Typed { k with allocs := k.allocs + 1 } := h.tree rfl h.nodes
    have h2 : Typed ({ k with allocs := k.allocs + 1 }.linkNew n name false dir) := h1.linkNew
    exact ⟨h2.setNode (h2.nodes n), .of_eq rfl rfl rfl rfl⟩
  ask := by
    intro k k' n fs found h _ _ hfs ho h' hg
    have hm := (h.nodes n fs hfs ho).mono hg.volumes
    refine ⟨h'.asked hm found, ?_⟩
    cases found with
    | false => exact .of_eq rfl rfl rfl rfl
    | true => exact .of_eq rfl rfl rfl rfl
  create := by
    intro k name d dir n k' h _ hc
    obtain ⟨_, rfl⟩ := createNode_eq env hc
    have h1 : Typed { k with allocs := k.allocs + 1 } := h.tree rfl h.nodes
    exact ⟨h1.linkNew, .of_eq rfl rfl rfl rfl, trivial⟩
  link := fun {k n} _ h _ => ⟨h.setNode (h.nodes n), .of_eq rfl rfl rfl rfl⟩
  file := fun {k n} _ h _ => ⟨h.setNode (h.nodes n), .of_eq rfl rfl rfl rfl⟩
  data _ _ _ _ _ h := ⟨h.tree rfl h.nodes, .of_eq rfl rfl rfl rfl⟩
  carry hg hm f hf ho := (hm f hf ho).mono hg.volumes
  null _ _ _ := Or.inl rfl
  volume := by
    intro k fs v h
    have hv : ∀ x ∈ k.volumes, x ∈ (fs, v) :: k.volumes := fun x hx => List.mem_cons_of_mem _ hx
    refine ⟨⟨fun c hc => (h.log c hc).mono (fun _ hd => hd) hv, ?_, ?_, h.table, h.nodup,
      h.entries⟩, ⟨rfl, hv, fun _ hm => ⟨hm, rfl⟩, fun _ hm => Or.inl hm⟩, ?_⟩
    · exact fun n f hf ho => (h.nodes n f hf ho).mono hv
    · exact fun m hm f hf ho => (h.mounts m hm f hf ho).mono hv
    · intro f hf _
      cases hf
      exact Or.inr List.mem_cons_self
  retype h _ hg := ⟨h.setNode hg, .of_eq rfl rfl rfl rfl⟩
  table := by
    intro k m mnt h hm hg
    have hne : ∀ x ∈ k.mounts.used, x ≠ m := fun x hx he => hm (he ▸ hx)
    refine ⟨⟨h.log, h.nodes, ?_, ?_, ?_, ?_⟩, ⟨rfl, fun _ hx => hx, ?_, ?_⟩⟩
    · intro x hx fs hfs ho
      change Mount.fs ((k.mounts.alloc m mnt).cell x) = some fs at hfs
      change k.MadeBy fs (Mount.data ((k.mounts.alloc m mnt).cell x))
      rw [Arena.alloc_cell] at hfs ⊢
      split at hfs
      · rename_i hxm
        rw [if_pos hxm]
        exact hg fs hfs ho
      · rename_i hxm
        rw [if_neg hxm]
        exact h.mounts x (Finset.mem_of_mem_insert_of_ne hx hxm) fs hfs ho
    · intro x hx
      cases hx with
      | head => exact Finset.mem_insert_self m _
      | tail _ hx => exact Finset.mem_insert_of_mem (h.table x hx)
    · exact List.nodup_cons.mpr ⟨fun hx => hm (h.table m hx), h.nodup⟩
    · intro p hp i x hd hx hh
      obtain ⟨h1, h2⟩ := h.entries p hp i x hd hx hh
      refine ⟨Finset.mem_insert_of_mem h1, fun fs hfs => h2 fs ?_⟩
      change Mount.fs ((k.mounts.alloc m mnt).cell x) = some fs at hfs
      rwa [Arena.alloc_cell_ne _ _ (hne x h1)] at hfs
    · exact fun x hx => ⟨Finset.mem_insert_of_mem hx, Arena.alloc_cell_ne _ _ (hne x hx)⟩
    · intro x hx
      cases hx with
      | head => exact Or.inr hm
      | tail _ hx => exact Or.inl hx

theorem typed_calls : CallRule env Typed Grows (fun _ _ => True) Mountable (fun _ => True) where
  tree := typed_tree.alive Grows.procs
  procs := Grows.procs
  tasks _ _ _ _ _ h := h.tree rfl h.nodes
  thread _ h := h.sameFds rfl
  newProcess := by
    intro k c h hc
    refine ⟨h.log, h.nodes, h.mounts, h.table, h.nodup, fun q hq i => ?_⟩
    rw [newProcess_entry]
    split
    · intro m hd hm
      cases hm
    · rename_i hqc
      exact h.entries q (Finset.mem_of_mem_insert_of_ne hq hqc) i
  discard h _ := ⟨h.log, h.nodes, h.mounts, h.table, h.nodup,
    fun q hq i => h.entries q (Finset.mem_of_mem_erase hq) i⟩
  inherit := by
    intro k parent c q h hnew _
    obtain ⟨pipes, hr⟩ := inherit_rest q parent c
    rw [hr]
    have h1 : Typed (q.setProc c (q.heir parent c)) :=
      h.setProc fun i => h.entries parent hnew.old i
    exact h1.tree rfl h1.nodes
  home h := h.sameFds rfl
  enterDir h _ := h.sameFds rfl
  pipes _ _ h := h.tree rfl h.nodes
  altered _ _ _ h hp := h.setEntry fun m hd hm hh => h.entries _ hp _ m hd hm hh
  plain h _ _ hm _ := h.setEntry fun m _ hm' => by
    rw [hm] at hm'
    cases hm'
  copied h hp _ := h.setEntry (h.entries _ hp _)
  held _ _ _ := trivial
  node h _ _ _ := h.setEntry fun m _ hm => by cases hm
  mounted := by
    intro k q m fs found h hm hfs ho hq hg
    have hu := h.table m hm
    have hmade := (h.mounts m hu fs hfs ho).mono hg.volumes
    obtain ⟨hu', hcell⟩ := hg.mounts m hu
    refine ⟨hq.opened hmade found, fun p i _ hf _ => ?_⟩
    refine (hq.opened hmade found).setEntry fun m' hd hm' hh => ?_
    cases hm'
    cases hh
    refine ⟨hu', fun fs' hfs' => ?_⟩
    have hfs'' : (q.mounts.cell m).fs = some fs' := hfs'
    rw [hcell, hfs] at hfs''
    cases hfs''
    rw [hf]
    exact ⟨_, List.mem_cons_self⟩
  used h hp hfs := h.logged _ ((h.openedBy hp hfs).mono fun _ hc => List.mem_cons_of_mem _ hc)
  closed := by
    intro k p i fs hd h hp hfs
    have h1 : Typed (k.fsClose fs hd) :=
      h.logged k.handles ((h.openedBy hp hfs).mono fun _ hc => List.mem_cons_of_mem _ hc)
    refine h1.setEntry fun m _ hm => ?_
    cases hm

end rule

section runs

/-- No descriptor is open on the mount that `umount` takes away. -/
def Idle (k : Kernel) (path : List Char) : Prop :=
  ∀ m, k.mountTable.find? (fun m => (k.mounts.cell m).path = path) = some m →
    ∀ p ∈ k.procs.used, ∀ i, (k.entry p i).mount = some m → (k.entry p i).fsHandle = none

/-- What the kernel leaves to its callers: `sys_mount` is not given a pointer for a file system
that would use it, `readdir` is called on handles of procfs only, and no mount is taken away while
a descriptor is open on it. -/
def keepsPointers (env : Env) (k : Kernel) : Event → Prop
  | .sysMount _ fstype data => k.Mountable (fstype.bind fsByName) data
  | .readdir fd => ∀ p i m fs h, k.openFd fd = some (p, i) → (k.entry p i).node = none →
      (k.entry p i).mount = some m → (k.mounts.cell m).fs = some fs →
        (k.entry p i).fsHandle = some h → fs = .procfs
  | .umount path => k.Idle path
  | .sysUmount target => ∀ path, k.absPath env target = some path → k.Idle path
  | _ => True

theorem Typed.umount {path : List Char} {r : Bool} (h : Typed k) (hidle : k.Idle path)
    (hu : k.umount env path = some (r, k')) : Typed k' := by
  refine typed_tree.umount h ?_ ?_ ?_ hu
  · intro m _
    exact ⟨h.log, h.nodes, h.mounts, fun x hx => h.table x (List.mem_of_mem_erase hx),
      h.nodup.erase m, h.entries⟩
  · intro q n hq _
    refine ⟨hq.setNode fun fs hfs => ?_, .of_eq rfl rfl rfl rfl⟩
    cases hfs
  · intro m q hm hq hg
    have hmt : m ∈ k.mountTable := List.mem_of_find?_eq_some hm
    have hout : ∀ x ∈ q.mountTable, x ≠ m := by
      intro x hx he
      rw [he] at hx
      cases hg.table m hx with
      | inl hin => exact h.nodup.not_mem_erase hin
      | inr hno => exact hno (h.table m hmt)
    refine ⟨hq.log, hq.nodes, ?_, ?_, hq.nodup, ?_⟩
    · exact fun x hx => hq.mounts x (Finset.mem_of_mem_erase hx)
    · exact fun x hx => Finset.mem_erase.mpr ⟨hout x hx, hq.table x hx⟩
    · intro p hp i x hd hx hh
      obtain ⟨h1, h2⟩ := hq.entries p hp i x hd hx hh
      refine ⟨Finset.mem_erase.mpr ⟨fun he => ?_, h1⟩, h2⟩
      -- the descriptors are those before the call
      have hprocs : q.procs = k.procs := congrArg ProcSide.procs hg.procs
      have hentry : q.entry p i = k.entry p i := entry_of_procSide hg.procs p i
      change p ∈ q.procs.used at hp
      change (q.entry p i).mount = some x at hx
      change (q.entry p i).fsHandle = some hd at hh
      rw [hprocs] at hp
      rw [hentry] at hx hh
      have hnone := hidle m hm p hp i (he ▸ hx)
      rw [hh] at hnone
      cases hnone

theorem Typed.takeOut {n parent : Nat} (h : Typed k) : Typed (k.takeOut n parent) := by
  have h1 := h.setNode (n := parent) (x := { k.node parent with
    children := (k.node parent).children.erase n }) (h.nodes parent)
  exact h1.tree rfl h1.nodes

theorem Typed.step {ev : Event} {r : Reply} (h : Typed k) (hl : Listed k l)
    (hok : keepsPointers env k ev) (hs : k.step env ev = some (r, k')) : Typed k' := by
  refine typed_calls.step h hl (copies_true k ev) ?_ ?_ ?_ ?_ hs
  · intro target fstype data he
    rw [he] at hok
    exact hok
  · intro path r q he hu
    cases he with
    | inl he =>
      rw [he] at hok
      exact h.umount hok hu
    | inr he =>
      obtain ⟨target, he, hpath⟩ := he
      rw [he] at hok
      exact h.umount (hok path hpath) hu
  · intro path r q _ hr
    exact typed_tree.remove h (fun hi _ _ _ _ _ _ => hi.takeOut) hr
  · intro fd p i m fs hd he hfd hn hm hfs hh
    rw [he] at hok
    have hp := hl.currentProc_used (openFd_current hfd).1
    have hopen := (h.entries p hp i m hd hm hh).2 fs hfs
    rw [hok p i m fs hd hfd hn hm hfs hh] at hopen
    exact h.logged k.handles (hopen.mono fun _ hc => List.mem_cons_of_mem _ hc)

/-- In every such run each file system is handed only pointers that it made itself. -/
theorem pointers_trusted (h : Reached keepsPointers k) : ∀ c ∈ k.fsLog, k.Trusted c := by
  have hk := h.invariant (I := fun k => (∃ l, Listed k l) ∧ Typed k)
    ⟨⟨[], boot_listed⟩, boot_typed⟩ (by
      intro k k' env ev r hi hok hs
      obtain ⟨⟨l, hl⟩, ht⟩ := hi
      exact ⟨step_listed hl hs, ht.step hl hok hs⟩)
  exact hk.2.log

def openEnv : Env := { freshEnv with opens := fun _ _ _ _ => true }

def procRun : List (Env × Event) :=
  [(openEnv, .mount "/proc".toList (some .procfs)), (openEnv, .spawn []), (openEnv, .schedule 0),
    (openEnv, .open "/proc/uptime".toList 0), (openEnv, .read 3 8)]

theorem pointers_trusted_procfs : ∃ k, boot.runAll procRun = some k ∧
    k.fsLog = [.used .procfs .read 0, .opened .procfs 0 (some 0)] ∧
      ∀ c ∈ k.fsLog, k.Trusted c := by
  have hrun : (boot.runAll procRun).any (fun k =>
      k.fsLog = [.used .procfs .read 0, .opened .procfs 0 (some 0)]) = true := by decide +kernel
  obtain ⟨k, hk, hlog⟩ := any_exists hrun
  refine ⟨k, hk, of_decide_eq_true hlog, pointers_trusted (Reached.boot.runAll ?_ hk)⟩
  intro q s hs
  simp only [procRun, List.mem_cons, List.not_mem_nil, or_false] at hs
  rcases hs with rfl | rfl | rfl | rfl | rfl
  · trivial
  · trivial
  · trivial
  · trivial
  · trivial

/-- A program mounts FAT32 with a pointer of its own and opens a file there. -/
def forgedRun : List (Env × Event) :=
  [(openEnv, .spawn []), (openEnv, .schedule 0),
    (openEnv, .sysMount "/mnt".toList (some "fat32".toList) 5),
    (openEnv, .open "/mnt/a".toList 0)]

theorem forged_volume : ¬ ∀ k, Reached (fun _ _ _ => True) k → ∀ c ∈ k.fsLog, k.Trusted c := by
  intro hall
  have hrun : (boot.runAll forgedRun).any (fun k =>
      k.fsLog = [.opened .fat32 5 (some 0)] ∧ k.volumes = []) = true := by decide +kernel
  obtain ⟨k, hk, h⟩ := any_exists hrun
  obtain ⟨hlog, hvol⟩ := of_decide_eq_true h
  have hc := hall k (Reached.boot.runAll (fun _ _ _ => trivial) hk) (.opened .fat32 5 (some 0))
    (by rw [hlog]; exact List.mem_cons_self)
  cases hc with
  | inl h0 => cases h0
  | inr hm =>
    rw [hvol] at hm
    cases hm

end runs

end Kernel

end LosTacOS.Os
