import LosTacOS.Os.Trees

/-! What the VFS leaves alone: tasks, processes and pipes. -/
namespace LosTacOS.Os

structure ProcSide where
  tasks : Arena Task
  procs : Arena Process
  head : Option Nat
  tail : Option Nat
  current : Nat
  pidCounter : Nat
  pipes : Fin 32 → Pipe
  pipeUsed : Fin 32 → Bool

namespace Kernel

variable {env : Env} {α β : Type}

def procSide (k : Kernel) : ProcSide :=
  ⟨k.tasks, k.procs, k.head, k.tail, k.current, k.pidCounter, k.pipes, k.pipeUsed⟩

/-- The rule for a part of the state that calls on the tree do not touch. -/
theorem TreeRule.frame (π : Kernel → α) (x : α)
    (h : ∀ (k : Kernel) (nodes files mounts mountTable devices blocks blockLen fsLog handles volumes
      freed allocs), π { k with
        nodes, files, mounts, mountTable, devices, blocks, blockLen, fsLog, handles, volumes, freed
        allocs } = π k) :
    TreeRule env (fun k => π k = x) (fun _ _ => True) (fun _ _ => True) (fun _ _ _ => True) where
  refl _ := trivial
  trans _ _ := trivial
  keep _ _ := trivial
  root _ := trivial
  cwd _ := trivial
  parent _ _ _ := trivial
  child _ _ _ := trivial
  alloc hk := ⟨(h ..).trans hk, trivial⟩
  device _ hk := ⟨(h ..).trans hk, trivial⟩
  dev := by
    intro k name dir n k' dev hk _ _ hc
    obtain ⟨_, rfl⟩ := createNode_eq env hc
    refine ⟨Eq.trans ?_ hk, trivial⟩
    exact h k _ k.files k.mounts k.mountTable k.devices k.blocks k.blockLen k.fsLog k.handles
      k.volumes k.freed (k.allocs + 1)
  ask := by
    intro k k' n fs found _ _ _ _ _ hk _
    refine ⟨Eq.trans ?_ hk, trivial⟩
    cases found with
    | false => exact h ..
    | true =>
      exact h k' k'.nodes k'.files k'.mounts k'.mountTable k'.devices k'.blocks k'.blockLen _ _
        k'.volumes k'.freed k'.allocs
  create := by
    intro k name d dir n k' hk _ hc
    obtain ⟨_, rfl⟩ := createNode_eq env hc
    refine ⟨Eq.trans ?_ hk, trivial, trivial⟩
    exact h k _ k.files k.mounts k.mountTable k.devices k.blocks k.blockLen k.fsLog k.handles
      k.volumes k.freed (k.allocs + 1)
  link _ hk _ := ⟨Eq.trans (h ..) hk, trivial⟩
  file _ hk _ := ⟨Eq.trans (h ..) hk, trivial⟩
  data _ _ _ _ _ hk := ⟨Eq.trans (h ..) hk, trivial⟩
  carry _ _ := trivial
  null := trivial
  volume _ _ hk := ⟨Eq.trans (h ..) hk, trivial, trivial⟩
  retype hk _ _ := ⟨Eq.trans (h ..) hk, trivial⟩
  table hk _ _ := ⟨Eq.trans (h ..) hk, trivial⟩

theorem procSide_frame (x : ProcSide) : TreeRule env (fun k => k.procSide = x) (fun _ _ => True)
    (fun _ _ => True) (fun _ _ _ => True) :=
  TreeRule.frame procSide x fun _ _ _ _ _ _ _ _ _ _ _ _ _ => rfl

def Keeps (π : Kernel → β) (k : Kernel) (x : Option (α × Kernel)) : Prop :=
  ∀ r k', x = some (r, k') → π k' = π k

namespace Keeps

variable {π : Kernel → β} {k k1 : Kernel} {γ : Type}

theorem pure {x : α} (h : π k1 = π k) : Keeps π k (some (x, k1)) := by
  intro r k' he
  cases he
  exact h

theorem fail : Keeps π k (none : Option (α × Kernel)) := nofun

theorem bind {x : Option (γ × Kernel)} {f : γ × Kernel → Option (α × Kernel)} (hx : Keeps π k x)
    (hf : ∀ r k1, Keeps π k1 (f (r, k1))) : Keeps π k (x.bind f) := by
  intro r k' he
  obtain ⟨⟨r1, k1⟩, h1, h2⟩ := Option.bind_eq_some_iff.mp he
  exact (hf r1 k1 r k' h2).trans (hx r1 k1 h1)

theorem after {x : Option (α × Kernel)} (hx : Keeps π k1 x) (h : π k1 = π k) : Keeps π k x :=
  fun r k' he => (hx r k' he).trans h

end Keeps

section vfs

theorem find_procSide (k : Kernel) (path : List Char) : Keeps procSide k (k.find env path) :=
  fun _ _ h => ((procSide_frame _).find rfl h).1

theorem fsOpen_procSide (k : Kernel) (fs : FileSystem) (data : Nat) (path : List Char) :
    Keeps procSide k (k.fsOpen env (find env) fs data path) := by
  intro r k' h
  have rule : TreeRule env (fun q => q.procSide = k.procSide) _ _ _ := procSide_frame k.procSide
  obtain ⟨k1, found, h1, _, _, rfl⟩ := rule.fsOpen rfl h
  exact h1

theorem createFilePath_procSide (k : Kernel) (path : List Char) :
    Keeps procSide k (k.createFilePath env path) :=
  fun _ _ h => ((procSide_frame _).createFilePath rfl h).1

theorem writeContent_procSide (k : Kernel) (path : List Char) (data : List UInt8) :
    Keeps procSide k (k.writeContent env path data) :=
  fun _ _ h => ((procSide_frame _).writeContent rfl h).1

theorem umount_procSide (k : Kernel) (path : List Char) :
    Keeps procSide k (k.umount env path) :=
  fun _ _ h => (procSide_frame _).umount rfl (fun _ => rfl) (fun hi _ => ⟨hi, trivial⟩)
    (fun _ hi _ => hi) h

theorem remove_procSide (k : Kernel) (path : List Char) :
    Keeps procSide k (k.remove env path) :=
  fun _ _ h => (procSide_frame _).remove rfl (fun hi _ _ _ _ _ _ => hi) h

theorem ensureFileStorage_procSide {k k' : Kernel} {n : Nat} {r : Option Nat}
    (h : k.ensureFileStorage env n = (r, k')) : k'.procSide = k.procSide :=
  ((procSide_frame _).ensureFileStorage rfl trivial h).1

theorem allocBlock_procSide {k k' : Kernel} {len : Nat} {r : Option Nat}
    (h : k.allocBlock env len = (r, k')) : k'.procSide = k.procSide :=
  ((procSide_frame _).allocBlock rfl h).1

end vfs

end Kernel

end LosTacOS.Os
