import LosTacOS.Lib.Arena

/-! The state that system calls work on: tasks and processes, descriptors, pipes, the VFS tree,
the mount table and the data of files. Records live at addresses of their own kind; address 0 of
the tasks and of the processes is the static kernel task and its process. -/
namespace LosTacOS.Os

inductive TaskState where
  | ready
  | running
  | blocked
  | dead
deriving DecidableEq

inductive FdType where
  | none
  | file
  | pipe
  | tty
deriving DecidableEq

structure Pipe where
  buffer : Nat → UInt8
  readPos : Nat
  writePos : Nat
  readers : Int
  writers : Int

def Pipe.zero : Pipe := ⟨fun _ => 0, 0, 0, 0, 0⟩

structure FdEntry where
  type : FdType
  node : Option Nat
  pipe : Option (Fin 32)
  mount : Option Nat
  fsHandle : Option Nat
  offset : Nat
  readable : Bool
  writable : Bool
  nonblock : Bool
  flags : Int
deriving DecidableEq

def FdEntry.zero : FdEntry := ⟨.none, none, none, none, none, 0, false, false, false, 0⟩

abbrev maxFds : Nat := 32

structure Process where
  pid : Nat
  mainThread : Option Nat
  cwd : Option Nat
  parent : Option Nat
  fds : Fin maxFds → FdEntry

def Process.zero : Process := ⟨0, none, none, none, fun _ => FdEntry.zero⟩

/-- `regs` stands for the saved registers, `process`, `parent` and `next` are addresses. -/
structure Task where
  pid : Nat
  regs : Nat
  process : Option Nat
  state : TaskState
  parent : Option Nat
  exitCode : Int
  next : Option Nat

def Task.zero : Task := ⟨0, 0, none, .ready, none, 0, none⟩

/-- The file systems of the kernel; `tmpfs` is the one `sys_mount` keeps for itself. -/
inductive FileSystem where
  | tarfs
  | procfs
  | devfs
  | sysfs
  | fat32
  | isofs
  | tmpfs
deriving DecidableEq

inductive Callback where
  | open
  | read
  | write
  | close
  | ioctl
  | lseek
deriving DecidableEq

def FileSystem.has : FileSystem → Callback → Bool
  | .tarfs, _ => false
  | .tmpfs, _ => false
  | .devfs, _ => true
  | .procfs, c => c = .open ∨ c = .read ∨ c = .close
  | .sysfs, c => c = .open ∨ c = .read ∨ c = .close
  | .fat32, c => c = .open ∨ c = .read ∨ c = .write ∨ c = .close
  | .isofs, c => c = .open ∨ c = .read ∨ c = .write ∨ c = .close

structure Mount where
  path : List Char
  fs : Option FileSystem
  data : Nat

inductive NodeType where
  | file
  | dir
  | dev
  | symlink
  | mount
deriving DecidableEq

structure DevOps where
  write : Bool
  read : Bool
  ioctl : Bool
deriving DecidableEq

structure Ptr where
  block : Nat
  off : Nat
deriving DecidableEq

structure File where
  size : Nat
  offset : Nat
  privateData : Option Ptr

def File.zero : File := ⟨0, 0, none⟩

/-- `children` lists the nodes of the chain of `next` pointers, newest first. -/
structure Node where
  name : List Char
  directory : Bool
  type : NodeType
  parent : Option Nat
  children : List Nat
  symlink : List Char
  filesystem : Option FileSystem
  mountData : Nat
  file : Option Nat
  dev : Option DevOps

/-- A call to a file system with the pointer it is given: the mount's data for `open`, else a
handle. Each successful `open` makes a new handle. `asProcFile` is the cast of `sys_readdir`. -/
inductive FsCall where
  | opened (fs : FileSystem) (data : Nat) (result : Option Nat)
  | used (fs : FileSystem) (callback : Callback) (handle : Nat)
  | closed (fs : FileSystem) (handle : Nat)
  | asProcFile (handle : Nat)
deriving DecidableEq

structure Kernel where
  tasks : Arena Task
  procs : Arena Process
  head : Option Nat
  tail : Option Nat
  current : Nat
  pidCounter : Nat
  pipes : Fin 32 → Pipe
  pipeUsed : Fin 32 → Bool
  nodes : Arena Node
  root : Nat
  files : Arena File
  mounts : Arena Mount
  /-- the chain of mounts, newest first -/
  mountTable : List Nat
  /-- the registered devices, newest first -/
  devices : List (List Char × Option DevOps)
  /-- data blocks: their bytes, of which the first `blockLen` belong to the block -/
  blocks : Arena (Nat → UInt8)
  blockLen : Nat → Nat
  /-- the calls to file systems so far, newest first -/
  fsLog : List FsCall
  handles : Nat
  /-- the volumes that file systems have made for their mounts -/
  volumes : List (FileSystem × Nat)
  /-- the data pointers passed to `kfree` so far, newest first -/
  freed : List Ptr
  allocs : Nat

inductive Freed where
  | task (t : Nat)
  | mount (m : Nat)
  | node (n : Nat)
  | data (p : Ptr)
deriving DecidableEq

/-- What the kernel cannot decide itself during a call: the answers of `kmalloc` and the contents
of new blocks, the answers of the file systems, devices and terminal, the bytes that happen to lie
behind a path, whether the memory side of a call succeeds. A loop or a recursion longer than `fuel`
counts as one that never returns. -/
structure Env where
  fuel : Nat
  malloc : Nat → Option Nat
  /-- whether there is memory for a copy of a text, by the allocations so far -/
  texts : Nat → Bool
  /-- whether `kfree` comes back with a record, having merged its blocks with free ones only: it takes
  the word in front of a block for the size of the one before, whose owner may have overwritten it
  (`Heap.kfree_reads` says what it reads then) -/
  frees : Freed → Bool
  garbage : Nat → Nat → UInt8
  /-- by the number of the handle and by what is asked: file system, data, path -/
  opens : Nat → FileSystem → Nat → List Char → Bool
  answer : Int
  bytes : List UInt8
  beyond : List Char
  /-- the text at address 0, as which a null pointer reads -/
  atNull : List Char
  space : Bool
  pages : Bool
  elf : Bool

namespace Kernel

/-- The state after `vfs::init` and `sched::init`. -/
def boot : Kernel where
  tasks := ⟨fun _ => { Task.zero with process := some 0, state := .running }, {0}⟩
  procs := ⟨fun _ => { Process.zero with cwd := some 0 }, {0}⟩
  head := none
  tail := none
  current := 0
  pidCounter := 1
  pipes := fun _ => Pipe.zero
  pipeUsed := fun _ => false
  nodes := ⟨fun _ => ⟨['/'], true, .dir, none, [], [], none, 0, none, none⟩, {0}⟩
  root := 0
  files := ⟨fun _ => File.zero, ∅⟩
  mounts := ⟨fun _ => ⟨[], none, 0⟩, ∅⟩
  mountTable := []
  devices := []
  blocks := ⟨fun _ _ => 0, ∅⟩
  blockLen := fun _ => 0
  fsLog := []
  handles := 0
  volumes := []
  freed := []
  allocs := 0

/-- `kmalloc` for a kind of record: null, or an address not in use. -/
def kmalloc (k : Kernel) (env : Env) (used : Finset Nat) : Option Nat × Kernel :=
  ((env.malloc k.allocs).filter (· ∉ used), { k with allocs := k.allocs + 1 })

theorem kmalloc_eq {k k' : Kernel} {env : Env} {used : Finset Nat} {a : Option Nat}
    (h : k.kmalloc env used = (a, k')) :
    k' = { k with allocs := k.allocs + 1 } ∧ ∀ x, a = some x → x ∉ used := by
  simp only [kmalloc, Prod.mk.injEq] at h
  refine ⟨h.2.symm, fun x hx => ?_⟩
  rw [← h.1] at hx
  simpa using (Option.filter_eq_some_iff.mp hx).2

def task (k : Kernel) (t : Nat) : Task := k.tasks.cell t

def setTask (k : Kernel) (t : Nat) (x : Task) : Kernel := { k with tasks := k.tasks.set t x }

def proc (k : Kernel) (p : Nat) : Process := k.procs.cell p

def setProc (k : Kernel) (p : Nat) (x : Process) : Kernel := { k with procs := k.procs.set p x }

def node (k : Kernel) (n : Nat) : Node := k.nodes.cell n

def setNode (k : Kernel) (n : Nat) (x : Node) : Kernel := { k with nodes := k.nodes.set n x }

def currentProc (k : Kernel) : Option Nat := (k.task k.current).process

def entry (k : Kernel) (p : Nat) (i : Fin maxFds) : FdEntry := (k.proc p).fds i

def setEntry (k : Kernel) (p : Nat) (i : Fin maxFds) (e : FdEntry) : Kernel :=
  k.setProc p { k.proc p with fds := Function.update (k.proc p).fds i e }

end Kernel

end LosTacOS.Os
