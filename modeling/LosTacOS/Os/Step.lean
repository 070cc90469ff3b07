import LosTacOS.Os.Tarfs

/-! Runs of the kernel. Interrupts are off while a call runs, so that each event is one step; a
call that waits does not step until it can go on. -/
namespace LosTacOS.Os

/-- The calls into the kernel, by user programs and by the kernel itself. -/
inductive Event where
  | pipe
  | close (fd : Int)
  | dup (fd : Int)
  | dup2 (old new : Int)
  | fcntl (fd cmd : Int) (arg : UInt64)
  | fork
  | execve (path : List Char)
  | exit (code : Int)
  | fault (code : Int)
  | kill (pid : Nat) (sig : Int)
  | wait (pid old : Nat)
  | spawn (path : List Char)
  | schedule (old : Nat)
  | open (path : List Char) (flags : Nat)
  | write (fd : Int) (data : List UInt8)
  | read (fd : Int) (len : Nat)
  | lseek (fd offset : Int) (whence : Nat)
  | ioctl (fd : Int)
  | readdir (fd : Int)
  | chdir (path : List Char)
  | sysMount (target : List Char) (fstype : Option (List Char)) (data : Nat)
  | sysUmount (target : List Char)
  | sysSymlink (target path : List Char)
  | createFilePath (path : List Char)
  | createDirPath (path : List Char)
  | createSymlinkPath (path target : List Char)
  | registerDevice (name : List Char) (dev : DevOps)
  | mount (path : List Char) (fs : Option FileSystem)
  | mountVolume (path : List Char) (fs : FileSystem)
  | umount (path : List Char)
  | remove (path : List Char)
  | mountRootfs (archive : Nat → UInt8) (size : Nat) (unpacked : Option (List UInt8))

def Event.lifecycle : Event → Bool
  | .fork => true
  | .exit _ => true
  | .fault _ => true
  | .kill _ _ => true
  | .wait _ _ => true
  | .spawn _ => true
  | .schedule _ => true
  | _ => false

def Event.onTable : Event → Bool
  | .pipe => true
  | .close _ => true
  | .dup _ => true
  | .dup2 _ _ => true
  | .fcntl _ _ _ => true
  | _ => false

def Event.onTree : Event → Bool
  | .execve _ => true
  | .sysMount _ _ _ => true
  | .sysUmount _ => true
  | .sysSymlink _ _ => true
  | .createFilePath _ => true
  | .createDirPath _ => true
  | .createSymlinkPath _ _ => true
  | .registerDevice _ _ => true
  | .mount _ _ => true
  | .mountVolume _ _ => true
  | .umount _ => true
  | .remove _ => true
  | .mountRootfs _ _ _ => true
  | _ => false

structure Reply where
  value : Int
  bytes : List UInt8

namespace Kernel

def answer {α : Type} (f : α → Int) (x : Option (α × Kernel)) : Option (Reply × Kernel) :=
  x.map fun r => (⟨f r.1, []⟩, r.2)

def silent (x : Option Kernel) : Option (Reply × Kernel) := x.map fun k => (⟨0, []⟩, k)

def status (b : Bool) : Int := if b then 0 else -1

def step (env : Env) (k : Kernel) : Event → Option (Reply × Kernel)
  | .pipe => answer (fun r => status r.isSome) (some k.sysPipe)
  | .close fd => answer id (some (k.sysClose fd))
  | .dup fd => answer id (some (k.sysDup fd))
  | .dup2 old new => answer id (some (k.sysDup2 old new))
  | .fcntl fd cmd arg => answer id (some (k.sysFcntl fd cmd arg))
  | .fork => answer id (k.sysFork env)
  -- what else `exec_current` does is about the address space and the registers
  | .execve path =>
    if env.space then answer (fun _ => 0) (k.find env path) else some (⟨-1, []⟩, k)
  | .exit code => silent (k.sysExit env code)
  | .fault code => silent (k.exit env code)
  | .kill pid sig => answer id (k.sysKill env pid sig)
  | .wait pid old => answer (fun _ => 0) (k.waitPass env pid old)
  | .spawn path => answer (fun r => status r.isSome) (k.spawn env path)
  | .schedule old => answer (fun _ => 0) (k.schedule env old)
  | .open path flags => answer id (k.sysOpen env path flags)
  | .write fd data => answer id (k.sysWrite env fd data)
  | .read fd len => (k.sysRead env fd len).map fun r => (⟨r.1, r.2.1⟩, r.2.2)
  | .lseek fd offset whence => answer id (some (k.sysLseek env fd offset whence))
  | .ioctl fd => answer id (some (k.sysIoctl env fd))
  | .readdir fd => answer id (some (k.sysReaddir env fd))
  | .chdir path => answer id (k.sysChdir env path)
  | .sysMount target fstype data => answer id (k.sysMount env target fstype data)
  | .sysUmount target => answer id (k.sysUmount env target)
  | .sysSymlink target path => answer id (k.sysSymlink env target path)
  | .createFilePath path => answer (fun n => status n.isSome) (k.createFilePath env path)
  | .createDirPath path => answer (fun n => status n.isSome) (k.createDirPath env path)
  | .createSymlinkPath path target =>
    answer (fun n => status n.isSome) (k.createSymlinkPath env path target)
  | .registerDevice name dev => silent (k.registerDevice env (find env) name dev)
  | .mount path fs => answer status (k.mount env path fs 0)
  | .mountVolume path fs => answer status (k.mountVolume env path fs)
  | .umount path => answer status (k.umount env path)
  | .remove path => answer status (k.remove env path)
  | .mountRootfs archive size unpacked => silent (k.mountRootfs env archive size unpacked)

theorem answer_some {α : Type} {k' : Kernel} {f : α → Int} {x : Option (α × Kernel)} {r : Reply}
    (h : answer f x = some (r, k')) : ∃ a, x = some (a, k') := by
  obtain ⟨⟨a, k1⟩, hx, he⟩ := Option.map_eq_some_iff.mp h
  cases he
  exact ⟨a, hx⟩

theorem silent_some {k' : Kernel} {x : Option Kernel} {r : Reply}
    (h : silent x = some (r, k')) : x = some k' := by
  obtain ⟨k1, hx, he⟩ := Option.map_eq_some_iff.mp h
  cases he
  exact hx

theorem answer_pure {α : Type} {k' : Kernel} {f : α → Int} {x : α × Kernel} {r : Reply}
    (h : answer f (some x) = some (r, k')) : k' = x.2 := by
  obtain ⟨a, hx⟩ := answer_some h
  cases hx
  rfl

/-- The call comes back. It does not fault, and each `create_node` in it gets memory for the node and
for its name; `Full.createNode` says what becomes of the tree otherwise. -/
def ComesBack (env : Env) (k : Kernel) (ev : Event) : Prop := (k.step env ev).isSome

/-- The states of the runs all of whose steps come back and are as `ok` demands. Each step may meet
another environment. -/
inductive Reached (ok : Env → Kernel → Event → Prop) : Kernel → Prop
  | boot : Reached ok boot
  | step {k k' : Kernel} {env : Env} {ev : Event} {r : Reply} (hk : Reached ok k)
      (hok : ok env k ev) (hs : step env k ev = some (r, k')) : Reached ok k'

theorem Reached.invariant {ok : Env → Kernel → Event → Prop} {I : Kernel → Prop} (h0 : I Kernel.boot)
    (hstep : ∀ {k k' env ev r}, I k → ok env k ev → k.step env ev = some (r, k') → I k')
    {k : Kernel} (h : Reached ok k) : I k := by
  induction h with
  | boot => exact h0
  | step _ hok hs ih => exact hstep ih hok hs

theorem Reached.mono {ok ok' : Env → Kernel → Event → Prop} {k : Kernel} (h : Reached ok k)
    (himp : ∀ env k ev, ok env k ev → ok' env k ev) : Reached ok' k := by
  induction h with
  | boot => exact .boot
  | step _ hok hs ih => exact .step ih (himp _ _ _ hok) hs

theorem Reached.comesBack {ok : Env → Kernel → Event → Prop} {k : Kernel} (h : Reached ok k) :
    Reached (fun env k ev => ok env k ev ∧ k.ComesBack env ev) k := by
  induction h with
  | boot => exact .boot
  | step _ hok hs ih => exact .step ih ⟨hok, Option.isSome_iff_exists.mpr ⟨_, hs⟩⟩ hs

def runAll (k : Kernel) : List (Env × Event) → Option Kernel
  | [] => some k
  | (env, ev) :: rest => do
    let (_, k) ← k.step env ev
    k.runAll rest

theorem runAll_append (k : Kernel) (steps rest : List (Env × Event)) :
    k.runAll (steps ++ rest) = (k.runAll steps).bind fun k' => k'.runAll rest := by
  induction steps generalizing k with
  | nil => rfl
  | cons s steps ih =>
    simp only [List.cons_append, runAll, Option.bind_eq_bind, Option.bind_assoc, ih]

/-- A run that stops where `check` says no. -/
def runChecked (check : Env → Kernel → Event → Bool) (k : Kernel) : List (Env × Event) → Option Kernel
  | [] => some k
  | (env, ev) :: rest =>
    if check env k ev then do
      let (_, k) ← k.step env ev
      k.runChecked check rest
    else none

theorem any_exists {α : Type} {o : Option α} {p : α → Bool} (h : o.any p = true) :
    ∃ x, o = some x ∧ p x = true := by
  cases o with
  | none => cases h
  | some x => exact ⟨x, rfl, h⟩

theorem Reached.runAll {ok : Env → Kernel → Event → Prop} {k k' : Kernel} (hk : Reached ok k)
    {steps : List (Env × Event)} (hok : ∀ q, ∀ s ∈ steps, ok s.1 q s.2)
    (h : k.runAll steps = some k') : Reached ok k' := by
  induction steps generalizing k with
  | nil =>
    cases h
    exact hk
  | cons s steps ih =>
    obtain ⟨⟨r, k1⟩, h1, h2⟩ := Option.bind_eq_some_iff.mp h
    exact ih (.step hk (hok k s List.mem_cons_self) h1)
      (fun q s hs => hok q s (List.mem_cons_of_mem _ hs)) h2

/-- The first step of a run, when it is as `ok` demands. -/
theorem Reached.first {ok : Env → Kernel → Event → Prop} {k k' : Kernel} {env : Env} {ev : Event}
    {rest : List (Env × Event)} (hk : Reached ok k)
    (h : k.runAll ((env, ev) :: rest) = some k') (hok : ok env k ev) :
    ∃ k1, k.runAll [(env, ev)] = some k1 ∧ Reached ok k1 ∧ k1.runAll rest = some k' := by
  obtain ⟨⟨r, k1⟩, h1, h2⟩ := Option.bind_eq_some_iff.mp h
  refine ⟨k1, ?_, .step hk hok h1, h2⟩
  simp [Kernel.runAll, h1]

theorem Reached.runChecked {ok : Env → Kernel → Event → Prop} {check : Env → Kernel → Event → Bool}
    (hcheck : ∀ env k ev, check env k ev = true → ok env k ev) {k k' : Kernel} (hk : Reached ok k)
    {steps : List (Env × Event)} (h : k.runChecked check steps = some k') : Reached ok k' := by
  induction steps generalizing k with
  | nil =>
    cases h
    exact hk
  | cons s steps ih =>
    unfold Kernel.runChecked at h
    split at h
    · rename_i hs
      obtain ⟨⟨r, k1⟩, h1, h2⟩ := Option.bind_eq_some_iff.mp h
      exact ih (.step hk (hcheck _ _ _ hs) h1) h2
    · cases h

end Kernel

end LosTacOS.Os
