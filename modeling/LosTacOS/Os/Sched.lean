import LosTacOS.Os.Vfs

/-! The task list and the scheduler. The loops follow the `next` pointers as they find them, also
those of tasks that were freed on the way. -/
namespace LosTacOS.Os.Kernel

variable (env : Env)

/-- `add`; the list must have a tail when it has a head. -/
def add (k : Kernel) (t : Nat) : Option Kernel :=
  let k := k.setTask t { k.task t with next := none }
  match k.head, k.tail with
  | none, _ => some { k with head := some t, tail := some t }
  | some _, some l => some { k.setTask l { k.task l with next := some t } with tail := some t }
  | some _, none => none

/-- `for (t = from; t; t = next)` with `next` read before the body runs. -/
def walk (visit : Kernel → Nat → Option Kernel) : Nat → Kernel → Option Nat → Option Kernel
  | _, k, none => some k
  | 0, _, some _ => none
  | n + 1, k, some t => do
    let next := (k.task t).next
    let k ← visit k t
    walk visit n k next

/-- `while (t && t->next != task) t = t->next`. -/
def before (k : Kernel) (x : Nat) : Nat → Option Nat → Option (Option Nat)
  | _, none => some none
  | 0, some _ => none
  | n + 1, some t =>
    if (k.task t).next = some x then some (some t) else k.before x n (k.task t).next

def unlink (k : Kernel) (t : Nat) : Option Kernel :=
  if k.head = some t then
    let k := { k with head := (k.task t).next }
    some (if k.tail = some t then { k with tail := k.head } else k)
  else do
    match ← k.before t env.fuel k.head with
    | none => some k
    | some p =>
      let k := k.setTask p { k.task p with next := (k.task t).next }
      some (if k.tail = some t then { k with tail := some p } else k)

def removeAndDestroy (k : Kernel) (t : Nat) : Option Kernel :=
  if t = k.current then some k
  else do
    let k ← k.unlink env t
    if env.frees (.task t) then
      let k := match (k.task t).process with
        | some p => { k with procs := k.procs.free p }
        | none => k
      some { k with tasks := k.tasks.free t }
    else none

def reap (k : Kernel) : Option Kernel :=
  walk (fun k t =>
    if (k.task t).state = .dead ∧ t ≠ k.current then k.removeAndDestroy env t else some k)
    env.fuel k k.head

def ringNext (k : Kernel) (h t : Nat) : Nat := (k.task t).next.getD h

/-- `do { if (p(t)) break; t = next } while (t != start)`. -/
def seek (k : Kernel) (p : Task → Bool) (h start : Nat) : Nat → Nat → Option Nat
  | 0, _ => none
  | n + 1, t =>
    if p (k.task t) then some t
    else if k.ringNext h t = start then some start
    else k.seek p h start n (k.ringNext h t)

def run (k : Kernel) (t : Nat) : Kernel :=
  { k.setTask t { k.task t with state := .running } with current := t }

def suspend (k : Kernel) (old : Nat) : Kernel :=
  let c := k.task k.current
  k.setTask k.current
    { c with regs := old, state := if c.state = .running then .ready else c.state }

/-- The choice of `schedule` from a list that starts with `h`: the first task that is ready, or
else the first that is not dead. -/
def pick (k : Kernel) (h old : Nat) : Option (Nat × Kernel) := do
  let start := k.ringNext h k.current
  let next ← k.seek (·.state = .ready) h start env.fuel start
  if (k.task next).state = .ready then some ((k.task next).regs, k.run next)
  else do
    let t ← k.seek (·.state ≠ .dead) h h env.fuel h
    if (k.task t).state ≠ .dead then some ((k.task t).regs, k.run t) else some (old, k)

/-- `schedule`: the registers to go on with. -/
def schedule (k : Kernel) (old : Nat) : Option (Nat × Kernel) := do
  let k ← k.reap env
  let k := k.suspend old
  match k.head with
  | none => some (old, k)
  | some h => k.pick env h old

/-- `sched::exit` up to its call of `schedule`. -/
def leave (k : Kernel) (code : Int) : Kernel :=
  let k := k.setTask k.current { k.task k.current with exitCode := code, state := .dead }
  match (k.task k.current).parent with
  | some p =>
    if (k.task p).state = TaskState.blocked then k.setTask p { k.task p with state := .ready }
    else k
  | none => k

def exit (k : Kernel) (code : Int) : Option Kernel := do
  let k := k.leave code
  let (_, k) ← k.schedule env (k.task k.current).regs
  some k

def findTask (k : Kernel) (pid : Nat) : Nat → Option Nat → Option (Option Nat)
  | _, none => some none
  | 0, some _ => none
  | n + 1, some t => if (k.task t).pid = pid then some (some t) else k.findTask pid n (k.task t).next

/-- `d` more readers or writers, for an entry that is one. -/
def adjust (q : Pipe) (e : FdEntry) (d : Int) : Pipe :=
  { q with
    readers := if e.readable then q.readers + d else q.readers
    writers := if e.writable then q.writers + d else q.writers }

def retain (k : Kernel) (e : FdEntry) : Kernel :=
  match e.type, e.pipe with
  | .pipe, some i => { k with pipes := Function.update k.pipes i (adjust (k.pipes i) e 1) }
  | _, _ => k

def newProcess (k : Kernel) (p : Nat) : Kernel :=
  { k with
    procs := k.procs.alloc p { Process.zero with pid := k.pidCounter }
    pidCounter := k.pidCounter + 1 }

def inherit (k : Kernel) (parent child : Nat) : Kernel :=
  let pp := k.proc parent
  let k := k.setProc child
    { k.proc child with cwd := pp.cwd, parent := some parent, fds := pp.fds }
  (List.finRange maxFds).foldl (fun k i => k.retain (k.entry child i)) k

def freeProcess (k : Kernel) (p : Nat) : Kernel := { k with procs := k.procs.free p }

/-- A new task `t` that runs process `p`, at the end of the list. -/
def startTask (k : Kernel) (t p stack : Nat) (parent : Option Nat) : Option Kernel :=
  let task : Task :=
    { pid := (k.proc p).pid
      regs := stack
      process := some p
      state := .ready
      parent := parent
      exitCode := 0
      next := none }
  let k := k.setProc p { k.proc p with mainThread := some t }
  { k with tasks := k.tasks.alloc t task }.add t

/-- The part of `clone` after the address space has been created. -/
def cloneInto (k : Kernel) (parent child : Nat) : Option (Option Nat × Kernel) :=
  let k := k.inherit parent child
  if env.pages then
    match k.kmalloc env k.tasks.used with
    | (none, k) => some (none, k.freeProcess child)
    | (some t, k) =>
      match k.kmalloc env ∅ with
      | (none, k) => some (none, { k with tasks := k.tasks.set t Task.zero }.freeProcess child)
      | (some stack, k) => do
        let k ← k.startTask t child stack (k.proc parent).mainThread
        some (some child, k)
  else some (none, k.freeProcess child)

def clone (k : Kernel) (parent : Nat) : Option (Option Nat × Kernel) :=
  match (k.proc parent).mainThread with
  | none => some (none, k)
  | some _ =>
    match k.kmalloc env k.procs.used with
    | (none, k) => some (none, k)
    | (some child, k) =>
      let k := k.newProcess child
      if env.space then k.cloneInto env parent child else some (none, k.freeProcess child)

/-- The part of `spawn` after the program has been loaded. -/
def launch (k : Kernel) (p : Nat) : Option (Option Nat × Kernel) :=
  match k.kmalloc env k.tasks.used with
  | (none, k) => some (none, k)
  | (some t, k) =>
    match k.kmalloc env ∅ with
    | (none, k) => some (none, { k with tasks := k.tasks.set t Task.zero })
    | (some stack, k) => do
      let k ← k.startTask t p stack none
      some (some t, k.setTask t { k.task t with parent := some k.current })

/-- `sched::spawn`; a process whose start fails is leaked. The loader looks the program up. -/
def spawn (k : Kernel) (path : List Char) : Option (Option Nat × Kernel) :=
  match k.kmalloc env k.procs.used with
  | (none, k) => some (none, k)
  | (some p, k) => do
    let (cwd, k) ← (k.newProcess p).find env ['/']
    let k := k.setProc p { k.proc p with cwd := cwd }
    if env.space then do
      let (_, k) ← k.find env path
      if env.elf then k.launch env p else some (none, k)
    else some (none, k)

end LosTacOS.Os.Kernel
