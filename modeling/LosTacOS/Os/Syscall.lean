import LosTacOS.Os.Sched

/-! The system calls on descriptors, files, mounts and processes. A call returns its result and
the kernel after; -1 is written as such. -/
namespace LosTacOS.Os

def cInt (a : UInt64) : Int := Int.bmod a.toNat (2^32)

def fdIndex (fd : Int) : Option (Fin maxFds) :=
  if h : 0 ≤ fd ∧ fd < maxFds then some ⟨fd.toNat, by omega⟩ else none

def fsByName (name : List Char) : Option FileSystem :=
  ([("tarfs", FileSystem.tarfs), ("procfs", .procfs), ("devfs", .devfs), ("sysfs", .sysfs),
    ("fat32", .fat32), ("isofs", .isofs), ("tmpfs", .tmpfs), ("ramfs", .tmpfs)].find?
      fun f => f.1.toList = name).map Prod.snd

namespace Kernel

variable (env : Env)

section descriptors

def getFdEntry (k : Kernel) (fd : Int) : Option (Nat × Fin maxFds) := do
  let i ← fdIndex fd
  let p ← k.currentProc
  some (p, i)

def openFd (k : Kernel) (fd : Int) : Option (Nat × Fin maxFds) :=
  (k.getFdEntry fd).filter fun x => (k.entry x.1 x.2).type ≠ .none

def firstFree (k : Kernel) (p start : Nat) : Option (Fin maxFds) :=
  (List.finRange maxFds).find? fun j => start ≤ j.val ∧ (k.entry p j).type = .none

def allocFd (k : Kernel) (node : Option Nat) : Option (Nat × Fin maxFds) × Kernel :=
  match k.currentProc with
  | none => (none, k)
  | some p =>
    match k.firstFree p 3 with
    | none => (none, k)
    | some i =>
      (some (p, i), k.setEntry p i { FdEntry.zero with
        node, type := if node.isSome then .file else .none })

def fsOf (k : Kernel) (e : FdEntry) (c : Callback) : Option (FileSystem × Nat) := do
  let m ← e.mount
  let h ← e.fsHandle
  let fs ← (k.mounts.cell m).fs
  if fs.has c then some (fs, h) else none

/-- One reader or writer less; `gone` decides whether the pipe is given back. -/
def release (k : Kernel) (e : FdEntry) (gone : Int → Bool) : Kernel :=
  match e.pipe with
  | some i =>
    let q := adjust (k.pipes i) e (-1)
    { k with
      pipes := Function.update k.pipes i q
      pipeUsed :=
        if gone q.readers && gone q.writers then Function.update k.pipeUsed i false
        else k.pipeUsed }
  | none => k

def sysPipe (k : Kernel) : Option (Fin maxFds × Fin maxFds) × Kernel :=
  match k.currentProc with
  | none => (none, k)
  | some p =>
    match (List.finRange 32).find? fun i => !k.pipeUsed i with
    | none => (none, k)
    | some i =>
      let ends := do
        let r ← k.firstFree p 3
        let w ← (List.finRange maxFds).find? fun j =>
          3 ≤ j.val ∧ (k.entry p j).type = .none ∧ j ≠ r
        some (r, w)
      match ends with
      | none => (none, { k with pipes := Function.update k.pipes i Pipe.zero })
      | some (r, w) =>
        let k := { k with
          pipeUsed := Function.update k.pipeUsed i true
          pipes := Function.update k.pipes i { Pipe.zero with readers := 1, writers := 1 } }
        let k := k.setEntry p r { FdEntry.zero with type := .pipe, pipe := some i, readable := true }
        (some (r, w),
          k.setEntry p w { FdEntry.zero with type := .pipe, pipe := some i, writable := true })

def sysClose (k : Kernel) (fd : Int) : Int × Kernel :=
  match k.openFd fd with
  | none => (-1, k)
  | some (p, i) =>
    let e := k.entry p i
    let k := match k.fsOf e .close with
      | some (fs, h) => k.fsClose fs h
      | none => k
    let k := if e.type = .pipe then k.release e (· = 0) else k
    (0, k.setEntry p i FdEntry.zero)

/-- The copy that `F_DUPFD` and `F_DUPFD_CLOEXEC` make. -/
def dupFrom (k : Kernel) (p : Nat) (i : Fin maxFds) (min : Int) : Int × Kernel :=
  if 0 ≤ min ∧ min < maxFds then
    match k.firstFree p min.toNat with
    | some j => (j.val, k.setEntry p j (k.entry p i))
    | none => (-1, k)
  else (-1, k)

def sysFcntl (k : Kernel) (fd cmd : Int) (arg : UInt64) : Int × Kernel :=
  match k.openFd fd with
  | none => (-1, k)
  | some (p, i) =>
    let e := k.entry p i
    if cmd = 0 then k.dupFrom p i (cInt arg)
    else if cmd = 1 then (e.flags, k)
    else if cmd = 2 then (0, k.setEntry p i { e with flags := cInt arg })
    else if cmd = 3 then (if e.nonblock then 0x800 else 0, k)
    else if cmd = 4 then (0, k.setEntry p i { e with nonblock := arg &&& 0x800 ≠ 0 })
    else if cmd = 1030 then k.dupFrom p i (cInt arg)
    else (0, k)

def sysDup (k : Kernel) (fd : Int) : Int × Kernel :=
  match k.openFd fd with
  | none => (-1, k)
  | some (p, i) =>
    match k.firstFree p 0 with
    | none => (-1, k)
    | some j => (j.val, (k.setEntry p j (k.entry p i)).retain (k.entry p i))

def sysDup2 (k : Kernel) (old new : Int) : Int × Kernel :=
  match k.openFd old, fdIndex new with
  | some (p, i), some j => (j.val, (k.setEntry p j (k.entry p i)).retain (k.entry p i))
  | _, _ => (-1, k)

/-- What `sys_close_all` does with one descriptor. -/
def closeEntry (p : Nat) (k : Kernel) (i : Fin maxFds) : Kernel :=
  let e := k.entry p i
  if e.type = .none then k
  else
    let k :=
      if e.type = .pipe ∧ e.pipe.isSome then k.release e (· ≤ 0)
      else
        match k.fsOf e .close with
        | some (fs, h) => k.fsClose fs h
        | none => k
    k.setEntry p i FdEntry.zero

def sysCloseAll (k : Kernel) (p : Nat) : Kernel := (List.finRange maxFds).foldl (closeEntry p) k

end descriptors

section processes

def closeCurrent (k : Kernel) : Kernel :=
  match k.currentProc with
  | some p => k.sysCloseAll p
  | none => k

def sysExit (k : Kernel) (code : Int) : Option Kernel := k.closeCurrent.exit env code

def sysFork (k : Kernel) : Option (Int × Kernel) :=
  match k.currentProc with
  | none => some (-1, k)
  | some p => do
    let k := k.setProc p { k.proc p with mainThread := some k.current }
    let (child, k) ← k.clone env p
    match child with
    | none => some (-1, k)
    | some c => some ((k.proc c).pid, k)

/-- The test of `kill_task_tree` for a child of `target`. -/
def isChild (k : Kernel) (target t : Nat) : Bool :=
  t ≠ target && match (k.task t).parent with
    | some q => q = target || (k.task q).pid = (k.task target).pid
    | none => false

/-- The last part of `kill_task_tree`, for the task itself. -/
def killOne (k : Kernel) (target : Nat) : Option Kernel :=
  let k := match (k.task target).process with
    | some p => k.sysCloseAll p
    | none => k
  (k.setTask target { k.task target with state := .dead }).removeAndDestroy env target

def killTaskTree : Nat → Kernel → Nat → Option Kernel
  | 0, _, _ => none
  | n + 1, k, target =>
    if (k.task target).pid ≤ 1 then some k
    else do
      let k ← walk (fun k t => if k.isChild target t then killTaskTree n k t else some k)
        env.fuel k k.head
      k.killOne env target

def sysKill (k : Kernel) (pid : Nat) (sig : Int) : Option (Int × Kernel) :=
  if pid ≤ 1 then some (-1, k)
  else if (k.task k.current).pid = pid then do
    let k ← k.exit env (if sig = 0 then 9 else sig)
    some (0, k)
  else do
    match ← k.findTask pid env.fuel k.head with
    | some t =>
      let k ← killTaskTree env env.fuel k t
      some (0, k)
    | none => some (-1, k)

/-- One pass of the loop of `sys_wait`: `true` when it returns. `old` are the registers that the
timer interrupt of `yield` saves. -/
def waitPass (k : Kernel) (pid old : Nat) : Option (Bool × Kernel) := do
  match ← k.findTask pid env.fuel k.head with
  | none => some (true, k)
  | some t =>
    if (k.task t).state = .dead then
      let k ← k.removeAndDestroy env t
      some (true, k)
    else
      let (_, k) ← k.schedule env old
      some (false, k)

end processes

section files

def ensureFileStorage (k : Kernel) (n : Nat) : Option Nat × Kernel :=
  if (k.node n).directory then (none, k)
  else
    match (k.node n).file with
    | some f => (some f, k)
    | none =>
      match k.kmalloc env k.files.used with
      | (none, k) => (none, k)
      | (some f, k) =>
        let k := { k with files := k.files.alloc f File.zero }
        (some f, k.setNode n { k.node n with file := some f })

def copyTo (k : Kernel) (p : Ptr) (bytes : List UInt8) : Kernel :=
  let old := k.blocks.cell p.block
  { k with blocks := k.blocks.set p.block fun x =>
      if p.off ≤ x ∧ x < p.off + bytes.length then bytes.getD (x - p.off) 0 else old x }

def bytesAt (k : Kernel) (p : Ptr) (n : Nat) : List UInt8 :=
  (List.range n).map fun i => k.blocks.cell p.block (p.off + i)

def freeData (k : Kernel) (f : Nat) : Kernel :=
  match (k.files.cell f).privateData with
  | some p => k.kfreeData p
  | none => k

def setContent (k : Kernel) (n : Nat) (data : List UInt8) : Bool × Kernel :=
  match k.ensureFileStorage env n with
  | (none, k) => (false, k)
  | (some f, k) =>
    match k.allocBlock env (data.length + 1) with
    | (none, k) => (false, k)
    | (some b, k) =>
      let k := (k.copyTo ⟨b, 0⟩ (data ++ [0])).freeData f
      let file : File := { k.files.cell f with privateData := some ⟨b, 0⟩, size := data.length }
      (true, { k with files := k.files.set f file })

def writeContent (k : Kernel) (path : List Char) (data : List UInt8) : Option (Bool × Kernel) := do
  let (node, k) ← k.find env path
  match node with
  | some n =>
    let r := k.setContent env n data
    if r.1 = false ∨ k.freesContent env n then some r else none
  | none =>
    let (n, k) ← k.createNode env path false k.root
    some (k.setContent env n data)

def absPath (k : Kernel) (path : List Char) : Option (List Char) :=
  if path.head? = some '/' then some path
  else do
    let cwd ← match k.currentProc with
      | some p =>
        match (k.proc p).cwd with
        | some n => k.getPath env n
        | none => some ['/']
      | none => some ['/']
    let cwd := if cwd.getLast? = some '/' then cwd else cwd ++ ['/']
    some ((cwd ++ path).take 255)

def openFound (k : Kernel) (path : List Char) (flags : Nat) (node : Option Nat) :
    Option (Int × Kernel) :=
  match node with
  | none => some (-1, k)
  | some n =>
    match k.allocFd (some n) with
    | (none, k) => some (-1, k)
    | (some (_, i), k) =>
      if flags.testBit 9 then do
        let (_, k) ← k.writeContent env path []
        some (i.val, k)
      else some (i.val, k)

def openNode (k : Kernel) (path : List Char) (flags : Nat) : Option (Int × Kernel) := do
  let (node, k) ← k.find env path
  if node.isNone ∧ flags.testBit 6 then do
    let (node, k) ← k.createFilePath env path
    k.openFound env path flags node
  else k.openFound env path flags node

/-- The part of `sys_open` that asks the file system of a mount. -/
def openMounted (k : Kernel) (m : Nat) (fs : FileSystem) (sub : List Char) :
    Option (Int × Kernel) := do
  let (handle, k) ← k.fsOpen env (find env) fs (k.mounts.cell m).data sub
  match handle with
  | none => some (-1, k)
  | some h =>
    match k.allocFd none with
    | (none, k) => some (-1, k)
    | (some (p, i), k) =>
      some (i.val, k.setEntry p i
        { k.entry p i with type := .file, fsHandle := some h, mount := some m })

def sysOpen (k : Kernel) (path : List Char) (flags : Nat) : Option (Int × Kernel) := do
  let path ← k.absPath env path
  match k.findMount path with
  | none => k.openNode env path flags
  | some m =>
    let mnt := k.mounts.cell m
    match mnt.fs with
    | none => k.openNode env path flags
    | some fs =>
      let sub := (path.drop mnt.path.length).dropWhile (· = '/')
      if fs.has .open ∧ sub ≠ [] then k.openMounted env m fs sub else k.openNode env path flags

def sysChdir (k : Kernel) (path : List Char) : Option (Int × Kernel) := do
  let (node, k) ← k.find env path
  match node, k.currentProc with
  | some n, some p =>
    if (k.node n).directory then some (0, k.setProc p { k.proc p with cwd := some n })
    else some (-1, k)
  | none, _ => some (-1, k)
  | some _, none => none

def sysMount (k : Kernel) (target : List Char) (fstype : Option (List Char)) (data : Nat) :
    Option (Int × Kernel) :=
  if target = [] then some (-1, k)
  else do
    let path ← k.absPath env target
    let (ok, k) ← k.mount env path (fstype.bind fsByName) data
    some (if ok then 0 else -1, k)

def sysSymlink (k : Kernel) (target path : List Char) : Option (Int × Kernel) := do
  let path ← k.absPath env path
  let (node, k) ← k.createSymlinkPath env path target
  some (if node.isSome then 0 else -1, k)

def sysUmount (k : Kernel) (target : List Char) : Option (Int × Kernel) :=
  if target = [] then some (-1, k)
  else do
    let path ← k.absPath env target
    let (ok, k) ← k.umount env path
    some (if ok then 0 else -1, k)

/-- The growth of a file in `sys_write`: null when there is no memory. -/
def growFile (k : Kernel) (f : Nat) (size : Nat) : Option Kernel :=
  let file := k.files.cell f
  if file.size < size then
    match k.allocBlock env (size + 1) with
    | (none, _) => none
    | (some b, k) =>
      let k := match file.privateData with
        | some p => (k.copyTo ⟨b, 0⟩ (k.bytesAt p file.size)).kfreeData p
        | none => k
      let file : File := { file with privateData := some ⟨b, 0⟩, size := size }
      some { k with files := k.files.set f file }
  else some k

def writeNode (k : Kernel) (p : Nat) (i : Fin maxFds) (n : Nat) (data : List UInt8) :
    Option (Int × Kernel) :=
  let e := k.entry p i
  match k.ensureFileStorage env n with
  | (none, k) => some (-1, k)
  | (some f, k) =>
    let end_ := e.offset + data.length
    match k.growFile env f end_ with
    | none => some (-1, { k with allocs := k.allocs + 1 })
    | some k' =>
      if end_ ≤ (k.files.cell f).size ∨ k.freesData env f then
        let k := k'
        -- without data of its own the file would be written through a null pointer
        match (k.files.cell f).privateData with
        | none => none
        | some q =>
          let k := k.copyTo ⟨q.block, q.off + e.offset⟩ data
          let k := k.copyTo ⟨q.block, q.off + (k.files.cell f).size⟩ [0]
          some (data.length, k.setEntry p i { e with offset := end_ })
      else none

def pipeWrite (p : Pipe) (data : List UInt8) : Nat × Pipe :=
  let n := min data.length (4096 - p.writePos)
  (n, { p with
    writePos := p.writePos + n
    buffer := fun x =>
      if p.writePos ≤ x ∧ x < p.writePos + n then data.getD (x - p.writePos) 0 else p.buffer x })

/-- `sys_write`; the terminal takes every byte. -/
def sysWrite (k : Kernel) (fd : Int) (data : List UInt8) : Option (Int × Kernel) :=
  if data = [] then some (0, k)
  else
    match k.openFd fd with
    | none => if fd = 1 ∨ fd = 2 then some (data.length, k) else some (-1, k)
    | some (p, i) =>
      let e := k.entry p i
      if e.type = .tty then some (data.length, k)
      else if e.type = .pipe then
        if e.writable then
          match e.pipe with
          | none => none
          | some j =>
            let (n, q) := pipeWrite (k.pipes j) data
            some (n, { k with pipes := Function.update k.pipes j q })
        else some (-1, k)
      else
        match e.node with
        | none =>
          match k.fsOf e .write with
          | some (fs, h) => some (env.answer, { k with fsLog := .used fs .write h :: k.fsLog })
          | none => some (-1, k)
        | some n =>
          match (k.node n).dev with
          | some dev =>
            if dev.write then
              some (env.answer, k.setEntry p i { e with offset := e.offset + env.answer.toNat })
            else if (k.node n).directory then some (-1, k)
            else k.writeNode env p i n data
          | none => if (k.node n).directory then some (-1, k) else k.writeNode env p i n data

def pipeRead (p : Pipe) (len : Nat) : List UInt8 × Pipe :=
  let n := min len (p.writePos - p.readPos)
  let bytes := (List.range n).map fun i => p.buffer (p.readPos + i)
  if p.writePos ≤ p.readPos + n then (bytes, { p with readPos := 0, writePos := 0 })
  else (bytes, { p with readPos := p.readPos + n })

/-- `sys_read`: the result, the bytes, the kernel after. A read that waits for a writer does not
return in this step. -/
def sysRead (k : Kernel) (fd : Int) (len : Nat) : Option (Int × List UInt8 × Kernel) :=
  if fd = 0 then some (env.answer, env.bytes, k)
  else
    match k.openFd fd with
    | none => some (-1, [], k)
    | some (p, i) =>
      let e := k.entry p i
      match if e.node.isNone then k.fsOf e .read else none with
      | some (fs, h) =>
        some (env.answer, env.bytes, { k with fsLog := .used fs .read h :: k.fsLog })
      | none =>
        if e.type = .pipe then
          if e.readable then
            match e.pipe with
            | none => none
            | some j =>
              let q := k.pipes j
              if q.readPos < q.writePos then
                let (bytes, q) := pipeRead q len
                some (bytes.length, bytes, { k with pipes := Function.update k.pipes j q })
              else if q.writers ≤ 0 then some (0, [], k)
              else none
          else some (-1, [], k)
        else
          match e.node with
          | none => some (-1, [], k)
          | some n =>
            if ((k.node n).dev.any fun d => d.read) then
              some (env.answer, env.bytes,
                k.setEntry p i { e with offset := e.offset + env.answer.toNat })
            else if (k.node n).directory then some (-1, [], k)
            else
              match (k.node n).file with
              | none => some (0, [], k)
              | some f =>
                let file := k.files.cell f
                match file.privateData with
                | none => some (0, [], k)
                | some q =>
                  if file.size ≤ e.offset then some (0, [], k)
                  else
                    let m := min len (file.size - e.offset)
                    some (m, k.bytesAt ⟨q.block, q.off + e.offset⟩ m,
                      k.setEntry p i { e with offset := e.offset + m })

def sysLseek (k : Kernel) (fd offset : Int) (whence : Nat) : Int × Kernel :=
  match k.openFd fd with
  | none => (-1, k)
  | some (p, i) =>
    let e := k.entry p i
    if e.type = .pipe then (-1, k)
    else
      match if e.node.isNone then k.fsOf e .lseek else none with
      | some (fs, h) =>
        let k := { k with fsLog := .used fs .lseek h :: k.fsLog }
        if 0 ≤ env.answer then
          (env.answer, k.setEntry p i { e with offset := env.answer.toNat })
        else (env.answer, k)
      | none =>
        let size := ((e.node.bind fun n => (k.node n).file).map fun f => (k.files.cell f).size).getD 0
        match ([0, (e.offset : Int), (size : Int)] : List Int)[whence]? with
        | none => (-1, k)
        | some base =>
          if base + offset < 0 then (-1, k)
          else (base + offset, k.setEntry p i { e with offset := (base + offset).toNat })

def sysIoctl (k : Kernel) (fd : Int) : Int × Kernel :=
  if fd = 0 ∨ fd = 1 ∨ fd = 2 then (env.answer, k)
  else
    match k.getFdEntry fd with
    | none => (env.answer, k)
    | some (p, i) =>
      let e := k.entry p i
      match if e.node.isNone then k.fsOf e .ioctl else none with
      | some (fs, h) => (env.answer, { k with fsLog := .used fs .ioctl h :: k.fsLog })
      | none => (env.answer, k)

/-- `sys_readdir`: any handle of any file system is read as a `ProcFile`. -/
def sysReaddir (k : Kernel) (fd : Int) : Int × Kernel :=
  match k.openFd fd with
  | none => (-1, k)
  | some (p, i) =>
    let e := k.entry p i
    let handle := do
      let m ← e.mount
      let _ ← (k.mounts.cell m).fs
      e.fsHandle
    match e.node, handle with
    | none, some h =>
      let k := { k with fsLog := .asProcFile h :: k.fsLog }
      if env.answer = 1 then (1, k.setEntry p i { e with offset := e.offset + 1 })
      else (if env.answer = 0 then 0 else -1, k)
    | none, none => (-1, k)
    | some n, _ =>
      if (k.node n).directory then
        if env.answer = 1 then (1, k.setEntry p i { e with offset := e.offset + 1 }) else (0, k)
      else (-1, k)

end files

end Kernel

end LosTacOS.Os
