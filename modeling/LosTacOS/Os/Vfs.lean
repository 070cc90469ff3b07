import LosTacOS.Os.State
import Mathlib.Data.List.Basic

/-! The VFS tree and the mount table. A path is the list of its characters, without the
terminator. `none` as a whole result means that the call faults or never returns. -/
namespace LosTacOS.Os

def parts : Nat → List Char → List (List Char × Option (List Char))
  | 0, _ => []
  | n + 1, path =>
    match path.dropWhile (· ≠ '/') with
    | [] => [(path, none)]
    | _ :: rest => (path.takeWhile (· ≠ '/'), some rest) :: parts n rest

def cut (part : List Char) : List Char := part.take 127

/-- The components `create_file_path` and `create_dir_path` walk through. -/
def components (path : List Char) : List (List Char) :=
  ((parts (path.length + 1) path).map fun p => cut p.1).filter (· ≠ [])

/-- What `find` hands to a mounted file system: the missing part and the text behind it. -/
def relpath (part : List Char) (rest : List Char) : List Char :=
  match rest with
  | [] => part
  | '/' :: _ => part ++ rest
  | _ => part ++ '/' :: rest

namespace Kernel

variable (env : Env)

def findIn (k : Kernel) (dir : Nat) (name : List Char) : Option Nat :=
  (k.node dir).children.find? fun c => (k.node c).name = name

def getProcessCwd (k : Kernel) : Nat :=
  match k.currentProc with
  | some p => (k.proc p).cwd.getD k.root
  | none => k.root

def pathFrom (k : Kernel) : Nat → Option Nat → List Char → Option (List Char)
  | _, none, acc => some acc
  | 0, some _, _ => none
  | n + 1, some x, acc =>
    if x = k.root then some acc
    else k.pathFrom n (k.node x).parent ('/' :: (k.node x).name ++ acc)

/-- `get_path`; a path that overflows its buffer is a fault. -/
def getPath (k : Kernel) (n : Nat) : Option (List Char) :=
  if n = k.root then some ['/']
  else (k.pathFrom env.fuel (some n) []).filter (·.length < 1024)

def linkTarget (k : Kernel) (n : Nat) : Option (List Char) :=
  let link := (k.node n).symlink
  if link.head? = some '/' then (some link).filter (·.length < 256)
  else do
    let base ← match (k.node n).parent with
      | some p => k.getPath env p
      | none => some ['/']
    let base := if base.getLast? = some '/' then base else base ++ ['/']
    (some (base ++ link)).filter (·.length < 256)

/-- The node that `create_node` fills in and puts before the other children of its parent. -/
def linkNew (k : Kernel) (n : Nat) (name : List Char) (directory : Bool) (parent : Nat) : Kernel :=
  let dir := k.node parent
  let node : Node :=
    { name, directory
      type := if directory then .dir else .file
      parent := some parent
      children := []
      symlink := []
      filesystem := dir.filesystem
      mountData := dir.mountData
      file := none
      dev := none }
  let k := { k with nodes := k.nodes.alloc n node }
  k.setNode parent { k.node parent with children := n :: (k.node parent).children }

/-- `create_node`, if it gets memory for the node and for its name. It tests neither, and goes on with
a null pointer, which is not followed here: `Full.createNode` says what becomes of the tree. -/
def createNode (k : Kernel) (name : List Char) (directory : Bool) (parent : Nat) :
    Option (Nat × Kernel) :=
  match k.kmalloc env k.nodes.used with
  | (none, _) => none
  | (some n, k) =>
    if env.texts k.allocs then some (n, k.linkNew n name directory parent) else none

theorem createNode_eq {k k' : Kernel} {name : List Char} {d : Bool} {dir n : Nat}
    (h : k.createNode env name d dir = some (n, k')) : n ∉ k.nodes.used ∧
      k' = { k with allocs := k.allocs + 1 }.linkNew n name d dir := by
  unfold createNode at h
  split at h
  · cases h
  · rename_i m k1 hk
    obtain ⟨rfl, hm⟩ := kmalloc_eq hk
    obtain ⟨-, h⟩ := Option.ite_none_right_eq_some.mp h
    cases h
    exact ⟨hm n rfl, rfl⟩

/-- A search by path, as `find` passes it to the functions it calls. -/
abbrev Finder := Kernel → List Char → Option (Option Nat × Kernel)

def createDev (find : Finder) (k : Kernel) (name : List Char) (dev : DevOps) :
    Option (Option Nat × Kernel) := do
  let (dir, k) ← find k "/dev".toList
  match dir with
  | none => some (none, k)
  | some dir =>
    let (n, k) ← k.createNode env name false dir
    some (some n, k.setNode n { k.node n with dev := some dev, type := .dev })

def findDevice (k : Kernel) (name : List Char) : Option (Option DevOps) :=
  (k.devices.find? fun d => d.1 = name).map Prod.snd

def registerDevice (find : Finder) (k : Kernel) (name : List Char) (dev : DevOps) :
    Option Kernel :=
  match k.kmalloc env ∅ with
  | (none, k) => some k
  | (some _, k) => do
    let (_, k) ← { k with devices := (name, some dev) :: k.devices }.createDev env find name dev
    some k

/-- A name of the form `base` and then a digit. -/
def isNumbered (base : String) (name : List Char) : Bool :=
  name.take base.length = base.toList && (name[base.length]?).any Char.isDigit

def makeDevice (find : Finder) (k : Kernel) (name : List Char) (ops : Option DevOps) :
    Option (Bool × Kernel) :=
  match k.kmalloc env ∅ with
  | (none, k) => some (false, k)
  | (some _, k) =>
    let k := { k with devices := (name, ops) :: k.devices }
    match ops with
    | none => some (true, k)
    | some dev => do
      let (_, k) ← k.createDev env find name dev
      some (true, k)

/-- `find_device` of devfs: whether there is such a device in the end. Without any frame buffer
device the search for one never ends. -/
def openDevice (find : Finder) (k : Kernel) (name : List Char) : Option (Bool × Kernel) :=
  if (k.findDevice name).isSome then some (true, k)
  else if isNumbered "tty" name then
    k.makeDevice env find name ((k.findDevice "tty".toList).getD none)
  else if isNumbered "fb" name then do
    let base ← (k.findDevice "fb".toList).orElse fun _ => k.findDevice "fb0".toList
    k.makeDevice env find name base
  else some (false, k)

def fsOpen (find : Finder) (k : Kernel) (fs : FileSystem) (data : Nat) (path : List Char) :
    Option (Option Nat × Kernel) := do
  let (found, k) ←
    if fs = .devfs then k.openDevice env find path else some (env.opens k.handles fs data path, k)
  let result := if found then some k.handles else none
  some (result, { k with handles := k.handles + 1, fsLog := .opened fs data result :: k.fsLog })

def fsClose (k : Kernel) (fs : FileSystem) (handle : Nat) : Kernel :=
  { k with fsLog := .closed fs handle :: k.fsLog }

/-- A part that is not among the children of a mount point is asked of its file system. -/
def findMounted (find : Finder) (k : Kernel) (n : Nat) (part : List Char)
    (rest : Option (List Char)) : Option (Option Nat × Kernel) :=
  match (k.node n).type, (k.node n).filesystem with
  | .mount, some fs =>
    if fs.has .open then do
      -- after the last part the path is read past its terminator
      let path := relpath part (rest.getD env.beyond)
      if path.length < 256 then
        let (handle, k) ← k.fsOpen env find fs (k.node n).mountData path
        match handle with
        | some h => some (some n, k.fsClose fs h)
        | none => some (none, k)
      else none
    else some (none, k)
  | _, _ => some (none, k)

/-- The loop over symbolic links; `depth` counts down. -/
def followLinks (find : Finder) : Nat → Nat → Kernel → Option (Option Nat × Kernel)
  | depth, n, k =>
    if (k.node n).type = .symlink then
      match depth with
      | 0 => some (none, k)
      | depth + 1 => do
        let target ← k.linkTarget env n
        let (next, k) ← find k target
        match next with
        | none => some (none, k)
        | some n => followLinks find depth n k
    else some (some n, k)

def walkParts (find : Finder) :
    List (List Char × Option (List Char)) → Nat → Kernel → Option (Option Nat × Kernel)
  | [], n, k => some (some n, k)
  | (part, rest) :: ps, n, k =>
    let part := cut part
    if part = [] ∨ part = ['.'] then walkParts find ps n k
    else if part = ['.', '.'] then walkParts find ps ((k.node n).parent.getD n) k
    else
      match k.findIn n part with
      | none => k.findMounted env find n part rest
      | some c => do
        let (next, k) ← followLinks env find 8 c k
        match next with
        | none => some (none, k)
        | some c => walkParts find ps c k

/-- `find` to a given depth of nested calls. The kernel's own current directory, which the empty
path stands for, is the root: nothing ever sets it. -/
def findTo : Nat → Finder
  | 0, _, _ => none
  | n + 1, k, path =>
    match path with
    | [] => some (some k.root, k)
    | '/' :: rest => walkParts env (findTo n) (parts (rest.length + 1) rest) k.root k
    | _ => walkParts env (findTo n) (parts (path.length + 1) path) k.getProcessCwd k

def find : Finder := findTo env env.fuel

def startDir (k : Kernel) (path : List Char) : Nat :=
  if path.head? = some '/' then k.root else k.getProcessCwd

def createFileIn : List (List Char) → Nat → Kernel → Option (Option Nat × Kernel)
  | [], _, k => some (none, k)
  | [part], dir, k =>
    match k.findIn dir part with
    | some n => some (some n, k)
    | none => do
      let (n, k) ← k.createNode env part false dir
      some (some n, k)
  | part :: next :: ps, dir, k =>
    match k.findIn dir part with
    | some n => if (k.node n).directory then createFileIn (next :: ps) n k else some (none, k)
    | none => do
      let (n, k) ← k.createNode env part true dir
      createFileIn (next :: ps) n k

def createFilePath (k : Kernel) (path : List Char) : Option (Option Nat × Kernel) :=
  if path = [] then some (none, k)
  else createFileIn env (components path) (k.startDir path) k

def createDirIn : List (List Char) → Nat → Kernel → Option (Nat × Kernel)
  | [], dir, k => some (dir, k)
  | part :: ps, dir, k =>
    match k.findIn dir part with
    | some n => createDirIn ps n k
    | none => do
      let (n, k) ← k.createNode env part true dir
      createDirIn ps n k

def createDirPath (k : Kernel) (path : List Char) : Option (Option Nat × Kernel) :=
  if path = [] then some (none, k)
  else do
    let (n, k) ← createDirIn env (components path) (k.startDir path) k
    some (some n, k)

def createSymlinkPath (k : Kernel) (path target : List Char) : Option (Option Nat × Kernel) := do
  let (node, k) ← k.createFilePath env path
  match node with
  | none => some (none, k)
  | some n =>
    if env.texts k.allocs then
      some (some n, k.setNode n { k.node n with type := .symlink, symlink := target })
    else none

/-- `kmalloc` of `len` bytes of file data. Block 0 is memory outside the heap. -/
def allocBlock (k : Kernel) (len : Nat) : Option Nat × Kernel :=
  let garbage := env.garbage k.allocs
  match k.kmalloc env (insert 0 k.blocks.used) with
  | (none, k) => (none, k)
  | (some b, k) => (some b, { k with
      blocks := k.blocks.alloc b garbage
      blockLen := Function.update k.blockLen b len })

/-- `kfree` of file data. A pointer into the middle of a block frees nothing here: what it does to
the heap is not modelled. -/
def kfreeData (k : Kernel) (p : Ptr) : Kernel :=
  { k with
    freed := p :: k.freed
    blocks := if p.off = 0 then k.blocks.free p.block else k.blocks }

def freeFile (k : Kernel) (f : Nat) : Kernel :=
  let k := match (k.files.cell f).privateData with
    | some p => k.kfreeData p
    | none => k
  { k with files := k.files.free f }

/-- `kfree` comes back with the data of a file, if it has any. -/
def freesData (k : Kernel) (f : Nat) : Bool :=
  (k.files.cell f).privateData.all fun p => env.frees (.data p)

def freesContent (k : Kernel) (n : Nat) : Bool := (k.node n).file.all (k.freesData env)

def remove (k : Kernel) (path : List Char) : Option (Bool × Kernel) := do
  let (node, k) ← k.find env path
  match node with
  | none => some (false, k)
  | some n =>
    if n = k.root ∨ ((k.node n).directory ∧ (k.node n).children ≠ []) then some (false, k)
    else do
      let parent ← (k.node n).parent
      let back := ((k.node n).directory ∨ k.freesContent env n) ∧ env.frees (.node n)
      let k := k.setNode parent { k.node parent with children := (k.node parent).children.erase n }
      let k := match (k.node n).directory, (k.node n).file with
        | false, some f => k.freeFile f
        | _, _ => k
      if back then some (true, { k with nodes := k.nodes.free n }) else none

def createNodes (k : Kernel) (dir : Nat) : List (String × Bool) → Option Kernel
  | [] => some k
  | (name, directory) :: rest => do
    let (_, k) ← k.createNode env name.toList directory dir
    k.createNodes dir rest

def procEntries : List (String × Bool) :=
  [("version", false), ("uptime", false), ("meminfo", false), ("cpuinfo", false),
    ("cmdline", false), ("stat", false), ("mounts", false), ("devices", false),
    ("filesystems", false), ("interrupts", false), ("loadavg", false), ("swaps", false),
    ("diskstats", false), ("partitions", false), ("self", true)]

def procfsInit (k : Kernel) : Option (Bool × Kernel) := do
  let (dir, k) ← k.find env "/proc".toList
  match dir with
  | none => some (true, k)
  | some dir =>
    let k ← k.createNodes env dir procEntries
    some (true, k)

def sysfsNodes (k : Kernel) (sys : Nat) : Option (Bool × Kernel) := do
  let (kernel, k) ← k.createNode env "kernel".toList true sys
  let (firmware, k) ← k.createNode env "firmware".toList true sys
  let (memory, k) ← k.createNode env "memory".toList true sys
  let (cpu, k) ← k.createNode env "cpu".toList true sys
  let k ← k.createNodes env kernel
    [("hostname", false), ("osrelease", false), ("ostype", false), ("arch", false),
      ("name", false)]
  let k ← k.createNodes env firmware [("bootloader", false), ("framebuffer", false)]
  let k ← k.createNodes env memory [("info", false)]
  let k ← k.createNodes env cpu [("arch", false)]
  some (true, k)

def findOrCreateDir (k : Kernel) (path : List Char) : Option (Option Nat × Kernel) := do
  let (dir, k) ← k.find env path
  match dir with
  | some dir => some (some dir, k)
  | none => k.createDirPath env path

def sysfsInit (k : Kernel) : Option (Bool × Kernel) := do
  let (dir, k) ← k.findOrCreateDir env "/sys".toList
  match dir with
  | none => some (false, k)
  | some sys => k.sysfsNodes env sys

def kmsgOps : DevOps := ⟨false, true, false⟩

def fsInit (k : Kernel) : FileSystem → Option (Bool × Kernel)
  | .procfs => k.procfsInit env
  | .sysfs => k.sysfsInit env
  | .devfs => do
    let k ← k.registerDevice env (find env) "kmsg".toList kmsgOps
    some (true, k)
  | .fat32 => some (true, k)
  | .isofs => some (true, k)
  | .tarfs => some (true, k)
  | .tmpfs => some (true, k)

/-- The part of `fs::mount` after the node is known. Without memory for the copy of its path a mount
has a null pointer there, which is not followed here. -/
def mountOn (k : Kernel) (n : Nat) (path : List Char) (fs : Option FileSystem) (data : Nat) :
    Option (Bool × Kernel) :=
  let k := k.setNode n { k.node n with type := .mount, filesystem := fs, mountData := data }
  match k.kmalloc env k.mounts.used with
  | (none, k) => some (false, k)
  | (some m, k) =>
    if env.texts k.allocs then
      let k := { k with
        mounts := k.mounts.alloc m ⟨path, fs, data⟩
        mountTable := m :: k.mountTable }
      match fs with
      | some fs => k.fsInit env fs
      | none => some (true, k)
    else none

def mount (k : Kernel) (path : List Char) (fs : Option FileSystem) (data : Nat) :
    Option (Bool × Kernel) :=
  if path = [] then some (false, k)
  else do
    let (node, k) ← k.findOrCreateDir env path
    match node with
    | none => some (false, k)
    | some n => k.mountOn env n path fs data

def mountVolume (k : Kernel) (path : List Char) (fs : FileSystem) : Option (Bool × Kernel) :=
  match k.kmalloc env ∅ with
  | (none, k) => some (false, k)
  | (some v, k) =>
    { k with volumes := (fs, v + 1) :: k.volumes }.mount env path (some fs) (v + 1)

def umount (k : Kernel) (path : List Char) : Option (Bool × Kernel) :=
  match k.mountTable.find? fun m => (k.mounts.cell m).path = path with
  | none => some (false, k)
  | some m => do
    let (node, k) ← { k with mountTable := k.mountTable.erase m }.find env path
    let k := match node with
      | some n =>
        if (k.node n).type = NodeType.mount then
          k.setNode n { k.node n with type := .dir, filesystem := none, mountData := 0 }
        else k
      | none => k
    if env.frees (.mount m) then some (true, { k with mounts := k.mounts.free m }) else none

/-- The mount with the longest path that covers `path`; of several the newest. -/
def findMount (k : Kernel) (path : List Char) : Option Nat :=
  (k.mountTable.foldl (fun best m =>
    let prefixed := (k.mounts.cell m).path
    if prefixed.isPrefixOf path &&
        ((path.drop prefixed.length).head? = some '/' || path.length = prefixed.length) then
      if best.2 < prefixed.length then (some m, prefixed.length) else best
    else best) (none, 0)).1

/-- The mount that is found is in the table and covers the path. -/
theorem findMount_some {k : Kernel} {path : List Char} {m : Nat}
    (h : k.findMount path = some m) :
    m ∈ k.mountTable ∧ ((k.mounts.cell m).path.isPrefixOf path &&
      ((path.drop (k.mounts.cell m).path.length).head? = some '/' ||
        path.length = (k.mounts.cell m).path.length)) = true := by
  have hfold : ∀ (ms : List Nat) (best : Option Nat × Nat), (ms.foldl (fun best m =>
      let prefixed := (k.mounts.cell m).path
      if prefixed.isPrefixOf path &&
          ((path.drop prefixed.length).head? = some '/' || path.length = prefixed.length) then
        if best.2 < prefixed.length then (some m, prefixed.length) else best
      else best) best).1 = some m → best.1 = some m ∨ m ∈ ms ∧
        ((k.mounts.cell m).path.isPrefixOf path &&
          ((path.drop (k.mounts.cell m).path.length).head? = some '/' ||
            path.length = (k.mounts.cell m).path.length)) = true := by
    intro ms
    induction ms with
    | nil => exact fun best hb => Or.inl hb
    | cons x ms ih =>
      intro best hb
      rw [List.foldl_cons] at hb
      cases ih _ hb with
      | inr hm => exact Or.inr ⟨List.mem_cons_of_mem x hm.1, hm.2⟩
      | inl hx =>
        dsimp only at hx
        split at hx
        · rename_i hcond
          split at hx
          · rw [← Option.some.inj hx]
            exact Or.inr ⟨List.mem_cons_self, hcond⟩
          · exact Or.inl hx
        · exact Or.inl hx
  cases hfold k.mountTable (none, 0) h with
  | inl hn => cases hn
  | inr hm => exact hm

end Kernel

end LosTacOS.Os
