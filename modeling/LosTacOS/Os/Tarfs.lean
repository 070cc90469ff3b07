import LosTacOS.Os.Syscall

/-! The root archive. Its headers are read from memory as the loader of the tree reads them. -/
namespace LosTacOS.Os

section header

def field (image : Nat → UInt8) (start len : Nat) : List Char :=
  ((List.range len).map fun i => Char.ofNat (image (start + i)).toNat).takeWhile (· ≠ '\x00')

def emptyBlock (image : Nat → UInt8) (hdr : Nat) : Bool :=
  (List.range 512).all fun i => image (hdr + i) = 0

/-- `octal_to_int`; characters are signed, the value is a 64-bit number. -/
def octalToInt (str : List UInt8) : UInt64 :=
  (str.takeWhile fun c => c ≠ 0 ∧ c ≠ 32).foldl
    (fun value c => (value <<< 3) + UInt64.ofInt (c.toInt8.toInt - 48)) 0

def headerSize (image : Nat → UInt8) (hdr : Nat) : UInt64 :=
  octalToInt ((List.range 12).map fun i => image (hdr + 124 + i))

def normalize (path : List Char) : List Char :=
  match path with
  | '.' :: '/' :: rest => rest
  | _ => path

def dropSlash (path : List Char) : List Char :=
  if path.getLast? = some '/' then path.dropLast else path

/-- The path of an entry: prefix and name, without a leading `./` and one trailing slash. -/
def headerPath (image : Nat → UInt8) (hdr : Nat) : List Char :=
  let name := field image hdr 100
  let path :=
    if image (hdr + 345) = 0 then name else field image (hdr + 345) 155 ++ '/' :: name
  dropSlash (normalize path)

def entryLength (image : Nat → UInt8) (hdr : Nat) : Nat :=
  (512 + (headerSize image hdr + 511) / 512 * 512).toNat

end header

namespace Kernel

variable (env : Env)

def attachFile (k : Kernel) (n : Nat) (data : Ptr) (size : Nat) : Option Kernel :=
  match k.kmalloc env k.files.used with
  | (none, _) => none
  | (some f, k) =>
    let k := { k with files := k.files.alloc f ⟨size, 0, some data⟩ }
    some (k.setNode n { k.node n with file := some f })

def mountEntry (k : Kernel) (image : Nat → UInt8) (block hdr : Nat) : Option Kernel :=
  let path := headerPath image hdr
  let typeflag := image (hdr + 156)
  if typeflag = 50 then do
    let (_, k) ← k.createSymlinkPath env path (field image (hdr + 157) 100)
    some k
  else if path = [] then some k
  else if typeflag = 53 then do
    let (_, k) ← k.createDirPath env path
    some k
  else if typeflag = 48 ∨ typeflag = 0 then do
    let (node, k) ← k.createFilePath env path
    match node with
    | some n => k.attachFile env n ⟨block, hdr + 512⟩ (headerSize image hdr).toNat
    | none => some k
  else some k

/-- The loop of `mount_vfs`. Each round goes on by at least one byte, so `size` rounds are enough
unless a size near 2^64 keeps the loop at its place. -/
def mountVfs (image : Nat → UInt8) (size block : Nat) : Nat → Nat → Kernel → Option Kernel
  | 0, hdr, k => if hdr < size then none else some k
  | n + 1, hdr, k =>
    if hdr < size then
      if emptyBlock image hdr then some k
      else do
        let k ← k.mountEntry env image block hdr
        mountVfs image size block n (hdr + entryLength image hdr) k
    else some k

/-- `tarfs::mount` and `mount_vfs`. A compressed archive is unpacked into the heap; `unpacked` is
what `gzip::decompress` makes of it. -/
def mountRootfs (k : Kernel) (archive : Nat → UInt8) (size : Nat)
    (unpacked : Option (List UInt8)) : Option Kernel :=
  let plain := { k with blocks := k.blocks.set 0 archive }
  match unpacked with
  | none => mountVfs env archive size 0 (size + 1) 0 plain
  | some bytes =>
    match k.allocBlock env (4 * 1024 * 1024) with
    | (none, _) => mountVfs env archive size 0 (size + 1) 0 plain
    | (some b, k) =>
      let image := fun i => bytes.getD i 0
      mountVfs env image bytes.length b (bytes.length + 1) 0
        { k with blocks := k.blocks.set b image }

end Kernel

end LosTacOS.Os
