import LosTacOS.Lib.ByteMemory

/-! A FAT32 volume in memory: the table of clusters, directories, and files that are read and
written through handles. -/
namespace LosTacOS.Fat

open ByteMemory

abbrev word : Nat := 2^32

structure Bpb where
  bytesPerSector : Nat
  sectorsPerCluster : Nat
  reservedSectorCount : Nat
  numFats : Nat
  totalSectors : Nat
  fatSize : Nat
  rootCluster : Nat

structure Volume where
  bpb : Bpb
  diskSize : Nat
  image : Mem

/-- An open file. `dirEntry` points into the image. -/
structure Handle where
  firstCluster : Nat
  currCluster : Nat
  fileSize : Nat
  offset : Nat
  isDir : Bool
  dirEntry : Nat

abbrev endOfChain : Nat := 0x0FFFFFF8

abbrev endMark : Nat := 0x0FFFFFFF

abbrev entrySize : Nat := 32

namespace Volume

variable (v : Volume)

def bytesPerCluster : Nat := v.bpb.bytesPerSector * v.bpb.sectorsPerCluster

def fatStart : Nat := v.bpb.reservedSectorCount

def dataStart : Nat := (v.bpb.reservedSectorCount + v.bpb.numFats * v.bpb.fatSize) % word

def sectorPtr (sector : Nat) : Option Nat :=
  let offset := sector * v.bpb.bytesPerSector
  if v.diskSize ≤ offset then none else some offset

def clusterPtr (cluster : Nat) : Option Nat :=
  if cluster < 2 then none
  else v.sectorPtr ((v.dataStart + (cluster - 2) * v.bpb.sectorsPerCluster) % word)

def readFat (cluster : Nat) : Nat :=
  let fatOffset := cluster * 4 % word
  let fatSector := (v.fatStart + fatOffset / v.bpb.bytesPerSector) % word
  match v.sectorPtr fatSector with
  | none => endMark
  | some sec => loadLE v.image (sec + fatOffset % v.bpb.bytesPerSector) 4 % 2^28

/-- The body of the loop of `write_fat`: the copy `f` of the table. -/
def writeFatCopy (cluster value f : Nat) : Volume :=
  let fatOffset := cluster * 4 % word
  let fatSector := (v.fatStart + f * v.bpb.fatSize + fatOffset / v.bpb.bytesPerSector) % word
  match v.sectorPtr fatSector with
  | none => v
  | some sec =>
    let a := sec + fatOffset % v.bpb.bytesPerSector
    let existing := loadLE v.image a 4
    { v with image := storeLE v.image a 4 (existing / 2^28 * 2^28 + value % 2^28) }

def writeFat (cluster value : Nat) : Volume :=
  (List.range v.bpb.numFats).foldl (fun v f => v.writeFatCopy cluster value f) v

def totalClusters : Nat :=
  (v.bpb.totalSectors + word - v.dataStart) % word / v.bpb.sectorsPerCluster

def zeroCluster (cluster : Nat) : Volume :=
  match v.clusterPtr cluster with
  | none => v
  | some p => { v with image := storeBytes v.image p (List.replicate v.bytesPerCluster 0) }

def freeCluster : Option Nat :=
  (List.range' 2 (v.totalClusters - 2)).find? fun c => v.readFat c = 0

def allocCluster : Option (Nat × Volume) :=
  v.freeCluster.map fun c => (c, (v.writeFat c endMark).zeroCluster c)

def nameAt (e : Nat) : List UInt8 := loadBytes v.image e 11
def attrAt (e : Nat) : UInt8 := v.image (e + 11)
def firstAt (e : Nat) : Nat := loadLE v.image (e + 20) 2 * 2^16 + loadLE v.image (e + 26) 2
def sizeAt (e : Nat) : Nat := loadLE v.image (e + 28) 4

def setFirst (e cluster : Nat) : Volume :=
  { v with image := storeLE (storeLE v.image (e + 26) 2 cluster) (e + 20) 2 (cluster / 2^16) }

def setSize (e size : Nat) : Volume := { v with image := storeLE v.image (e + 28) 4 size }

def isDirectory (attr : UInt8) : Bool := attr &&& 0x10 ≠ 0

end Volume

def upper (c : UInt8) : UInt8 := if 97 ≤ c ∧ c ≤ 122 then c - 32 else c

/-- Cut to `n` bytes and filled up with blanks. -/
def padded (n : Nat) (s : List UInt8) : List UInt8 :=
  (s.take n).map upper ++ List.replicate (n - s.length) 32

/-- `filename_to_short`: what stands before the first dot, and what stands behind it. -/
def filenameToShort (name : List UInt8) : List UInt8 :=
  padded 8 (name.takeWhile (· ≠ 46)) ++ padded 3 ((name.dropWhile (· ≠ 46)).drop 1)

inductive Scan where
  | stop
  | found (entry : Nat)
  | next

namespace Volume

variable (v : Volume)

def slots (p : Nat) : List Nat := (List.range (v.bytesPerCluster / entrySize)).map (p + entrySize * ·)

def scanSlots (target : List UInt8) : List Nat → Scan
  | [] => .next
  | e :: es =>
    if v.image e = 0 then .stop
    else if v.image e = 0xE5 then scanSlots target es
    else if v.attrAt e = 0x0F then scanSlots target es
    else if v.nameAt e = target then .found e
    else scanSlots target es

/-- The loop of `find_entry_in_dir`, for a chain of at most as many clusters as the number says. -/
def findInChain (target : List UInt8) : Nat → Nat → Option Nat
  | 0, _ => none
  | fuel+1, curr =>
    if curr < 2 ∨ endOfChain ≤ curr then none
    else
      match v.clusterPtr curr with
      | none => none
      | some p =>
        match v.scanSlots target (v.slots p) with
        | .stop => none
        | .found e => some e
        | .next => findInChain target fuel (v.readFat curr)

def findEntryInDir (dirCluster : Nat) (name : List UInt8) : Option Nat :=
  v.findInChain (filenameToShort name) v.totalClusters dirCluster

def component (path : List UInt8) : List UInt8 := (path.takeWhile (· ≠ 47)).take 255

def afterComponent (path : List UInt8) : List UInt8 := path.dropWhile (· ≠ 47)

def skipSlashes (path : List UInt8) : List UInt8 := path.dropWhile (· = 47)

/-- The loop of `find_path`, once for each component; `find` searches one directory. -/
def findFrom (find : Nat → List UInt8 → Option Nat) :
    Nat → Nat → List UInt8 → Option Nat → Option Nat
  | 0, _, _, entry => entry
  | n+1, curr, path, entry =>
    if path = [] then entry
    else
      match find curr (component path) with
      | none => none
      | some e =>
        if afterComponent path = [] then some e
        else if isDirectory (v.attrAt e) then
          findFrom find n (v.firstAt e) (skipSlashes (afterComponent path)) (some e)
        else none

def findPath (path : List UInt8) : Option Nat :=
  if path = [] ∨ path = [47] then none
  else v.findFrom v.findEntryInDir path.length v.bpb.rootCluster (skipSlashes path) none

def openEntry (e : Nat) : Handle where
  firstCluster := v.firstAt e
  currCluster := v.firstAt e
  fileSize := v.sizeAt e
  offset := 0
  isDir := isDirectory (v.attrAt e)
  dirEntry := e

def fat32Open (path : List UInt8) : Option Handle := (v.findPath path).map v.openEntry

def chunk (h : Handle) (left : Nat) : Nat :=
  min (v.bytesPerCluster - h.offset % v.bytesPerCluster) left

/-- The loop of `fat32_read`; every round but the last reads a byte at least. -/
def readLoop : Nat → Handle → Nat → List UInt8 → List UInt8 × Handle
  | 0, h, _, read => (read, h)
  | n+1, h, left, read =>
    if left = 0 then (read, h)
    else
      match v.clusterPtr h.currCluster with
      | none => (read, h)
      | some p =>
        let k := v.chunk h left
        let read := read ++ loadBytes v.image (p + h.offset % v.bytesPerCluster) k
        let h := { h with offset := h.offset + k }
        if h.offset % v.bytesPerCluster = 0 then
          if endOfChain ≤ v.readFat h.currCluster then (read, h)
          else readLoop n { h with currCluster := v.readFat h.currCluster } (left - k) read
        else readLoop n h (left - k) read

/-- The bytes that `fat32_read` puts into its buffer; `none` for a directory. -/
def fat32Read (h : Handle) (size : Nat) : Option (List UInt8) × Handle :=
  if h.isDir then (none, h)
  else if h.fileSize ≤ h.offset then (some [], h)
  else
    let toRead := min size (h.fileSize - h.offset)
    let r := v.readLoop toRead h toRead []
    (some r.1, r.2)

def grow (v : Volume) (h : Handle) : Volume × Handle :=
  if h.fileSize < h.offset then
    (v.setSize h.dirEntry (h.offset % word), { h with fileSize := h.offset % word })
  else (v, h)

/-- The bytes go to the handle's cluster, which lies at `p`, and the handle moves behind them. -/
def writeChunk (h : Handle) (p : Nat) (bs : List UInt8) : Volume × Handle :=
  grow { v with image := storeBytes v.image (p + h.offset % v.bytesPerCluster) bs }
    { h with offset := h.offset + bs.length }

/-- At the end of a cluster a write goes on in the next one, or in a new one that is linked behind
the last. -/
def nextCluster (h : Handle) : Option (Volume × Handle) :=
  if endOfChain ≤ v.readFat h.currCluster then
    v.allocCluster.map fun r => (r.2.writeFat h.currCluster r.1, { h with currCluster := r.1 })
  else some (v, { h with currCluster := v.readFat h.currCluster })

/-- The loop of `fat32_write`: how many bytes were written, and the state behind it. -/
def writeLoop : Nat → Volume → Handle → List UInt8 → Nat → Nat × Volume × Handle
  | 0, v, h, _, written => (written, v, h)
  | n+1, v, h, buf, written =>
    if buf = [] then (written, v, h)
    else
      match v.clusterPtr h.currCluster with
      | none => (written, v, h)
      | some p =>
        let k := v.chunk h buf.length
        let r := v.writeChunk h p (buf.take k)
        if r.2.offset % v.bytesPerCluster = 0 ∧ buf.drop k ≠ [] then
          match r.1.nextCluster r.2 with
          | none => (written + k, r)
          | some s => writeLoop n s.1 s.2 (buf.drop k) (written + k)
        else writeLoop n r.1 r.2 (buf.drop k) (written + k)

/-- The result of `fat32_write` is an `int`. -/
def fat32Write (h : Handle) (buf : List UInt8) : Int × Volume × Handle :=
  if h.isDir then (-1, v, h)
  else if h.firstCluster = 0 then
    match v.allocCluster with
    | none => (-1, v, h)
    | some (c, v) =>
      let r := writeLoop buf.length (v.setFirst h.dirEntry c)
        { h with firstCluster := c, currCluster := c } buf 0
      (Int.bmod r.1 word, r.2)
  else
    let r := writeLoop buf.length v h buf 0
    (Int.bmod r.1 word, r.2)

end Volume

end LosTacOS.Fat
