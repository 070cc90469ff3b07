import LosTacOS.Lib.Loop

/-! The decompressor of `lib/gzip.cpp`. Accesses outside an array are recorded and go on: a byte
behind the source is what the memory holds there, and the tables of a block that wrote outside of an
array are any tables. -/
namespace LosTacOS.Gzip

/-- The bytes from a place of the memory on, and how many of them are passed. An object takes up
less than half of the addresses. -/
structure Source where
  bytes : Nat → UInt8
  size : Nat
  small : size < 2 ^ 63

def isGzip (src : Source) : Bool := !(src.size < 10) && src.bytes 0 = 0x1f && src.bytes 1 = 0x8b

abbrev word : Nat := 2 ^ 64

/-- What `State` of the source holds that stays the same. `given` is how many bytes from `in` on are
part of what was passed. -/
structure Input where
  input : Nat → UInt8
  inLen : Nat
  given : Nat
  outLen : Nat

/-- What `State` of the source holds that changes. `out` is what has been written of `out`, and
`bitbuf` never has more than 20 bits. `overread` and `stray` record accesses outside the source and
outside the other arrays. -/
structure State where
  inPos : Nat
  bitbuf : Nat
  bitcnt : Nat
  out : List UInt8
  overread : Bool
  stray : Bool

namespace State

/-- An access to an element of an array of `n`. -/
def touch (s : State) (i : Int) (n : Nat) : State :=
  { s with stray := s.stray || !(0 ≤ i && i < n) }

def peek (s : State) (src : Input) (i : Nat) : State :=
  { s with overread := s.overread || src.given ≤ i }

def put (s : State) (src : Input) (b : UInt8) : State :=
  { s.touch s.out.length src.outLen with out := s.out ++ [b] }

end State

section bits

variable (src : Input)

/-- A round of the loop of `get_bits`. Behind the end the bits are zeros. -/
def fetch (s : State) : State :=
  if s.inPos < src.inLen then
    { s.peek src s.inPos with
      bitbuf := s.bitbuf ||| (src.input s.inPos).toNat <<< s.bitcnt
      inPos := s.inPos + 1
      bitcnt := s.bitcnt + 8 }
  else { s with bitcnt := s.bitcnt + 8 }

/-- The loop of `get_bits`, for which two rounds are enough. -/
def fill (n : Nat) : Nat → State → State
  | 0, s => s
  | r + 1, s => if s.bitcnt < n then fill n r (fetch src s) else s

def getBits (n : Nat) (s : State) : Nat × State :=
  let s := fill src n 2 s
  (s.bitbuf &&& (1 <<< n - 1), { s with bitbuf := s.bitbuf >>> n, bitcnt := s.bitcnt - n })

end bits

section huffman

structure Huffman where
  counts : List Int
  symbols : List Int

def tally (lengths : List UInt8) : List Int :=
  lengths.foldl (fun counts l =>
    if l ≠ 0 then counts.set l.toNat (counts.getD l.toNat 0 + 1) else counts) (List.replicate 16 0)

/-- The loop that fills `offsets`; its first element is not used. -/
def offset (counts : List Int) : Nat → Int
  | 0 => 0
  | 1 => 0
  | i + 2 => offset counts (i + 1) + counts.getD (i + 1) 0

structure Placing where
  offsets : List Int
  symbols : List Int
  inRange : Bool

def Placing.place (p : Placing) (l : UInt8) (i : Nat) : Placing :=
  if l ≠ 0 then
    let spot := p.offsets.getD l.toNat 0
    { offsets := p.offsets.set l.toNat (spot + 1)
      symbols := p.symbols.set spot.toNat i
      inRange := p.inRange && l.toNat < 16 && 0 ≤ spot && spot < 288 }
  else p

/-- `build_huffman`, and whether all its accesses are in range. Elements of `symbols` that are not
written are not read either. -/
def buildHuffman (lengths : List UInt8) : Huffman × Bool :=
  let counts := tally lengths
  let p := lengths.zipIdx.foldl (fun (p : Placing) x => p.place x.1 x.2)
    ⟨(List.range 16).map (offset counts), List.replicate 288 0, true⟩
  (⟨counts, p.symbols⟩, p.inRange)

def decodeFrom (src : Input) (h : Huffman) : Nat → Nat → Int → Int → Int → State → Int × State
  | 0, _, _, _, _, s => (-1, s)
  | rest + 1, len, code, first, index, s =>
    let (bit, s) := getBits src 1 s
    let code := 2 * code + bit
    let count := h.counts.getD len 0
    if code - first < count then
      let i := index + (code - first)
      (h.symbols.getD i.toNat 0, s.touch i 288)
    else decodeFrom src h rest (len + 1) code (2 * (first + count)) (index + count) s

def decodeSymbol (src : Input) (h : Huffman) (s : State) : Int × State :=
  decodeFrom src h 15 1 0 0 0 s

end huffman

section inflate

def lens : List Nat :=
  [3, 4, 5, 6, 7, 8, 9, 10, 11, 13, 15, 17, 19, 23, 27, 31,
    35, 43, 51, 59, 67, 83, 99, 115, 131, 163, 195, 227, 258]

def lext : List Nat :=
  [0, 0, 0, 0, 0, 0, 0, 0, 1, 1, 1, 1, 2, 2, 2, 2,
    3, 3, 3, 3, 4, 4, 4, 4, 5, 5, 5, 5, 0]

def dists : List Nat :=
  [1, 2, 3, 4, 5, 7, 9, 13, 17, 25, 33, 49, 65, 97, 129, 193,
    257, 385, 513, 769, 1025, 1537, 2049, 3073, 4097, 6145, 8193, 12289, 16385, 24577]

def dext : List Nat :=
  [0, 0, 0, 0, 1, 1, 2, 2, 3, 3, 4, 4, 5, 5, 6, 6,
    7, 7, 8, 8, 9, 9, 10, 10, 11, 11, 12, 12, 13, 13]

variable (src : Input)

def copyMatch (dist : Nat) : Nat → State → Bool × State
  | 0, s => (true, s)
  | len + 1, s =>
    if s.out.length ≥ src.outLen then (false, s)
    else
      let i := s.out.length - dist
      copyMatch dist len ((s.touch i src.outLen).put src (s.out.getD i 0))

def inflateTurn (lh dh : Huffman) (s : State) : Turn State (Bool × State) :=
  let (sym, s) := decodeSymbol src lh s
  if sym < 0 ∨ sym > 285 then .done (false, s)
  else if sym < 256 then
    if s.out.length ≥ src.outLen then .done (false, s)
    else .again (s.put src (UInt8.ofInt sym))
  else if sym = 256 then .done (true, s)
  else
    let i := (sym - 257).toNat
    let s := (s.touch i lens.length).touch i lext.length
    let (extra, s) := getBits src (lext.getD i 0) s
    let len := lens.getD i 0 + extra
    let (dsym, s) := decodeSymbol src dh s
    if dsym < 0 ∨ dsym > 29 then .done (false, s)
    else
      let j := dsym.toNat
      let s := (s.touch j dists.length).touch j dext.length
      let (extra, s) := getBits src (dext.getD j 0) s
      let dist := dists.getD j 0 + extra
      if dist > s.out.length then .done (false, s)
      else
        match copyMatch src dist len s with
        | (true, s) => .again s
        | (false, s) => .done (false, s)

end inflate

section blocks

variable (src : Input)

def copyStored : Nat → State → State
  | 0, s => s
  | len + 1, s =>
    if s.out.length < src.outLen then
      copyStored len
        { (s.peek src s.inPos).put src (src.input s.inPos) with inPos := s.inPos + 1 }
    else s

def storedBlock (s : State) : Bool × State :=
  let s := { s with bitbuf := 0, bitcnt := 0 }
  if (s.inPos + 4) % word > src.inLen then (false, s)
  else
    let len := (src.input s.inPos).toNat ||| (src.input (s.inPos + 1)).toNat <<< 8
    let s := (s.peek src s.inPos).peek src (s.inPos + 1)
    let s := { s with inPos := (s.inPos + 4) % word }
    if (s.inPos + len) % word > src.inLen then (false, s) else (true, copyStored src len s)

def fixedLengths : List UInt8 :=
  List.replicate 144 8 ++ List.replicate 112 9 ++ List.replicate 24 7 ++ List.replicate 8 8

def fixedDistances : List UInt8 := List.replicate 32 5

def clorder : List Nat := [16, 17, 18, 0, 8, 7, 9, 6, 10, 5, 11, 4, 12, 3, 13, 2, 14, 1, 15]

/-- The loop that reads `clens`: `i` entries of `clorder` are done. -/
def readClens : Nat → Nat → List UInt8 → State → List UInt8 × State
  | 0, _, clens, s => (clens, s)
  | n + 1, i, clens, s =>
    let (l, s) := getBits src 3 s
    let place := clorder.getD i 0
    readClens n (i + 1) (clens.set place (UInt8.ofNat l))
      ((s.touch i clorder.length).touch place 19)

def pushLengths (s : State) (lengths : List UInt8) (copy : Nat) (val : UInt8) :
    State × List UInt8 :=
  (s.touch (lengths.length + copy - 1 : Int) 320, lengths ++ List.replicate copy val)

def lengthsTurn (ch : Huffman) (num : Nat) :
    State × List UInt8 → Turn (State × List UInt8) (State × List UInt8)
  | (s, lengths) =>
    if lengths.length < num then
      let (sym, s) := decodeSymbol src ch s
      if sym < 16 then .again (pushLengths s lengths 1 (UInt8.ofInt sym))
      else if sym = 16 then
        let (copy, s) := getBits src 2 s
        .again (pushLengths s lengths (copy + 3) (lengths.getLast?.getD 0))
      else if sym = 17 then
        let (copy, s) := getBits src 3 s
        .again (pushLengths s lengths (copy + 3) 0)
      else if sym = 18 then
        let (copy, s) := getBits src 7 s
        .again (pushLengths s lengths (copy + 11) 0)
      else .again (s, lengths)
    else .done (s, lengths)

abbrev Wild := State → Huffman × Huffman

/-- A dynamic block up to its code lengths: how many are for literals and for distances, and all
that were stored. -/
def readLengths (n : Nat) (s : State) : Option (Nat × Nat × List UInt8 × State) := do
  let (hlit, s) := getBits src 5 s
  let hlit := hlit + 257
  let (hdist, s) := getBits src 5 s
  let hdist := hdist + 1
  let (hclen, s) := getBits src 4 s
  let hclen := hclen + 4
  let (clens, s) := readClens src hclen 0 (List.replicate 19 0) s
  let (ch, inRange) := buildHuffman clens
  let s := { s with stray := s.stray || !inRange }
  let (s, lengths) ← loopFor (lengthsTurn src ch (hlit + hdist)) n (s, [])
  some (hlit, hdist, lengths, s)

variable (wild : Wild)

/-- A compressed block with these code lengths; `fits` says that they were stored in range. -/
def inflateBlock (n : Nat) (fits : Bool) (litLengths distLengths : List UInt8) (s : State) :
    Option (Bool × State) :=
  let (lh, litIn) := buildHuffman litLengths
  let (dh, distIn) := buildHuffman distLengths
  let inRange := fits && litIn && distIn
  let s := { s with stray := s.stray || !inRange }
  let tables := if inRange then (lh, dh) else wild s
  loopFor (inflateTurn src tables.1 tables.2) n s

def blockBody (n btype : Nat) (s : State) : Option (Bool × State) :=
  if btype = 0 then some (storedBlock src s)
  else if btype = 1 then inflateBlock src wild n true fixedLengths fixedDistances s
  else if btype = 2 then do
    let (hlit, hdist, lengths, s) ← readLengths src n s
    inflateBlock src wild n (lengths.length ≤ 320) (lengths.take hlit)
      ((lengths.drop hlit).take hdist) s
  else some (false, s)

/-- The loop over the blocks; `n` bounds the rounds of each loop. -/
def blocks (n : Nat) : Nat → State → Option State
  | 0, _ => none
  | r + 1, s => do
    let (finalBlock, s) := getBits src 1 s
    let (btype, s) := getBits src 2 s
    let (more, s) ← blockBody src wild n btype s
    if more ∧ finalBlock = 0 then blocks n r s else some s

end blocks

section header

/-- A place in the header, and whether all reads so far were of the source. -/
structure Cursor where
  offset : Nat
  overread : Bool

def skipText (src : Source) : Nat → Cursor → Cursor
  | 0, c => c
  | r + 1, c =>
    if c.offset < src.size then
      let c := { c with overread := c.overread || src.size ≤ c.offset }
      if src.bytes c.offset ≠ 0 then skipText src r { c with offset := c.offset + 1 } else c
    else c

/-- The header of the file; it fails where an extra field is cut off. -/
def skipHeader (src : Source) : Option Cursor :=
  let flags := src.bytes 3
  let c : Cursor := ⟨10, src.size ≤ 3⟩
  let extra : Option Cursor :=
    if flags &&& 0x04 ≠ 0 then
      if c.offset + 2 > src.size then none
      else
        let xlen := (src.bytes c.offset).toNat ||| (src.bytes (c.offset + 1)).toNat <<< 8
        some ⟨c.offset + 2 + xlen, c.overread || src.size ≤ c.offset + 1⟩
    else some c
  extra.map fun c =>
    let skip (c : Cursor) : Cursor :=
      let c := skipText src src.size c
      { c with offset := c.offset + 1 }
    let c := if flags &&& 0x08 ≠ 0 then skip c else c
    let c := if flags &&& 0x10 ≠ 0 then skip c else c
    if flags &&& 0x02 ≠ 0 then { c with offset := c.offset + 2 } else c

end header

/-- What `decompress` returns, what it has written, and the accesses out of range. -/
structure Result where
  success : Bool
  out : List UInt8
  overread : Bool
  stray : Bool

/-- What the blocks are read from: `in_len` wraps when fewer than 8 bytes follow the header. -/
def body (src : Source) (offset capacity : Nat) : Input where
  input i := src.bytes (offset + i)
  inLen := (src.size - offset + (word - 8)) % word
  given := src.size - offset
  outLen := capacity

def decompress (wild : Wild) (src : Source) (capacity n : Nat) : Option Result :=
  if isGzip src = false then some ⟨false, [], false, false⟩
  else
    match skipHeader src with
    | none => some ⟨false, [], false, false⟩
    | some c =>
      if c.offset ≥ src.size then some ⟨false, [], c.overread, false⟩
      else do
        let s ← blocks (body src c.offset capacity) wild n n ⟨0, 0, 0, [], c.overread, false⟩
        some ⟨0 < s.out.length, s.out, s.overread, s.stray⟩

end LosTacOS.Gzip
