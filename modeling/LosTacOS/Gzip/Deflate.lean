import LosTacOS.Gzip.Inflate
import LosTacOS.Lib.Canonical

/-! What compressed data says, read bit by bit. A strict reader keeps to the format. A lenient one
goes on where the decompressor does not look for an error. -/
namespace LosTacOS.Gzip

open BitStream Canonical

def bitsOf (src : Input) : Nat → Bool := ofBytes src.input src.inLen

def widths (lengths : List UInt8) : List Nat := lengths.map UInt8.toNat

def copied (dist : Nat) : Nat → List UInt8 → List UInt8
  | 0, out => out
  | len + 1, out => copied dist len (out ++ [out.getD (out.length - dist) 0])

namespace Deflate

/-- Where a reader is: in front of a block, or in front of a symbol of a block with these codes. -/
inductive Config
  | head (c : Nat) (out : List UInt8)
  | codes (last : Bool) (lit dist : List Nat) (c : Nat) (out : List UInt8)

inductive Verdict
  /-- The last block ends at `c`. -/
  | complete (c : Nat) (out : List UInt8)
  | refused (out : List UInt8)
  | overfull
  /-- Code lengths that do not exist, or too many of them. -/
  | undefined
  /-- The input was not passed up to where it is read. -/
  | outside
deriving DecidableEq

section tables

variable (bits : Nat → Bool)

/-- The lengths of the code for code lengths, when `n` of them are given from `c` on. -/
def codeWidths (c n : Nat) : List Nat :=
  (List.range 19).map fun i =>
    if clorder.idxOf i < n then lowFirst bits (c + 3 * clorder.idxOf i) 3 else 0

/-- The code lengths after one more symbol, and the place behind the bits that belong to it. -/
def extend (sym c : Nat) (ws : List Nat) : Nat × List Nat :=
  if sym < 16 then (c, ws ++ [sym])
  else if sym = 16 then
    (c + 2, ws ++ List.replicate (lowFirst bits c 2 + 3) (ws.getLast?.getD 0))
  else if sym = 17 then (c + 3, ws ++ List.replicate (lowFirst bits c 3 + 3) 0)
  else (c + 7, ws ++ List.replicate (lowFirst bits c 7 + 11) 0)

/-- At least `total` code lengths, in at most `r` symbols. -/
def readWidths (cl : List Nat) (total : Nat) : Nat → Nat → List Nat → Option (Nat × List Nat)
  | 0, c, ws => some (c, ws)
  | r + 1, c, ws =>
    if ws.length < total then do
      let (sym, w) ← decode cl bits 15 c
      let (c, ws) := extend bits sym (c + w) ws
      readWidths cl total r c ws
    else some (c, ws)

structure Tables where
  lit : List Nat
  dist : List Nat
  place : Nat
  sound : Bool

def Apart (ls : List Nat) : Prop := ∀ l ∈ List.range 16, firstCode ls l + uses ls l ≤ 2 ^ l

instance (ls : List Nat) : Decidable (Apart ls) := inferInstanceAs (Decidable (∀ _ ∈ _, _))

/-- The codes with lengths from `c` on. They are sound when there are as many lengths as were
announced, nothing is repeated before the first, and the words exist. -/
def tablesFrom (hlit hdist : Nat) (cl : List Nat) (c : Nat) : Option Tables := do
  let (place, ws) ← readWidths bits cl (hlit + hdist) (hlit + hdist) c []
  if ws.length ≤ 320 then
    some
      { lit := ws.take hlit
        dist := (ws.drop hlit).take hdist
        place := place
        sound := ws.length = hlit + hdist && (decode cl bits 15 c).map Prod.fst ≠ some 16 &&
          Apart cl && Apart (ws.take hlit) && Apart ((ws.drop hlit).take hdist) }
  else none

def tables (c : Nat) : Option Tables :=
  let hlit := lowFirst bits c 5 + 257
  let hdist := lowFirst bits (c + 5) 5 + 1
  let hclen := lowFirst bits (c + 10) 4 + 4
  tablesFrom bits hlit hdist (codeWidths bits (c + 14) hclen) (c + 14 + 3 * hclen)

end tables

section reader

variable (src : Input) (strict : Bool)

/-- Some of the bits up to `c` are in bytes that were not passed. -/
def beyond (c : Nat) : Bool := src.given < src.inLen && 8 * src.given < c

def finish (last : Bool) (c : Nat) (out : List UInt8) : Turn Config Verdict :=
  if last = false then .again (.head c out)
  else if strict && 8 * src.inLen < c then .done (.refused out)
  else .done (.complete c out)

/-- A stored block, and how far it is read. A strict reader wants the length to be confirmed and the
output to have room. -/
def stored (last : Bool) (c : Nat) (out : List UInt8) : Nat × Turn Config Verdict :=
  let p := (c + 7) / 8
  if src.inLen < p + 4 then (c, .done (.refused out))
  else
    let len := (src.input p).toNat + 256 * (src.input (p + 1)).toNat
    let nlen := (src.input (p + 2)).toNat + 256 * (src.input (p + 3)).toNat
    if src.inLen < p + 4 + len then (8 * (p + 2), .done (.refused out))
    else
      let n := min len (src.outLen - out.length)
      let place := if n = 0 then 8 * (p + 2) else 8 * (p + 4 + n)
      if strict && len + nlen ≠ 65535 then (place, .done (.refused out))
      else if strict && n < len then (place, .done .overfull)
      else
        (place, finish src strict last (8 * (p + 4 + n))
          (out ++ (List.range n).map fun i => src.input (p + 4 + i)))

/-- The distance of a match of `len` bytes, and how far it is read. -/
def distance (last : Bool) (lit dist : List Nat) (len c : Nat) (out : List UInt8) :
    Nat × Turn Config Verdict :=
  match decode dist (bitsOf src) 15 c with
  | none => (c + 15, .done (.refused out))
  | some (sym, w) =>
    if 29 < sym then (c + w, .done (.refused out))
    else
      let extra := dext.getD sym 0
      let far := dists.getD sym 0 + lowFirst (bitsOf src) (c + w) extra
      let c := c + w + extra
      (c,
        if out.length < far then .done (.refused out)
        else if out.length + len ≤ src.outLen then
          .again (.codes last lit dist c (copied far len out))
        else .done .overfull)

/-- A symbol of a block with its match, and how far it is read. -/
def symbol (last : Bool) (lit dist : List Nat) (c : Nat) (out : List UInt8) :
    Nat × Turn Config Verdict :=
  match decode lit (bitsOf src) 15 c with
  | none => (c + 15, .done (.refused out))
  | some (sym, w) =>
    if sym < 256 then
      (c + w,
        if out.length < src.outLen then
          .again (.codes last lit dist (c + w) (out ++ [UInt8.ofNat sym]))
        else .done .overfull)
    else if sym = 256 then (c + w, finish src strict last (c + w) out)
    else if 285 < sym then (c + w, .done (.refused out))
    else
      let extra := lext.getD (sym - 257) 0
      let len := lens.getD (sym - 257) 0 + lowFirst (bitsOf src) (c + w) extra
      distance src last lit dist len (c + w + extra) out

def next : Config → Nat × Turn Config Verdict
  | .head c out =>
    let last := bitsOf src c
    let btype := lowFirst (bitsOf src) (c + 1) 2
    let c := c + 3
    if btype = 0 then stored src strict last c out
    else if btype = 1 then
      (c, .again (.codes last (widths fixedLengths) (widths fixedDistances) c out))
    else if btype = 2 then
      match tables (bitsOf src) c with
      | none => (c, .done .undefined)
      | some t =>
        (t.place,
          if strict && !t.sound then .done (.refused out)
          else .again (.codes last t.lit t.dist t.place out))
    else (c, .done (.refused out))
  | .codes last lit dist c out => symbol src strict last lit dist c out

def turn (cfg : Config) : Turn Config Verdict :=
  let (c, t) := next src strict cfg
  if beyond src c then .done .outside else t

end reader

end Deflate

end LosTacOS.Gzip
