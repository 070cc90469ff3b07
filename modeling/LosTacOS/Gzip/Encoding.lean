import LosTacOS.Gzip.Deflate
import LosTacOS.Lib.BitWords

/-! What may be written as compressed data: blocks of three kinds, each in bits, and the file around
them. This follows the format and not the decompressor, and leaves every choice that the format
leaves. -/
namespace LosTacOS.Gzip

open Canonical

section items

structure Match where
  length : Nat
  lengthExtra : Nat
  distance : Nat
  distanceExtra : Nat

def Match.len (m : Match) : Nat := lens.getD m.length 0 + m.lengthExtra

def Match.far (m : Match) : Nat := dists.getD m.distance 0 + m.distanceExtra

inductive Item
  | literal (b : UInt8)
  | copy (m : Match)

def Item.apply (out : List UInt8) : Item → List UInt8
  | .literal b => out ++ [b]
  | .copy m => copied m.far m.len out

variable (lit dist : List Nat)

def Item.bits : Item → List Bool
  | .literal b => codeword lit b.toNat
  | .copy m =>
    codeword lit (257 + m.length) ++ lowBits m.lengthExtra (lext.getD m.length 0) ++
      (codeword dist m.distance ++ lowBits m.distanceExtra (dext.getD m.distance 0))

structure Match.Sound (out : List UInt8) (m : Match) : Prop where
  length : m.length < 29
  lengthExtra : m.lengthExtra < 2 ^ lext.getD m.length 0
  lengthWord : lit.getD (257 + m.length) 0 ≠ 0
  distance : m.distance < 30
  distanceExtra : m.distanceExtra < 2 ^ dext.getD m.distance 0
  distanceWord : dist.getD m.distance 0 ≠ 0
  far : m.far ≤ out.length

def Item.Sound (out : List UInt8) : Item → Prop
  | .literal b => lit.getD b.toNat 0 ≠ 0
  | .copy m => m.Sound lit dist out

def ItemsSound : List UInt8 → List Item → Prop
  | _, [] => True
  | out, i :: is => i.Sound lit dist out ∧ ItemsSound (i.apply out) is

def itemsBits (is : List Item) : List Bool := is.flatMap (Item.bits lit dist) ++ codeword lit 256

structure WidthsSound : Prop where
  lit_fits : Fits 15 lit
  dist_fits : Fits 15 dist
  lit_le : ∀ l ∈ lit, l ≤ 15
  dist_le : ∀ l ∈ dist, l ≤ 15
  endWord : lit.getD 256 0 ≠ 0

end items

section codes

inductive WidthRun
  | width (w : Nat)
  | again (n : Nat)
  | zeros (n : Nat)
  | manyZeros (n : Nat)

def WidthRun.apply (ws : List Nat) : WidthRun → List Nat
  | .width w => ws ++ [w]
  | .again n => ws ++ List.replicate n (ws.getLast?.getD 0)
  | .zeros n => ws ++ List.replicate n 0
  | .manyZeros n => ws ++ List.replicate n 0

def WidthRun.bits (cl : List Nat) : WidthRun → List Bool
  | .width w => codeword cl w
  | .again n => codeword cl 16 ++ lowBits (n - 3) 2
  | .zeros n => codeword cl 17 ++ lowBits (n - 3) 3
  | .manyZeros n => codeword cl 18 ++ lowBits (n - 11) 7

def WidthRun.Sound (cl ws : List Nat) : WidthRun → Prop
  | .width w => w < 16 ∧ cl.getD w 0 ≠ 0
  | .again n => 3 ≤ n ∧ n ≤ 6 ∧ ws ≠ [] ∧ cl.getD 16 0 ≠ 0
  | .zeros n => 3 ≤ n ∧ n ≤ 10 ∧ cl.getD 17 0 ≠ 0
  | .manyZeros n => 11 ≤ n ∧ n ≤ 138 ∧ cl.getD 18 0 ≠ 0

def RunsSound (cl : List Nat) : List Nat → List WidthRun → Prop
  | _, [] => True
  | ws, r :: rs => r.Sound cl ws ∧ RunsSound cl (r.apply ws) rs

/-- The codes of a dynamic block, and how they are written down: with a code `cl` for the lengths,
of which the first `hclen` are given. -/
structure Codes where
  lit : List Nat
  dist : List Nat
  cl : List Nat
  hclen : Nat
  runs : List WidthRun

def Codes.bits (t : Codes) : List Bool :=
  lowBits (t.lit.length - 257) 5 ++ lowBits (t.dist.length - 1) 5 ++ lowBits (t.hclen - 4) 4 ++
    (clorder.take t.hclen).flatMap (fun i => lowBits (t.cl.getD i 0) 3) ++
    t.runs.flatMap (WidthRun.bits t.cl)

structure Codes.Sound (t : Codes) : Prop extends WidthsSound t.lit t.dist where
  lit_length : 257 ≤ t.lit.length ∧ t.lit.length ≤ 288
  dist_length : 1 ≤ t.dist.length ∧ t.dist.length ≤ 32
  cl_length : t.cl.length = 19
  cl_lt : ∀ l ∈ t.cl, l < 8
  cl_fits : Fits 15 t.cl
  hclen : 4 ≤ t.hclen ∧ t.hclen ≤ 19
  rest : ∀ i ∈ clorder.drop t.hclen, t.cl.getD i 0 = 0
  runs : RunsSound t.cl [] t.runs
  widths : t.runs.foldl WidthRun.apply [] = t.lit ++ t.dist

end codes

section blocks

inductive Block
  | stored (pad : List Bool) (bytes : List UInt8)
  | fixed (items : List Item)
  | dynamic (t : Codes) (items : List Item)

def Block.kind : Block → Nat
  | .stored _ _ => 0
  | .fixed _ => 1
  | .dynamic _ _ => 2

def Block.body : Block → List Bool
  | .stored pad bytes =>
    pad ++ lowBits bytes.length 16 ++ lowBits (65535 - bytes.length) 16 ++
      bytes.flatMap fun b => lowBits b.toNat 8
  | .fixed items => itemsBits (widths fixedLengths) (widths fixedDistances) items
  | .dynamic t items => t.bits ++ itemsBits t.lit t.dist items

def Block.bits (last : Bool) (b : Block) : List Bool := [last] ++ lowBits b.kind 2 ++ b.body

def Block.apply (out : List UInt8) : Block → List UInt8
  | .stored _ bytes => out ++ bytes
  | .fixed items => items.foldl Item.apply out
  | .dynamic _ items => items.foldl Item.apply out

def Block.Sound (c : Nat) (out : List UInt8) : Block → Prop
  | .stored pad bytes => pad.length < 8 ∧ (c + 3 + pad.length) % 8 = 0 ∧ bytes.length < 65536
  | .fixed items => ItemsSound (widths fixedLengths) (widths fixedDistances) out items
  | .dynamic t items => t.Sound ∧ ItemsSound t.lit t.dist out items

def streamBits : List Block → List Bool
  | [] => []
  | [b] => b.bits true
  | b :: b' :: bs => b.bits false ++ streamBits (b' :: bs)

def StreamSound : Nat → List UInt8 → List Block → Prop
  | _, _, [] => False
  | c, out, [b] => b.Sound c out
  | c, out, b :: b' :: bs =>
    b.Sound c out ∧ StreamSound (c + (b.bits false).length) (b.apply out) (b' :: bs)

end blocks

section file

structure Member where
  text : Bool
  stamp : List UInt8
  extra : Option (List UInt8)
  name : Option (List UInt8)
  comment : Option (List UInt8)
  check : Option (List UInt8)
  blocks : List Block
  trailer : List UInt8

namespace Member

variable (m : Member)

def flags : UInt8 :=
  (if m.text then 1 else 0) ||| (if m.check.isSome then 2 else 0) |||
    (if m.extra.isSome then 4 else 0) ||| (if m.name.isSome then 8 else 0) |||
    (if m.comment.isSome then 16 else 0)

def extraField : List UInt8 :=
  match m.extra with
  | none => []
  | some x => [UInt8.ofNat x.length, UInt8.ofNat (x.length / 256)] ++ x

def textField : Option (List UInt8) → List UInt8
  | none => []
  | some t => t ++ [0]

def header : List UInt8 :=
  [0x1f, 0x8b, 8, m.flags] ++ m.stamp ++ m.extraField ++ textField m.name ++ textField m.comment ++
    m.check.getD []

def file : List UInt8 := m.header ++ pack (streamBits m.blocks) ++ m.trailer

def data : List UInt8 := m.blocks.foldl Block.apply []

structure Sound : Prop where
  stamp : m.stamp.length = 6
  extra : ∀ x, m.extra = some x → x.length < 65536
  name : ∀ t, m.name = some t → 0 ∉ t
  comment : ∀ t, m.comment = some t → 0 ∉ t
  check : ∀ x, m.check = some x → x.length = 2
  stream : StreamSound 0 [] m.blocks
  trailer : m.trailer.length = 8

end Member

end file

end LosTacOS.Gzip
