import LosTacOS.Printf.Buffer

/-! `kvprintf`: the serial line gets the text of `kvsnprintf`, the console that of a second
formatter. -/
namespace LosTacOS.Printf

open Emit

structure Shown where
  serial : List UInt8
  console : List UInt8

def known : UInt8 ⊕ Directive → Bool
  | .inl _ => true
  | .inr d => (d.conv.bind conv).isSome

end LosTacOS.Printf
