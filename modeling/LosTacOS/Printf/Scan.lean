import LosTacOS.Lib.Emit
import Mathlib.Data.Nat.Digits.Defs

/-! What the three formatters have in common: arguments, and the flags, widths, length modifiers and
digits of a conversion. A format is the list of its bytes up to the NUL. -/
namespace LosTacOS.Printf

open Emit

@[irreducible] def cInt (n : Int) : Int := Int.bmod n (2^32)

/-- One variable argument: its 64-bit word, and the bytes up to the NUL at that address if the word
is read as a pointer. -/
structure Arg where
  word : UInt64
  str : List UInt8
deriving DecidableEq

def Arg.none : Arg := ⟨0, []⟩

def vaArg (args : List Arg) : Arg × List Arg := (args.headD .none, args.tail)

inductive Length where
  | int
  | long
  | longLong
deriving DecidableEq

def Arg.signed (a : Arg) : Length → Int
  | .int => Int.bmod a.word.toNat (2^32)
  | _ => Int.bmod a.word.toNat (2^64)

def Arg.unsigned (a : Arg) : Length → Nat
  | .int => a.word.toNat % 2^32
  | _ => a.word.toNat

/-- `(uint64_t)-n`, which is the magnitude also of the most negative `n`. -/
def magnitude (n : Int) : Nat := if n < 0 then ((-n) % 2^64).toNat else n.toNat

/-- The string of `%s`; a null pointer has one too. -/
def Arg.string (a : Arg) : List UInt8 :=
  if a.word = 0 then "(null)".toList.map Char.toUInt8 else a.str

section scan

def isDigit (c : UInt8) : Bool := '0'.toUInt8 ≤ c && c ≤ '9'.toUInt8

structure Flags where
  left : Bool
  zero : Bool
deriving DecidableEq

def scanFlags (f : Flags) : List UInt8 → Flags × List UInt8
  | [] => (f, [])
  | c :: fmt =>
    if c = '-'.toUInt8 then scanFlags { f with left := true } fmt
    else if c = '0'.toUInt8 then scanFlags { f with zero := true } fmt
    else (f, c :: fmt)

def scanNumber (n : Int) : List UInt8 → Int × List UInt8
  | [] => (n, [])
  | c :: fmt =>
    if isDigit c then scanNumber (cInt (n * 10 + (c.toNat - 48))) fmt else (n, c :: fmt)

def scanLength : List UInt8 → Length × List UInt8
  | [] => (.int, [])
  | c :: fmt =>
    if c = 'l'.toUInt8 then
      match fmt with
      | d :: rest => if d = 'l'.toUInt8 then (.longLong, rest) else (.long, fmt)
      | [] => (.long, fmt)
    else if c = 'z'.toUInt8 then (.long, fmt)
    else if c = 'h'.toUInt8 then
      match fmt with
      | d :: rest => if d = 'h'.toUInt8 then (.int, rest) else (.int, fmt)
      | [] => (.int, fmt)
    else (.int, c :: fmt)

theorem scanFlags_shrinks (f : Flags) (fmt : List UInt8) :
    (scanFlags f fmt).2.length ≤ fmt.length := by
  induction fmt generalizing f with
  | nil => simp [scanFlags]
  | cons c fmt ih =>
    have hleft := ih { f with left := true }
    have hzero := ih { f with zero := true }
    simp only [scanFlags, List.length_cons]
    split_ifs <;> simp <;> omega

theorem scanNumber_shrinks (n : Int) (fmt : List UInt8) :
    (scanNumber n fmt).2.length ≤ fmt.length := by
  induction fmt generalizing n with
  | nil => simp [scanNumber]
  | cons c fmt ih =>
    have hnext := ih (cInt (n * 10 + (c.toNat - 48)))
    simp only [scanNumber, List.length_cons]
    split_ifs <;> simp
    omega

theorem scanLength_shrinks (fmt : List UInt8) : (scanLength fmt).2.length ≤ fmt.length := by
  cases fmt with
  | nil => simp [scanLength]
  | cons c fmt => cases fmt <;> simp only [scanLength] <;> split_ifs <;> simp <;> omega

end scan

section digits

def digits (base value : Nat) : List Nat := if value = 0 then [0] else Nat.digits base value

def digitChar (upper : Bool) (d : Nat) : UInt8 :=
  ((if upper then "0123456789ABCDEF" else "0123456789abcdef").toList.map Char.toUInt8).getD d 0

theorem digits_ne_nil {base : Nat} (value : Nat) : digits base value ≠ [] := by
  unfold digits
  split_ifs with h
  · simp
  · exact Nat.digits_ne_nil_iff_ne_zero.mpr h

theorem digits_lt {base value d : Nat} (hb : 1 < base) (h : d ∈ digits base value) : d < base := by
  unfold digits at h
  split_ifs at h with hv
  · simp at h
    omega
  · exact Nat.digits_lt_base hb h

end digits

end LosTacOS.Printf
