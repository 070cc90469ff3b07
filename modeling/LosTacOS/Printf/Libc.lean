import LosTacOS.Printf.Buffer

/-! The library's formatter. -/
namespace LosTacOS.Printf

open Emit

/-- A double by what `buf_put_float` finds out about it with floating-point instructions: whether it
is none, above 1.0e308, or else its sign, its integer part and the digits of its fraction. -/
inductive Double where
  | nan
  | huge
  | finite (negative : Bool) (integer : UInt64) (digit : Nat → UInt8)

structure VaList where
  words : List Arg
  doubles : List Double

def VaList.arg (args : VaList) : Arg × VaList :=
  (args.words.headD .none, { args with words := args.words.tail })

def VaList.double (args : VaList) : Double × VaList :=
  (args.doubles.headD .nan, { args with doubles := args.doubles.tail })

section tmp

/-- One more character in a local array of `cap` characters. -/
def push (cap : Nat) (tmp : List UInt8) (c : UInt8) : Option (List UInt8) :=
  if tmp.length < cap then some (tmp ++ [c]) else none

/-- The last parameter but one of `buf_put_padded_num`. -/
inductive Mode where
  | decimal
  | hex
  | octal
deriving DecidableEq

def Mode.base : Mode → Nat
  | .decimal => 10
  | .hex => 16
  | .octal => 8

def Mode.digit (upper : Bool) (x : Nat) : Mode → UInt8
  | .decimal => '0'.toUInt8 + (x % 10).toUInt8
  | .hex => digitChar upper (x &&& 0xf)
  | .octal => '0'.toUInt8 + (x &&& 7).toUInt8

def Mode.next (x : Nat) : Mode → Nat
  | .decimal => x / 10
  | .hex => x >>> 4
  | .octal => x >>> 3

theorem Mode.next_eq (mode : Mode) (x : Nat) : mode.next x = x / mode.base := by
  cases mode with
  | decimal => rfl
  | hex => simp [Mode.next, Mode.base, Nat.shiftRight_eq_div_pow]
  | octal => simp [Mode.next, Mode.base, Nat.shiftRight_eq_div_pow]

def fillDigits (mode : Mode) (upper : Bool) (x : Nat) (tmp : List UInt8) : Option (List UInt8) :=
  if x = 0 then some tmp
  else (push 64 tmp (mode.digit upper x)).bind (fillDigits mode upper (mode.next x))
termination_by x
decreasing_by
  rw [Mode.next_eq]
  exact Nat.div_lt_self (by omega) (by cases mode <;> decide)

def tmpDigits (mode : Mode) (upper : Bool) (x : Nat) : Option (List UInt8) :=
  if x = 0 then push 64 [] '0'.toUInt8 else fillDigits mode upper x []

/-- What `buf_put_float` collects in `tmp[128]`, from the digits of the integer part, the last one
first. -/
def floatDigits (rev : List UInt8) (digit : Nat → UInt8) (precision : Int) : Option (List UInt8) :=
  (rev.reverse ++ if 0 < precision then
    '.'.toUInt8 :: (List.range precision.toNat).map fun i => '0'.toUInt8 + digit i
  else []).foldlM (push 128) []

end tmp

section emit

variable {σ : Type*} (put : σ → UInt8 → σ) (s : σ)

def bufPutFloat (value : Double) (precision width : Int) (zeroPad left : Bool) : Option σ :=
  let precision := if precision < 0 then 6 else precision
  match value with
  | .nan => some (putAll put s ("nan".toList.map Char.toUInt8))
  | .huge => some (putAll put s ("inf".toList.map Char.toUInt8))
  | .finite negative integer digit =>
    ((tmpDigits .decimal false integer.toNat).bind fun rev => floatDigits rev digit precision).map
      fun tmp =>
        let len : Int := tmp.length + if negative then 1 else 0
        let pad := if width > len then width - len else 0
        let s := if left then s
          else putTimes put s pad (if zeroPad then '0'.toUInt8 else ' '.toUInt8)
        let s := if negative then put s '-'.toUInt8 else s
        let s := putAll put s tmp
        if left then putTimes put s pad ' '.toUInt8 else s

def bufPutPaddedNum (x : Nat) (isNegative : Bool) (width : Int) (zeroPad left : Bool) (mode : Mode)
    (upper : Bool) : Option σ :=
  (tmpDigits mode upper x).map fun tmp =>
    let totalLen : Int := tmp.length + if isNegative then 1 else 0
    let pad := if width > totalLen then width - totalLen else 0
    let s := if isNegative && zeroPad then put s '-'.toUInt8 else s
    let s := if left then s
      else putTimes put s pad (if zeroPad then '0'.toUInt8 else ' '.toUInt8)
    let s := if isNegative && !zeroPad then put s '-'.toUInt8 else s
    let s := putAll put s tmp.reverse
    if left then putTimes put s pad ' '.toUInt8 else s

def strLen (precision : Int) (len : Nat) : List UInt8 → Nat
  | [] => len
  | _ :: str => if precision < 0 ∨ cInt len < precision then strLen precision (len + 1) str else len

def putString (str : List UInt8) (precision width : Int) (left : Bool) : σ :=
  let len := strLen precision 0 str
  let pad := if width > cInt len then cInt (width - cInt len) else 0
  let s := if left then s else putTimes put s pad ' '.toUInt8
  let s := putAll put s (str.take len)
  if left then putTimes put s pad ' '.toUInt8 else s

end emit

section scan

inductive Count where
  | lit (n : Int)
  | star
deriving DecidableEq

structure LibSpec where
  flags : Flags
  width : Count
  precision : Option Count
  length : Length
deriving DecidableEq

inductive LibDirective where
  | percent
  | directive (spec : LibSpec) (conv : Option UInt8)
deriving DecidableEq

def scanCount (fmt : List UInt8) : Count × List UInt8 :=
  if fmt.head? = some '*'.toUInt8 then (.star, fmt.tail)
  else (.lit (scanNumber 0 fmt).1, (scanNumber 0 fmt).2)

def scanPrecision (fmt : List UInt8) : Option Count × List UInt8 :=
  if fmt.head? = some '.'.toUInt8 then (some (scanCount fmt.tail).1, (scanCount fmt.tail).2)
  else (none, fmt)

def scanLibSpec (fmt : List UInt8) : LibSpec × List UInt8 :=
  let (flags, fmt) := scanFlags ⟨false, false⟩ fmt
  let (width, fmt) := scanCount fmt
  let (precision, fmt) := scanPrecision fmt
  let (length, fmt) := scanLength fmt
  (⟨flags, width, precision, length⟩, fmt)

theorem scanCount_shrinks (fmt : List UInt8) : (scanCount fmt).2.length ≤ fmt.length := by
  have h := scanNumber_shrinks 0 fmt
  unfold scanCount
  split_ifs <;> simp
  omega

theorem scanPrecision_shrinks (fmt : List UInt8) : (scanPrecision fmt).2.length ≤ fmt.length := by
  have h := scanCount_shrinks fmt.tail
  simp only [List.length_tail] at h
  unfold scanPrecision
  split_ifs <;> simp
  omega

theorem scanLibSpec_shrinks (fmt : List UInt8) : (scanLibSpec fmt).2.length ≤ fmt.length :=
  (scanLength_shrinks _).trans ((scanPrecision_shrinks _).trans
    ((scanCount_shrinks _).trans (scanFlags_shrinks _ _)))

def libScanner : Scanner UInt8 LibDirective where
  escape := '%'.toUInt8
  scan fmt :=
    if fmt.head? = some '%'.toUInt8 then (.percent, fmt.tail)
    else (.directive (scanLibSpec fmt).1 (scanLibSpec fmt).2.head?, (scanLibSpec fmt).2.tail)
  shrinks fmt := by
    have h := scanLibSpec_shrinks fmt
    split_ifs <;> simp
    omega

end scan

section rounds

inductive LibConv where
  | s
  | c
  | d
  | f
  | u
  | x (upper : Bool)
  | o
  | p
deriving DecidableEq

def libConv (c : UInt8) : Option LibConv :=
  if c = 's'.toUInt8 then some .s
  else if c = 'c'.toUInt8 then some .c
  else if c = 'd'.toUInt8 ∨ c = 'i'.toUInt8 then some .d
  else if c = 'f'.toUInt8 ∨ c = 'F'.toUInt8 then some .f
  else if c = 'u'.toUInt8 then some .u
  else if c = 'x'.toUInt8 then some (.x false)
  else if c = 'X'.toUInt8 then some (.x true)
  else if c = 'o'.toUInt8 then some .o
  else if c = 'p'.toUInt8 then some .p
  else none

structure Resolved where
  left : Bool
  zero : Bool
  width : Int
  precision : Int
  length : Length

/-- The width and the precision, from the arguments where the format has a star. -/
def LibSpec.resolve (spec : LibSpec) (args : VaList) : Resolved × VaList :=
  let r : Resolved := ⟨spec.flags.left, spec.flags.zero, 0, -1, spec.length⟩
  let (r, args) := match spec.width with
    | .lit n => ({ r with width := n }, args)
    | .star =>
      let (a, args) := args.arg
      let width := a.signed .int
      (if width < 0 then { r with left := true, width := cInt (-width) }
        else { r with width := width }, args)
  match spec.precision with
  | none => (r, args)
  | some (.lit n) => ({ r with precision := n }, args)
  | some .star =>
    let (a, args) := args.arg
    ({ r with precision := a.signed .int }, args)

variable {σ : Type*} (put : σ → UInt8 → σ)

def libConvert (s : σ) (r : Resolved) (args : VaList) : LibConv → Option (σ × VaList)
  | .s =>
    let (a, args) := args.arg
    some (putString put s a.string r.precision r.width r.left, args)
  | .c =>
    let (a, args) := args.arg
    some (put s a.word.toUInt8, args)
  | .d =>
    let (a, args) := args.arg
    let x := a.signed r.length
    (bufPutPaddedNum put s (magnitude x) (x < 0) r.width r.zero r.left .decimal false).map (·, args)
  | .f =>
    let (d, args) := args.double
    (bufPutFloat put s d r.precision r.width r.zero r.left).map (·, args)
  | .u =>
    let (a, args) := args.arg
    (bufPutPaddedNum put s (a.unsigned r.length) false r.width r.zero r.left .decimal false).map
      (·, args)
  | .x upper =>
    let (a, args) := args.arg
    (bufPutPaddedNum put s (a.unsigned r.length) false r.width r.zero r.left .hex upper).map
      (·, args)
  | .o =>
    let (a, args) := args.arg
    (bufPutPaddedNum put s (a.unsigned r.length) false r.width r.zero r.left .octal false).map
      (·, args)
  | .p =>
    let (a, args) := args.arg
    if a.word = 0 then some (putAll put s ("(nil)".toList.map Char.toUInt8), args)
    else
      let s := putAll put s ("0x".toList.map Char.toUInt8)
      (bufPutPaddedNum put s a.word.toNat false r.width r.zero r.left .hex false).map (·, args)

def libRound : σ × VaList → UInt8 ⊕ LibDirective → Option (σ × VaList)
  | (s, args), .inl c => some (put s c, args)
  | (s, args), .inr .percent => some (put s '%'.toUInt8, args)
  | (s, args), .inr (.directive spec none) => some (put s '%'.toUInt8, (spec.resolve args).2)
  | (s, args), .inr (.directive spec (some c)) =>
    match libConv c with
    | some k => libConvert put s (spec.resolve args).1 (spec.resolve args).2 k
    | none => some (put (put s '%'.toUInt8) c, (spec.resolve args).2)

def libFormat (s : σ) (fmt : List UInt8) (args : VaList) : Option σ :=
  ((libScanner.pieces fmt).foldlM (libRound put) (s, args)).map Prod.fst

end rounds

/-- `vsnprintf(buf, size, fmt, args)`: the memory afterwards and the result. -/
def vsnprintf (mem : List UInt8) (base size : Nat) (fmt : List UInt8) (args : VaList) :
    Option (List UInt8 × Int) :=
  (libFormat snPutc (some ⟨mem, base, size, 0⟩) fmt args).bind fun sb => sb.bind terminate

/-- What `vsnprintf` writes into a buffer that is large enough. -/
def libFull (fmt : List UInt8) (args : VaList) : Option (List UInt8) := libFormat snoc [] fmt args

end LosTacOS.Printf
