import LosTacOS.Printf.Scan

/-! The kernel's formatter, twice: into a buffer and onto the console. -/
namespace LosTacOS.Printf

open Emit

inductive Conv where
  | s
  | c
  | d
  | u
  | x (upper : Bool)
  | o
  | p
  | percent
deriving DecidableEq

def conv (c : UInt8) : Option Conv :=
  if c = 's'.toUInt8 then some .s
  else if c = 'c'.toUInt8 then some .c
  else if c = 'd'.toUInt8 ∨ c = 'i'.toUInt8 then some .d
  else if c = 'u'.toUInt8 then some .u
  else if c = 'x'.toUInt8 then some (.x false)
  else if c = 'X'.toUInt8 then some (.x true)
  else if c = 'o'.toUInt8 then some .o
  else if c = 'p'.toUInt8 then some .p
  else if c = '%'.toUInt8 then some .percent
  else none

structure Spec where
  flags : Flags
  width : Int
  length : Length
deriving DecidableEq

/-- What stands behind a `%`, up to the conversion character; there is none when the format ends. -/
structure Directive where
  spec : Spec
  conv : Option UInt8
deriving DecidableEq

def scanSpec (fmt : List UInt8) : Spec × List UInt8 :=
  let (flags, fmt) := scanFlags ⟨false, false⟩ fmt
  let (width, fmt) := scanNumber 0 fmt
  let (length, fmt) := scanLength fmt
  (⟨flags, width, length⟩, fmt)

theorem scanSpec_shrinks (fmt : List UInt8) : (scanSpec fmt).2.length ≤ fmt.length :=
  (scanLength_shrinks _).trans ((scanNumber_shrinks _ _).trans (scanFlags_shrinks _ _))

def scanner : Scanner UInt8 Directive where
  escape := '%'.toUInt8
  scan fmt := (⟨(scanSpec fmt).1, (scanSpec fmt).2.head?⟩, (scanSpec fmt).2.tail)
  shrinks fmt := by
    have h := scanSpec_shrinks fmt
    simp
    omega

section emit

variable {σ : Type*} (put : σ → UInt8 → σ) (s : σ)

def snPrintNumber (value base : Nat) (width : Int) (zero upper : Bool) : σ :=
  let buffer := (digits base value).map (digitChar upper)
  let s := putTimes put s (cInt (width - buffer.length)) (if zero then '0'.toUInt8 else ' '.toUInt8)
  putAll put s buffer.reverse

def snPrintString (str : List UInt8) (width : Int) (left : Bool) : σ :=
  let len := cInt str.length
  let s := if left then s else putTimes put s (width - len) ' '.toUInt8
  let s := putAll put s str
  if left then putTimes put s (width - len) ' '.toUInt8 else s

/-- The cases that both switches list. -/
def convert (spec : Spec) (args : List Arg) : Conv → σ × List Arg
  | .s =>
    let (a, args) := vaArg args
    (snPrintString put s a.string spec.width spec.flags.left, args)
  | .c =>
    let (a, args) := vaArg args
    (put s a.word.toUInt8, args)
  | .d =>
    let (a, args) := vaArg args
    let n := a.signed spec.length
    let s := if n < 0 then put s '-'.toUInt8 else s
    (snPrintNumber put s (magnitude n) 10 spec.width spec.flags.zero false, args)
  | .u =>
    let (a, args) := vaArg args
    (snPrintNumber put s (a.unsigned spec.length) 10 spec.width spec.flags.zero false, args)
  | .x upper =>
    let (a, args) := vaArg args
    (snPrintNumber put s (a.unsigned spec.length) 16 spec.width spec.flags.zero upper, args)
  | .o =>
    let (a, args) := vaArg args
    (snPrintNumber put s (a.unsigned spec.length) 8 spec.width spec.flags.zero false, args)
  | .p =>
    let (a, args) := vaArg args
    if a.word = 0 then (putAll put s ("(nil)".toList.map Char.toUInt8), args)
    else
      let s := putAll put s ("0x".toList.map Char.toUInt8)
      (snPrintNumber put s a.word.toNat 16 spec.width spec.flags.zero false, args)
  | .percent => (put s '%'.toUInt8, args)

def snRound : σ × List Arg → UInt8 ⊕ Directive → σ × List Arg
  | (s, args), .inl c => (put s c, args)
  | (s, args), .inr ⟨spec, some c⟩ =>
    match conv c with
    | some k => convert put s spec args k
    | none => (put (put s '%'.toUInt8) c, args)
  | (s, args), .inr ⟨_, none⟩ => (put s '%'.toUInt8, args)

/-- One round of the loop of `kvprintf`, whose switch has no default. -/
def round : σ × List Arg → UInt8 ⊕ Directive → σ × List Arg
  | (s, args), .inl c => (put s c, args)
  | (s, args), .inr ⟨spec, some c⟩ =>
    match conv c with
    | some k => convert put s spec args k
    | none => (s, args)
  | (s, args), .inr ⟨_, none⟩ => (s, args)

def snFormat (fmt : List UInt8) (args : List Arg) : σ :=
  ((scanner.pieces fmt).foldl (snRound put) (s, args)).1

end emit

/-- What `kvsnprintf` writes into a buffer that is large enough. -/
def full (fmt : List UInt8) (args : List Arg) : List UInt8 := snFormat snoc [] fmt args

section texts

def numberText (value base : Nat) (width : Int) (zero upper : Bool) : List UInt8 :=
  List.replicate (cInt (width - (digits base value).length)).toNat
      (if zero then '0'.toUInt8 else ' '.toUInt8) ++
    ((digits base value).map (digitChar upper)).reverse

def stringText (str : List UInt8) (width : Int) (left : Bool) : List UInt8 :=
  let pad := List.replicate (width - cInt str.length).toNat ' '.toUInt8
  if left then str ++ pad else pad ++ str

def sign (n : Int) : List UInt8 := if n < 0 then ['-'.toUInt8] else []

def convText (spec : Spec) (a : Arg) : Conv → List UInt8
  | .s => stringText a.string spec.width spec.flags.left
  | .c => [a.word.toUInt8]
  | .d => sign (a.signed spec.length) ++
      numberText (magnitude (a.signed spec.length)) 10 spec.width spec.flags.zero false
  | .u => numberText (a.unsigned spec.length) 10 spec.width spec.flags.zero false
  | .x upper => numberText (a.unsigned spec.length) 16 spec.width spec.flags.zero upper
  | .o => numberText (a.unsigned spec.length) 8 spec.width spec.flags.zero false
  | .p =>
    if a.word = 0 then "(nil)".toList.map Char.toUInt8
    else "0x".toList.map Char.toUInt8 ++
      numberText a.word.toNat 16 spec.width spec.flags.zero false
  | .percent => ['%'.toUInt8]

def Conv.rest : Conv → List Arg → List Arg
  | .percent, args => args
  | _, args => args.tail

def restArgs (args : List Arg) : UInt8 ⊕ Directive → List Arg
  | .inr ⟨_, some c⟩ => ((conv c).map fun k => k.rest args).getD args
  | _ => args

def snText (args : List Arg) : UInt8 ⊕ Directive → List UInt8
  | .inl c => [c]
  | .inr ⟨spec, some c⟩ =>
    ((conv c).map (convText spec (args.headD .none))).getD ['%'.toUInt8, c]
  | .inr ⟨_, none⟩ => ['%'.toUInt8]

variable {σ : Type*} (put : σ → UInt8 → σ) (s : σ)

theorem snPrintNumber_eq (value base : Nat) (width : Int) (zero upper : Bool) :
    snPrintNumber put s value base width zero upper =
      putAll put s (numberText value base width zero upper) := by
  simp [snPrintNumber, numberText, putTimes_eq, putAll_append]

theorem snPrintString_eq (str : List UInt8) (width : Int) (left : Bool) :
    snPrintString put s str width left = putAll put s (stringText str width left) := by
  cases left <;> simp [snPrintString, stringText, putTimes_eq, putAll_append]

theorem putAll_sign (n : Int) :
    putAll put s (sign n) = if n < 0 then put s '-'.toUInt8 else s := by
  unfold sign
  split_ifs <;> rfl

theorem convert_eq (spec : Spec) (args : List Arg) (k : Conv) :
    convert put s spec args k =
      (putAll put s (convText spec (args.headD .none) k), k.rest args) := by
  cases k with
  | s => simp [convert, convText, Conv.rest, vaArg, snPrintString_eq]
  | c => rfl
  | d =>
    simp only [convert, convText, Conv.rest, vaArg, snPrintNumber_eq, putAll_append, putAll_sign]
    rfl
  | u => simp [convert, convText, Conv.rest, vaArg, snPrintNumber_eq]
  | x upper => simp [convert, convText, Conv.rest, vaArg, snPrintNumber_eq]
  | o => simp [convert, convText, Conv.rest, vaArg, snPrintNumber_eq]
  | p =>
    simp only [convert, convText, Conv.rest, vaArg, snPrintNumber_eq]
    split_ifs
    · rfl
    · rw [putAll_append]
  | percent => rfl

theorem snRound_eq (args : List Arg) (p : UInt8 ⊕ Directive) :
    snRound put (s, args) p = (putAll put s (snText args p), restArgs args p) := by
  match p with
  | .inl c => rfl
  | .inr ⟨spec, none⟩ => rfl
  | .inr ⟨spec, some c⟩ =>
    simp only [snRound, snText, restArgs]
    cases conv c with
    | none => rfl
    | some k => simp [convert_eq]

/-- Every character goes through `put`, in the order of the text. -/
theorem snFormat_eq (fmt : List UInt8) (args : List Arg) :
    snFormat put s fmt args =
      putAll put s (texts snText restArgs args (scanner.pieces fmt)).flatten :=
  foldl_emits (snRound_eq put) s args _

theorem full_eq (fmt : List UInt8) (args : List Arg) :
    full fmt args = (texts snText restArgs args (scanner.pieces fmt)).flatten := by
  simp [full, snFormat_eq]

theorem snFormat_full (fmt : List UInt8) (args : List Arg) :
    snFormat put s fmt args = putAll put s (full fmt args) := by
  rw [snFormat_eq, full_eq]

end texts

end LosTacOS.Printf
