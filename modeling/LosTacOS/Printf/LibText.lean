import LosTacOS.Printf.Libc
import Mathlib.Data.Nat.Digits.Lemmas

/-! What the library's formatter hands over, and when it stays inside its local arrays. -/
namespace LosTacOS.Printf

open Emit

section tmp

theorem digitChar_decimal (upper : Bool) {d : Nat} (h : d < 10) :
    '0'.toUInt8 + d.toUInt8 = digitChar upper d := by
  revert upper d
  decide

theorem Mode.digit_eq (mode : Mode) (upper : Bool) (x : Nat) :
    mode.digit upper x = digitChar upper (x % mode.base) := by
  cases mode with
  | decimal => exact digitChar_decimal upper (Nat.mod_lt x (by decide))
  | hex =>
    have hand : x &&& 0xf = x % 16 := Nat.and_two_pow_sub_one_eq_mod x 4
    simp [Mode.digit, Mode.base, hand]
  | octal =>
    have hand : x &&& 7 = x % 8 := Nat.and_two_pow_sub_one_eq_mod x 3
    have hlt : x % 8 < 10 := (Nat.mod_lt x (by decide)).trans (by decide)
    simp [Mode.digit, Mode.base, hand, digitChar_decimal upper hlt]

theorem Mode.one_lt_base (mode : Mode) : 1 < mode.base := by
  cases mode <;> decide

theorem fillDigits_eq (mode : Mode) (upper : Bool) (x : Nat) (tmp : List UInt8)
    (h : tmp.length + (Nat.digits mode.base x).length ≤ 64) :
    fillDigits mode upper x tmp =
      some (tmp ++ (Nat.digits mode.base x).map (digitChar upper)) := by
  induction x using Nat.strong_induction_on generalizing tmp with
  | _ x ih =>
    rw [fillDigits]
    by_cases hx : x = 0
    · simp [hx]
    have hpos : 0 < x := Nat.pos_of_ne_zero hx
    rw [if_neg hx, Nat.digits_def' mode.one_lt_base hpos, mode.digit_eq, mode.next_eq]
    rw [Nat.digits_def' mode.one_lt_base hpos, List.length_cons] at h
    have hpush : push 64 tmp (digitChar upper (x % mode.base)) =
        some (tmp ++ [digitChar upper (x % mode.base)]) := if_pos (by omega)
    rw [hpush, Option.bind_some,
      ih (x / mode.base) (Nat.div_lt_self hpos mode.one_lt_base) _ (by simp; omega)]
    simp

theorem digits_length_le (mode : Mode) {x : Nat} (h : x < 2^64) :
    (digits mode.base x).length ≤ 22 := by
  unfold digits
  split_ifs
  · simp
  · rw [Nat.digits_length_le_iff mode.one_lt_base]
    refine h.trans_le ?_
    cases mode <;> decide

/-- A number of 64 bits never fills `tmp[64]`. -/
theorem tmpDigits_eq (mode : Mode) (upper : Bool) {x : Nat} (h : x < 2^64) :
    tmpDigits mode upper x = some ((digits mode.base x).map (digitChar upper)) := by
  have hlen := digits_length_le mode h
  unfold tmpDigits digits at *
  by_cases hx : x = 0
  · have hzero : '0'.toUInt8 = digitChar upper 0 := by cases upper <;> decide
    rw [if_pos hx, if_pos hx, List.map_singleton, ← hzero]
    rfl
  · rw [if_neg hx] at hlen
    rw [if_neg hx, if_neg hx, fillDigits_eq mode upper x [] (by simp; omega)]
    rfl

theorem foldlM_push (cap : Nat) (cs tmp : List UInt8) (h : tmp.length ≤ cap) :
    cs.foldlM (push cap) tmp = if tmp.length + cs.length ≤ cap then some (tmp ++ cs) else none := by
  induction cs generalizing tmp with
  | nil => simp [h]
  | cons c cs ih =>
    rw [List.foldlM_cons, push]
    by_cases hlt : tmp.length < cap
    · have hle : (tmp ++ [c]).length ≤ cap := by simp; omega
      rw [if_pos hlt]
      simp only [Option.bind_eq_bind, Option.bind_some, ih _ hle]
      simp only [List.length_append, List.length_cons, List.length_nil, List.append_assoc,
        List.singleton_append]
      congr 1
      rw [eq_iff_iff]
      omega
    · rw [if_neg hlt, if_neg (by simp; omega)]
      rfl

def precisionOf (precision : Int) : Int := if precision < 0 then 6 else precision

/-- What `tmp[128]` would have to hold. -/
def floatTmp (integer : Nat) (digit : Nat → UInt8) (precision : Int) : List UInt8 :=
  ((digits 10 integer).map (digitChar false)).reverse ++ if 0 < precision then
    '.'.toUInt8 :: (List.range precision.toNat).map fun i => '0'.toUInt8 + digit i
  else []

/-- The integer part, the point and the fraction have 128 characters at most. -/
def Double.Fits (precision : Int) : Double → Prop
  | .finite _ integer _ =>
    (digits 10 integer.toNat).length +
      (if 0 < precisionOf precision then 1 + (precisionOf precision).toNat else 0) ≤ 128
  | _ => True

theorem floatTmp_length (integer : Nat) (digit : Nat → UInt8) (precision : Int) :
    (floatTmp integer digit precision).length =
      (digits 10 integer).length + if 0 < precision then 1 + precision.toNat else 0 := by
  unfold floatTmp
  split_ifs <;> simp
  omega

theorem floatDigits_eq (integer : Nat) (digit : Nat → UInt8) (precision : Int) :
    floatDigits ((digits 10 integer).map (digitChar false)) digit precision =
      if (digits 10 integer).length + (if 0 < precision then 1 + precision.toNat else 0) ≤ 128 then
        some (floatTmp integer digit precision)
      else none := by
  rw [← floatTmp_length integer digit]
  refine (foldlM_push 128 (floatTmp integer digit precision) [] (by simp)).trans ?_
  simp

end tmp

section texts

variable {σ : Type*} (put : σ → UInt8 → σ) (s : σ)

/-- The fill between a field's text of length `len` and its width. -/
def fill (width len : Int) : Nat := (if width > len then width - len else 0).toNat

def minus (negative : Bool) : List UInt8 := if negative then ['-'.toUInt8] else []

def floatText (value : Double) (precision width : Int) (zeroPad left : Bool) : List UInt8 :=
  match value with
  | .nan => "nan".toList.map Char.toUInt8
  | .huge => "inf".toList.map Char.toUInt8
  | .finite negative integer digit =>
    let tmp := floatTmp integer.toNat digit (precisionOf precision)
    let pad := fill width (tmp.length + if negative then 1 else 0)
    (if left then [] else List.replicate pad (if zeroPad then '0'.toUInt8 else ' '.toUInt8)) ++
      minus negative ++ tmp ++ if left then List.replicate pad ' '.toUInt8 else []

def paddedText (x : Nat) (isNegative : Bool) (width : Int) (zeroPad left : Bool) (mode : Mode)
    (upper : Bool) : List UInt8 :=
  let tmp := (digits mode.base x).map (digitChar upper)
  let pad := fill width (tmp.length + if isNegative then 1 else 0)
  minus (isNegative && zeroPad) ++
    (if left then [] else List.replicate pad (if zeroPad then '0'.toUInt8 else ' '.toUInt8)) ++
    minus (isNegative && !zeroPad) ++ tmp.reverse ++
    if left then List.replicate pad ' '.toUInt8 else []

def libStringText (str : List UInt8) (precision width : Int) (left : Bool) : List UInt8 :=
  let len := strLen precision 0 str
  let pad := (if width > cInt len then cInt (width - cInt len) else 0).toNat
  (if left then [] else List.replicate pad ' '.toUInt8) ++ str.take len ++
    if left then List.replicate pad ' '.toUInt8 else []

theorem putAll_minus (negative : Bool) :
    putAll put s (minus negative) = if negative then put s '-'.toUInt8 else s := by
  cases negative <;> rfl

theorem bufPutFloat_eq (value : Double) (precision width : Int) (zeroPad left : Bool)
    (h : value.Fits precision) :
    bufPutFloat put s value precision width zeroPad left =
      some (putAll put s (floatText value precision width zeroPad left)) := by
  cases value with
  | nan => rfl
  | huge => rfl
  | finite negative integer digit =>
    have htmp : tmpDigits .decimal false integer.toNat =
        some ((digits 10 integer.toNat).map (digitChar false)) :=
      tmpDigits_eq .decimal false integer.toNat_lt
    change Option.map _ ((tmpDigits .decimal false integer.toNat).bind fun rev =>
      floatDigits rev digit (precisionOf precision)) = _
    unfold Double.Fits at h
    rw [htmp, Option.bind_some, floatDigits_eq, if_pos h, Option.map_some]
    cases left <;> simp [floatText, putAll_append, putAll_minus, putTimes_eq, fill]

theorem bufPutFloat_none (value : Double) (precision width : Int) (zeroPad left : Bool)
    (h : ¬ value.Fits precision) : bufPutFloat put s value precision width zeroPad left = none := by
  cases value with
  | nan => exact absurd trivial h
  | huge => exact absurd trivial h
  | finite negative integer digit =>
    have htmp : tmpDigits .decimal false integer.toNat =
        some ((digits 10 integer.toNat).map (digitChar false)) :=
      tmpDigits_eq .decimal false integer.toNat_lt
    change Option.map _ ((tmpDigits .decimal false integer.toNat).bind fun rev =>
      floatDigits rev digit (precisionOf precision)) = _
    unfold Double.Fits at h
    rw [htmp, Option.bind_some, floatDigits_eq, if_neg h]
    rfl

theorem bufPutPaddedNum_eq {x : Nat} (hx : x < 2^64) (isNegative : Bool) (width : Int)
    (zeroPad left : Bool) (mode : Mode) (upper : Bool) :
    bufPutPaddedNum put s x isNegative width zeroPad left mode upper =
      some (putAll put s (paddedText x isNegative width zeroPad left mode upper)) := by
  unfold bufPutPaddedNum
  rw [tmpDigits_eq mode upper hx, Option.map_some]
  cases left <;> simp [paddedText, putAll_append, putAll_minus, putTimes_eq, fill]

theorem putString_eq (str : List UInt8) (precision width : Int) (left : Bool) :
    putString put s str precision width left =
      putAll put s (libStringText str precision width left) := by
  cases left <;> simp [putString, libStringText, putAll_append, putTimes_eq]

end texts

section rounds

def libConvText (r : Resolved) (args : VaList) : LibConv → List UInt8
  | .s => libStringText args.arg.1.string r.precision r.width r.left
  | .c => [args.arg.1.word.toUInt8]
  | .d =>
    let x := args.arg.1.signed r.length
    paddedText (magnitude x) (x < 0) r.width r.zero r.left .decimal false
  | .f => floatText args.double.1 r.precision r.width r.zero r.left
  | .u => paddedText (args.arg.1.unsigned r.length) false r.width r.zero r.left .decimal false
  | .x upper => paddedText (args.arg.1.unsigned r.length) false r.width r.zero r.left .hex upper
  | .o => paddedText (args.arg.1.unsigned r.length) false r.width r.zero r.left .octal false
  | .p =>
    if args.arg.1.word = 0 then "(nil)".toList.map Char.toUInt8
    else "0x".toList.map Char.toUInt8 ++
      paddedText args.arg.1.word.toNat false r.width r.zero r.left .hex false

def LibConv.rest : LibConv → VaList → VaList
  | .f, args => args.double.2
  | _, args => args.arg.2

def LibConv.Fits (r : Resolved) (args : VaList) : LibConv → Prop
  | .f => args.double.1.Fits r.precision
  | _ => True

def libText (args : VaList) : UInt8 ⊕ LibDirective → List UInt8
  | .inl c => [c]
  | .inr .percent => ['%'.toUInt8]
  | .inr (.directive _ none) => ['%'.toUInt8]
  | .inr (.directive spec (some c)) =>
    ((libConv c).map (libConvText (spec.resolve args).1 (spec.resolve args).2)).getD ['%'.toUInt8, c]

def libRest (args : VaList) : UInt8 ⊕ LibDirective → VaList
  | .inl _ => args
  | .inr .percent => args
  | .inr (.directive spec none) => (spec.resolve args).2
  | .inr (.directive spec (some c)) =>
    ((libConv c).map fun k => k.rest (spec.resolve args).2).getD (spec.resolve args).2

def PieceFits (args : VaList) : UInt8 ⊕ LibDirective → Prop
  | .inr (.directive spec (some c)) =>
    ∀ k, libConv c = some k → k.Fits (spec.resolve args).1 (spec.resolve args).2
  | _ => True

theorem unsigned_lt (a : Arg) (l : Length) : a.unsigned l < 2^64 := by
  have hword := a.word.toNat_lt
  cases l with
  | int => exact (Nat.mod_lt _ (by decide)).trans (by decide)
  | long => exact hword
  | longLong => exact hword

theorem bmod_bounds {m : Nat} (h : 0 < m) (hle : m ≤ 2^64) (n : Nat) :
    -2^63 ≤ Int.bmod n m ∧ Int.bmod n m < 2^63 := by
  have hlow := Int.le_bmod (x := n) h
  have hhigh := Int.bmod_lt (x := n) h
  constructor <;> omega

theorem signed_bounds (a : Arg) (l : Length) : -2^63 ≤ a.signed l ∧ a.signed l < 2^63 := by
  unfold Arg.signed
  split
  · exact bmod_bounds (by decide) (by decide) _
  · exact bmod_bounds (by decide) (by decide) _

theorem magnitude_signed (a : Arg) (l : Length) : magnitude (a.signed l) = (a.signed l).natAbs := by
  have h := signed_bounds a l
  unfold magnitude
  split_ifs
  · rw [Int.emod_eq_of_lt (by omega) (by omega)]
    omega
  · omega

theorem magnitude_lt (a : Arg) (l : Length) : magnitude (a.signed l) < 2^64 := by
  have h := signed_bounds a l
  rw [magnitude_signed]
  omega

variable {σ : Type*} (put : σ → UInt8 → σ) (s : σ)

theorem libConvert_eq (r : Resolved) (args : VaList) (k : LibConv) (h : k.Fits r args) :
    libConvert put s r args k = some (putAll put s (libConvText r args k), k.rest args) := by
  cases k with
  | s => simp [libConvert, libConvText, LibConv.rest, putString_eq]
  | c => rfl
  | d => simp [libConvert, libConvText, LibConv.rest, bufPutPaddedNum_eq put s (magnitude_lt _ _)]
  | f => simp [libConvert, libConvText, LibConv.rest, bufPutFloat_eq put s _ _ _ _ _ h]
  | u => simp [libConvert, libConvText, LibConv.rest, bufPutPaddedNum_eq put s (unsigned_lt _ _)]
  | x upper =>
    simp [libConvert, libConvText, LibConv.rest, bufPutPaddedNum_eq put s (unsigned_lt _ _)]
  | o => simp [libConvert, libConvText, LibConv.rest, bufPutPaddedNum_eq put s (unsigned_lt _ _)]
  | p =>
    simp only [libConvert, libConvText, LibConv.rest, bufPutPaddedNum_eq put _ args.arg.1.word.toNat_lt]
    split_ifs
    · rfl
    · rw [putAll_append]
      rfl

theorem libRound_eq (args : VaList) (p : UInt8 ⊕ LibDirective) (h : PieceFits args p) :
    libRound put (s, args) p = some (putAll put s (libText args p), libRest args p) := by
  match p with
  | .inl c => rfl
  | .inr .percent => rfl
  | .inr (.directive spec none) => rfl
  | .inr (.directive spec (some c)) =>
    simp only [libRound, libText, libRest]
    simp only [PieceFits] at h
    cases hk : libConv c with
    | none => rfl
    | some k => exact libConvert_eq put s _ _ k (h k hk)

theorem libRound_none (args : VaList) (p : UInt8 ⊕ LibDirective) (h : ¬ PieceFits args p) :
    libRound put (s, args) p = none := by
  match p with
  | .inl c => exact absurd trivial h
  | .inr .percent => exact absurd trivial h
  | .inr (.directive spec none) => exact absurd trivial h
  | .inr (.directive spec (some c)) =>
    simp only [libRound]
    simp only [PieceFits] at h
    push Not at h
    obtain ⟨k, hk, hfits⟩ := h
    rw [hk]
    cases k with
    | f => simp [libConvert, bufPutFloat_none put s _ _ _ _ _ hfits]
    | s => exact absurd trivial hfits
    | c => exact absurd trivial hfits
    | d => exact absurd trivial hfits
    | u => exact absurd trivial hfits
    | x upper => exact absurd trivial hfits
    | o => exact absurd trivial hfits
    | p => exact absurd trivial hfits

def FormatFits (fmt : List UInt8) (args : VaList) : Prop :=
  Along libRest PieceFits args (libScanner.pieces fmt)

def libWhole (fmt : List UInt8) (args : VaList) : List UInt8 :=
  (texts libText libRest args (libScanner.pieces fmt)).flatten

theorem libFormat_eq (fmt : List UInt8) (args : VaList) (h : FormatFits fmt args) :
    libFormat put s fmt args = some (putAll put s (libWhole fmt args)) :=
  (foldlM_emits (libRound_eq put) (libRound_none put) s args _).1 h

theorem libFormat_none (fmt : List UInt8) (args : VaList) (h : ¬ FormatFits fmt args) :
    libFormat put s fmt args = none := by
  rw [libFormat, (foldlM_emits (libRound_eq put) (libRound_none put) s args _).2 h]
  rfl

theorem libFull_eq (fmt : List UInt8) (args : VaList) (h : FormatFits fmt args) :
    libFull fmt args = some (libWhole fmt args) := by
  rw [libFull, libFormat_eq snoc [] fmt args h, putAll_snoc, List.nil_append]

end rounds

end LosTacOS.Printf
