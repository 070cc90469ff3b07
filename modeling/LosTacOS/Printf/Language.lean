import LosTacOS.Printf.LibText
import Mathlib.Tactic.SplitIfs

/-! The formats both formatters were written for, and how each reads one. -/
namespace LosTacOS.Printf

open Emit

inductive Flag where
  | minus
  | zero
deriving DecidableEq

def Flag.char : Flag → UInt8
  | .minus => '-'.toUInt8
  | .zero => '0'.toUInt8

inductive Modifier where
  | none
  | l
  | ll
  | z
  | h
  | hh
deriving DecidableEq

def Modifier.chars : Modifier → List UInt8
  | .none => []
  | .l => ['l'.toUInt8]
  | .ll => ['l'.toUInt8, 'l'.toUInt8]
  | .z => ['z'.toUInt8]
  | .h => ['h'.toUInt8]
  | .hh => ['h'.toUInt8, 'h'.toUInt8]

def Modifier.length : Modifier → Length
  | .l => .long
  | .ll => .longLong
  | .z => .long
  | _ => .int

inductive Letter where
  | s
  | c
  | d
  | i
  | u
  | x
  | X
  | o
  | p
  | percent
deriving DecidableEq

def Letter.char : Letter → UInt8
  | .s => 's'.toUInt8
  | .c => 'c'.toUInt8
  | .d => 'd'.toUInt8
  | .i => 'i'.toUInt8
  | .u => 'u'.toUInt8
  | .x => 'x'.toUInt8
  | .X => 'X'.toUInt8
  | .o => 'o'.toUInt8
  | .p => 'p'.toUInt8
  | .percent => '%'.toUInt8

inductive Item where
  | text (c : UInt8) (h : c ≠ '%'.toUInt8)
  | conv (flags : List Flag) (width : Nat) (modifier : Modifier) (letter : Letter)

def decimal (n : Nat) : List UInt8 := ((Nat.digits 10 n).map (digitChar false)).reverse

def Item.tail (flags : List Flag) (width : Nat) (modifier : Modifier) (letter : Letter) :
    List UInt8 :=
  flags.map Flag.char ++ (decimal width ++ (modifier.chars ++ [letter.char]))

def Item.render : Item → List UInt8
  | .text c _ => [c]
  | .conv flags width modifier letter =>
    '%'.toUInt8 :: Item.tail flags width modifier letter

def render (items : List Item) : List UInt8 := items.flatMap Item.render

def flagsOf (flags : List Flag) : Flags := ⟨flags.contains .minus, flags.contains .zero⟩

section scan

variable {cs rest : List UInt8}

def Stops (p : UInt8 → Bool) (cs : List UInt8) : Prop := ∀ c ∈ cs.head?, p c = false

def isFlag (c : UInt8) : Bool := c = '-'.toUInt8 || c = '0'.toUInt8

theorem scanFlags_render (flags : List Flag) (f : Flags) (h : Stops isFlag cs) :
    scanFlags f (flags.map Flag.char ++ cs) =
      (⟨f.left || flags.contains .minus, f.zero || flags.contains .zero⟩, cs) := by
  induction flags generalizing f with
  | nil =>
    cases cs with
    | nil => simp [scanFlags]
    | cons c cs =>
      have hc := h c rfl
      simp only [isFlag, Bool.or_eq_false_iff, decide_eq_false_iff_not] at hc
      simp [scanFlags, hc.1, hc.2]
  | cons g flags ih =>
    cases g with
    | minus => simp [scanFlags, Flag.char, ih]
    | zero =>
      have hne : '0'.toUInt8 ≠ '-'.toUInt8 := by decide
      simp [scanFlags, Flag.char, ih, hne]

theorem cInt_push (m : Int) (d : Nat) : cInt (cInt m * 10 + d) = cInt (m * 10 + d) := by
  unfold cInt
  rw [← Int.bmod_add_bmod, Int.bmod_mul_bmod, Int.bmod_add_bmod]

theorem scanNumber_render (ds : List Nat) (hds : ∀ d ∈ ds, d < 10) (m : Int)
    (h : Stops isDigit cs) :
    scanNumber (cInt m) (ds.map (digitChar false) ++ cs) =
      (cInt (ds.foldl (fun (v : Int) (d : Nat) => v * 10 + d) m), cs) := by
  induction ds generalizing m with
  | nil =>
    cases cs with
    | nil => rfl
    | cons c cs => simp [scanNumber, h c rfl]
  | cons d ds ih =>
    have hd : ∀ d < 10, isDigit (digitChar false d) = true ∧
        ((digitChar false d).toNat : Int) - 48 = d := by decide
    obtain ⟨hdigit, hval⟩ := hd d (hds d List.mem_cons_self)
    simp only [List.map_cons, List.cons_append, scanNumber, hdigit, if_true, List.foldl_cons]
    rw [hval, cInt_push, ih fun d hd => hds d (List.mem_cons_of_mem _ hd)]

theorem foldl_digits (n : Nat) :
    (Nat.digits 10 n).reverse.foldl (fun (v : Int) (d : Nat) => v * 10 + d) 0 = n := by
  have h : ∀ l : List Nat, l.reverse.foldl (fun (v : Int) (d : Nat) => v * 10 + d) 0 =
      (Nat.ofDigits 10 l : Nat) := by
    intro l
    induction l with
    | nil => rfl
    | cons d l ih => simp [Nat.ofDigits_cons, ih]; omega
  rw [h, Nat.ofDigits_digits]

theorem scanNumber_decimal (n : Nat) (h : Stops isDigit cs) :
    scanNumber 0 (decimal n ++ cs) = (cInt n, cs) := by
  have hds : ∀ d ∈ (Nat.digits 10 n).reverse, d < 10 := fun d hd =>
    Nat.digits_lt_base (by decide) (List.mem_reverse.mp hd)
  have hscan := scanNumber_render (Nat.digits 10 n).reverse hds 0 h
  have hzero : cInt 0 = 0 := by decide +kernel
  rw [foldl_digits, List.map_reverse, hzero] at hscan
  exact hscan

theorem scanLength_render (modifier : Modifier) (letter : Letter) (rest : List UInt8) :
    scanLength (modifier.chars ++ letter.char :: rest) = (modifier.length, letter.char :: rest) := by
  cases modifier <;> cases letter <;> rfl

/-- What can stand behind the flags, and behind the width. -/
theorem stops_letter (modifier : Modifier) (letter : Letter) (rest : List UInt8) :
    Stops isFlag (modifier.chars ++ letter.char :: rest) ∧
    Stops isDigit (modifier.chars ++ letter.char :: rest) := by
  have h : ∀ c : UInt8, c ∈ (modifier.chars ++ letter.char :: rest).head? →
      isFlag c = false ∧ isDigit c = false := by
    intro c hc
    cases modifier <;> cases letter <;> obtain rfl := Option.some.inj hc <;> decide
  exact ⟨fun c hc => (h c hc).1, fun c hc => (h c hc).2⟩

theorem decimal_head {n : Nat} {c : UInt8} (h : c ∈ (decimal n).head?) :
    ∃ d, 0 < d ∧ d < 10 ∧ c = digitChar false d := by
  have hne : Nat.digits 10 n ≠ [] := by
    intro hnil
    simp [decimal, hnil] at h
  have hlast := Nat.getLast_digit_ne_zero 10 (m := n) (by rintro rfl; simp at hne)
  have hlt : (Nat.digits 10 n).getLast hne < 10 :=
    Nat.digits_lt_base (by decide) (List.getLast_mem hne)
  refine ⟨_, Nat.pos_of_ne_zero hlast, hlt, ?_⟩
  rw [decimal, List.head?_reverse, List.getLast?_map, List.getLast?_eq_getLast_of_ne_nil hne] at h
  exact (Option.some.inj h).symm

theorem stops_width (width : Nat) (modifier : Modifier) (letter : Letter) (rest : List UInt8) :
    Stops isFlag (decimal width ++ (modifier.chars ++ letter.char :: rest)) := by
  intro c hc
  rw [List.head?_append] at hc
  cases hd : (decimal width).head? with
  | none =>
    rw [hd, Option.none_or] at hc
    exact (stops_letter modifier letter rest).1 c hc
  | some b =>
    rw [hd, Option.some_or] at hc
    obtain rfl := Option.some.inj hc
    obtain ⟨d, hpos, hlt, rfl⟩ := decimal_head (Option.mem_def.mpr hd)
    have hall : ∀ d < 10, 0 < d → isFlag (digitChar false d) = false := by decide
    exact hall d hlt hpos

theorem scanSpec_render (flags : List Flag) (width : Nat) (modifier : Modifier) (letter : Letter)
    (rest : List UInt8) :
    scanSpec (Item.tail flags width modifier letter ++ rest) =
      (⟨flagsOf flags, cInt width, modifier.length⟩, letter.char :: rest) := by
  have hassoc : Item.tail flags width modifier letter ++ rest =
      flags.map Flag.char ++ (decimal width ++ (modifier.chars ++ letter.char :: rest)) := by
    simp [Item.tail]
  rw [hassoc, scanSpec, scanFlags_render flags _ (stops_width width modifier letter rest)]
  dsimp only
  rw [scanNumber_decimal width (stops_letter modifier letter rest).2]
  dsimp only
  rw [scanLength_render]
  simp [flagsOf]

end scan

end LosTacOS.Printf
