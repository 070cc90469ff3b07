import Mathlib

/-! `strtol` of the C library. A string is the list of its bytes up to the NUL, and a pointer into it
the list of the bytes from there on. -/
namespace LosTacOS.Libc

section code

def isSpace (c : UInt8) : Bool :=
  c = ' '.toUInt8 || c = '\t'.toUInt8 || c = '\n'.toUInt8 || c = '\r'.toUInt8 || c = 12 || c = 11

def cLong (n : Int) : Int := Int.bmod n (2^64)

def digitValue (c : UInt8) : Option Nat :=
  if '0'.toUInt8 ≤ c ∧ c ≤ '9'.toUInt8 then some (c.toNat - 48)
  else if 'a'.toUInt8 ≤ c ∧ c ≤ 'z'.toUInt8 then some (c.toNat - 97 + 10)
  else if 'A'.toUInt8 ≤ c ∧ c ≤ 'Z'.toUInt8 then some (c.toNat - 65 + 10)
  else none

def isX (c : UInt8) : Bool := c = 'x'.toUInt8 || c = 'X'.toUInt8

def takeSign (p : List UInt8) : Bool × List UInt8 :=
  if p.head? = some '-'.toUInt8 then (true, p.tail)
  else if p.head? = some '+'.toUInt8 then (false, p.tail)
  else (false, p)

def startsHex : List UInt8 → Bool
  | a :: b :: _ => a = '0'.toUInt8 && isX b
  | _ => false

def takePrefix (base : Nat) (p : List UInt8) : Nat × List UInt8 :=
  if base = 0 then
    if p.head? = some '0'.toUInt8 then if startsHex p then (16, p.drop 2) else (8, p) else (10, p)
  else if base = 16 then if startsHex p then (16, p.drop 2) else (16, p)
  else (base, p)

def takeDigits (base : Nat) (result : Int) : List UInt8 → Int × List UInt8
  | [] => (result, [])
  | c :: p =>
    match digitValue c with
    | none => (result, c :: p)
    | some digit =>
      if base ≤ digit then (result, c :: p) else takeDigits base (cLong (result * base + digit)) p

/-- `strtol`: its result and the pointer it stores in `endptr`. -/
def strtol (str : List UInt8) (base : Nat) : Int × List UInt8 :=
  let (negative, p) := takeSign (str.dropWhile isSpace)
  let (base, p) := takePrefix base p
  let (result, p) := takeDigits base 0 p
  (if negative then cLong (-result) else result, p)

end code

section numerals

def digitOf (base : Nat) (c : UInt8) : Bool := (digitValue c).any (· < base)

def digitsValue (base : Nat) (ds : List UInt8) : Nat :=
  ds.foldl (fun n c => n * base + (digitValue c).getD 0) 0

@[simp] theorem digitsValue_nil (base : Nat) : digitsValue base [] = 0 := rfl

inductive Radix (base : Nat) : List UInt8 → List UInt8 → Nat → Prop
  | plain {ds : List UInt8} : base ≠ 0 → Radix base [] ds base
  | hex {x : UInt8} {ds : List UInt8} : base = 0 ∨ base = 16 → isX x = true →
      Radix base ['0'.toUInt8, x] ds 16
  | octal {ds : List UInt8} : base = 0 → ds.head? = some '0'.toUInt8 → Radix base [] ds 8
  | decimal {ds : List UInt8} : base = 0 → ds.head? ≠ some '0'.toUInt8 → Radix base [] ds 10

def Unsigned (base : Nat) (w : List UInt8) (n : Nat) : Prop :=
  ∃ pre ds b, w = pre ++ ds ∧ Radix base pre ds b ∧ ds ≠ [] ∧ (∀ c ∈ ds, digitOf b c = true) ∧
    n = digitsValue b ds

def Numeral (base : Nat) (u : List UInt8) (v : Int) : Prop :=
  ∃ space sign w n, u = space ++ (sign ++ w) ∧ (∀ c ∈ space, isSpace c = true) ∧
    (sign = [] ∨ sign = ['+'.toUInt8] ∨ sign = ['-'.toUInt8]) ∧ Unsigned base w n ∧
    v = if sign = ['-'.toUInt8] then -(n : Int) else n

structure Longest (base : Nat) (s u : List UInt8) (v : Int) : Prop where
  begins : u <+: s
  numeral : Numeral base u v
  longest : ∀ u' v', u' <+: s → Numeral base u' v' → u'.length ≤ u.length

def NoNumeral (base : Nat) (s : List UInt8) : Prop := ∀ u v, u <+: s → ¬ Numeral base u v

/-- The result and the end pointer are those of the longest numeral, or say that there is none. -/
def Converts (base : Nat) (s : List UInt8) (r : Int × List UInt8) : Prop :=
  (∃ u, Longest base s u r.1 ∧ s = u ++ r.2) ∨ NoNumeral base s ∧ r = (0, s)

end numerals

section digits

variable {base : Nat} {c : UInt8} {p ds : List UInt8}

theorem digitOf_value (h : digitOf base c = true) : ∃ d, digitValue c = some d ∧ d < base := by
  unfold digitOf at h
  cases hv : digitValue c with
  | none =>
    rw [hv] at h
    cases h
  | some d =>
    rw [hv] at h
    exact ⟨d, rfl, by simpa using h⟩

theorem digitOf_ne (h : digitOf base c = true) :
    isSpace c = false ∧ c ≠ '+'.toUInt8 ∧ c ≠ '-'.toUInt8 := by
  obtain ⟨d, hd, -⟩ := digitOf_value h
  have hno : ∀ e : UInt8, digitValue e = none → c ≠ e := by
    rintro e he rfl
    rw [hd] at he
    cases he
  refine ⟨?_, hno _ (by decide), hno _ (by decide)⟩
  simp only [isSpace, Bool.or_eq_false_iff, decide_eq_false_iff_not]
  exact ⟨⟨⟨⟨⟨hno _ (by decide), hno _ (by decide)⟩, hno _ (by decide)⟩, hno _ (by decide)⟩,
    hno _ (by decide)⟩, hno _ (by decide)⟩

theorem digitsValue_le (b n : Nat) {t : List UInt8} (ht : ∀ c ∈ t, digitOf b c = true) :
    n ≤ t.foldl (fun n c => n * b + (digitValue c).getD 0) n := by
  induction t generalizing n with
  | nil => exact Nat.le_refl n
  | cons c t ih =>
    obtain ⟨hc, ht⟩ := List.forall_mem_cons.mp ht
    obtain ⟨d, -, hd⟩ := digitOf_value hc
    have hn : n ≤ n * b := Nat.le_mul_of_pos_right n (by omega)
    have hnext := ih (n * b + (digitValue c).getD 0) ht
    rw [List.foldl_cons]
    omega

/-- The loop reads the digits there are, and its result is their value as a `long`. -/
theorem takeDigits_eq (base n : Nat) (p : List UInt8) : takeDigits base (cLong n) p =
    (cLong ((p.takeWhile (digitOf base)).foldl (fun n c => n * base + (digitValue c).getD 0) n : Nat),
      p.dropWhile (digitOf base)) := by
  induction p generalizing n with
  | nil => rfl
  | cons c p ih =>
    rw [takeDigits]
    cases hv : digitValue c with
    | none =>
      have hc : digitOf base c = false := by simp [digitOf, hv]
      simp [hc]
    | some d =>
      dsimp only
      by_cases hd : base ≤ d
      · have hc : digitOf base c = false := by simp [digitOf, hv, hd]
        simp [hc, hd]
      · have hc : digitOf base c = true := by simp [digitOf, hv, Nat.lt_of_not_le hd]
        have hstep : cLong (cLong n * base + d) = cLong ((n * base + d : Nat) : Int) := by
          unfold cLong
          rw [Int.add_bmod, Int.bmod_mul_bmod, ← Int.add_bmod]
          simp
        rw [if_neg hd, hstep, ih]
        simp [hc, hv]

end digits

section unsigned

variable {base n : Nat} {r w p : List UInt8} {x : UInt8}

def HexStart (base : Nat) (r : List UInt8) : Prop := (base = 0 ∨ base = 16) ∧ startsHex r = true

theorem startsHex_iff : startsHex r = true ↔ ∃ x p, r = '0'.toUInt8 :: x :: p ∧ isX x = true := by
  match r with
  | [] => simp [startsHex]
  | [a] => simp [startsHex]
  | a :: b :: p =>
    simp only [startsHex, Bool.and_eq_true, decide_eq_true_eq, List.cons.injEq]
    constructor
    · rintro ⟨rfl, hb⟩
      exact ⟨b, p, ⟨rfl, rfl, rfl⟩, hb⟩
    · rintro ⟨x, q, ⟨rfl, rfl, rfl⟩, hx⟩
      exact ⟨rfl, hx⟩

theorem isX_no_digit (hx : isX x = true) {b : Nat} (hb : b ≤ 16) : digitOf b x = false := by
  have hv : digitValue x = some 33 := by
    simp only [isX, Bool.or_eq_true, decide_eq_true_eq] at hx
    rcases hx with rfl | rfl <;> decide
  simp only [digitOf, hv, Option.any_some, decide_eq_false_iff_not]
  omega

theorem takePrefix_plain (h : ¬ HexStart base r) : (takePrefix base r).2 = r := by
  unfold HexStart at h
  unfold takePrefix
  split_ifs with h0 hz hx h16 hx
  · exact absurd ⟨.inl h0, hx⟩ h
  · rfl
  · rfl
  · exact absurd ⟨.inr h16, hx⟩ h
  · rfl
  · rfl

theorem takePrefix_hex (h : HexStart base r) : takePrefix base r = (16, r.drop 2) := by
  obtain ⟨hbase, hx⟩ := h
  have hhead : r.head? = some '0'.toUInt8 := by
    obtain ⟨x, p, rfl, -⟩ := startsHex_iff.mp hx
    rfl
  unfold takePrefix
  rcases hbase with rfl | rfl
  · rw [if_pos rfl, if_pos hhead, if_pos hx]
  · rw [if_neg (by decide), if_pos rfl, if_pos hx]

theorem head_of_begins {ds : List UInt8} (h : ds <+: r) (hne : ds ≠ []) : r.head? = ds.head? := by
  obtain ⟨t, rfl⟩ := h
  exact List.head?_append_of_ne_nil _ hne

/-- Without a hexadecimal prefix a number is digits of the base that `strtol` settles on. -/
theorem Unsigned.plain (hw : Unsigned base w n) (hr : w <+: r) (h : ¬ HexStart base r) :
    w ≠ [] ∧ (∀ c ∈ w, digitOf (takePrefix base r).1 c = true) ∧
      n = digitsValue (takePrefix base r).1 w := by
  obtain ⟨pre, ds, b, rfl, hradix, hne, hall, rfl⟩ := hw
  have hb : pre = [] ∧ b = (takePrefix base r).1 := by
    unfold HexStart at h
    unfold takePrefix
    cases hradix with
    | plain h0 =>
      rw [if_neg h0]
      split_ifs with h16 <;> simp [*]
    | hex hbase hx =>
      refine absurd ⟨hbase, ?_⟩ h
      obtain ⟨t, rfl⟩ := hr
      exact startsHex_iff.mpr ⟨_, ds ++ t, rfl, hx⟩
    | octal h0 hz =>
      have hhead := head_of_begins hr hne
      rw [List.nil_append, hz] at hhead
      rw [if_pos h0, if_pos hhead, if_neg fun hx => h ⟨.inl h0, hx⟩]
      exact ⟨rfl, rfl⟩
    | decimal h0 hz =>
      have hhead := head_of_begins hr hne
      rw [List.nil_append] at hhead
      rw [if_pos h0, if_neg (by rw [hhead]; exact hz)]
      exact ⟨rfl, rfl⟩
  rw [hb.1, List.nil_append, ← hb.2]
  exact ⟨hne, hall, rfl⟩

/-- Behind a hexadecimal prefix a number is digits of base 16, or the `0` of the prefix alone. -/
theorem Unsigned.hex (hw : Unsigned base w n) (hbase : base = 0 ∨ base = 16) (hx : isX x = true)
    (hr : w <+: '0'.toUInt8 :: x :: p) : w = ['0'.toUInt8] ∧ n = 0 ∨
      ∃ ds, w = '0'.toUInt8 :: x :: ds ∧ ds ≠ [] ∧ (∀ c ∈ ds, digitOf 16 c = true) ∧
        n = digitsValue 16 ds := by
  obtain ⟨pre, ds, b, rfl, hradix, hne, hall, rfl⟩ := hw
  -- without the prefix the digits end before the `x`, which is a digit of neither base
  have hzero (hb : b ≤ 16) (hds : ds <+: '0'.toUInt8 :: x :: p) :
      ds = ['0'.toUInt8] ∧ digitsValue b ds = 0 := by
    obtain ⟨t, ht⟩ := hds
    match ds, hne with
    | [a], _ =>
      rw [List.singleton_append, List.cons.injEq] at ht
      rw [ht.1]
      exact ⟨rfl, by simp [digitsValue, show digitValue '0'.toUInt8 = some 0 by decide]⟩
    | a :: a' :: ds, _ =>
      simp only [List.cons_append, List.cons.injEq] at ht
      have hdigit := hall a' (by simp)
      rw [ht.2.1, isX_no_digit hx hb] at hdigit
      cases hdigit
  cases hradix with
  | plain h0 => exact .inl (hzero (by omega) hr)
  | octal h0 hz => exact .inl (hzero (by decide) hr)
  | decimal h0 hz =>
    rw [List.nil_append] at hr
    exact absurd (head_of_begins hr hne).symm hz
  | hex hb hx' =>
    obtain ⟨t, ht⟩ := hr
    simp only [List.cons_append, List.cons.injEq] at ht
    obtain ⟨-, rfl, -⟩ := ht
    exact .inr ⟨ds, rfl, hne, hall, rfl⟩

/-- What `takePrefix` settles: the numbers that a string begins with are the prefix and digits, apart
from a `0` whose `x` the prefix takes too. -/
structure Prefixed (base : Nat) (r pre : List UInt8) (b : Nat) (p : List UInt8) : Prop where
  split : r = pre ++ p
  number : ∀ ds, ds ≠ [] → ds <+: p → (∀ c ∈ ds, digitOf b c = true) →
    Unsigned base (pre ++ ds) (digitsValue b ds)
  only : ∀ w n, w <+: r → Unsigned base w n → w.length < pre.length ∧ n = 0 ∨
    ∃ ds, w = pre ++ ds ∧ ds ≠ [] ∧ (∀ c ∈ ds, digitOf b c = true) ∧ n = digitsValue b ds

theorem takePrefix_spec (base : Nat) (r : List UInt8) :
    ∃ pre, Prefixed base r pre (takePrefix base r).1 (takePrefix base r).2 := by
  by_cases h : HexStart base r
  · rw [takePrefix_hex h]
    obtain ⟨hbase, hx⟩ := h
    obtain ⟨x, p, rfl, hx⟩ := startsHex_iff.mp hx
    refine ⟨['0'.toUInt8, x], rfl, ?_, ?_⟩
    · intro ds hne _ hall
      exact ⟨_, ds, 16, rfl, .hex hbase hx, hne, hall, rfl⟩
    · intro w n hw hn
      rcases hn.hex hbase hx hw with ⟨rfl, hzero⟩ | ⟨ds, rfl, hds⟩
      · exact .inl ⟨Nat.one_lt_two, hzero⟩
      · exact .inr ⟨ds, rfl, hds⟩
  · refine ⟨[], ?_, ?_, ?_⟩
    · exact (takePrefix_plain h).symm
    · intro ds hne hds hall
      rw [takePrefix_plain h] at hds
      refine ⟨[], ds, _, rfl, ?_, hne, hall, rfl⟩
      have hhead := head_of_begins hds hne
      unfold HexStart at h
      unfold takePrefix
      split_ifs with h0 hz hx h16 hx
      · exact absurd ⟨.inl h0, hx⟩ h
      · exact .octal h0 (hhead ▸ hz)
      · exact .decimal h0 (hhead ▸ hz)
      · exact absurd ⟨.inr h16, hx⟩ h
      · exact h16 ▸ .plain h0
      · exact .plain h0
    · intro w n hw hn
      exact .inr ⟨w, rfl, hn.plain hw h⟩

theorem Unsigned.head (hn : Unsigned base w n) : ∃ b c t, w = c :: t ∧ digitOf b c = true := by
  obtain ⟨pre, ds, b, rfl, hradix, hne, hall, rfl⟩ := hn
  obtain ⟨c, t, rfl⟩ := List.exists_cons_of_ne_nil hne
  cases hradix with
  | hex _ _ => exact ⟨16, '0'.toUInt8, _, rfl, by decide⟩
  | _ => exact ⟨_, c, t, rfl, hall c List.mem_cons_self⟩

end unsigned

section leading

variable {base : Nat} {s : List UInt8}

def Sign (sign : List UInt8) : Prop := sign = [] ∨ sign = ['+'.toUInt8] ∨ sign = ['-'.toUInt8]

theorem takeSign_spec (p : List UInt8) : ∃ sign, p = sign ++ (takeSign p).2 ∧ Sign sign ∧
    (takeSign p).1 = decide (sign = ['-'.toUInt8]) := by
  unfold takeSign
  cases p with
  | nil => exact ⟨[], rfl, .inl rfl, by decide⟩
  | cons c p =>
    simp only [List.head?_cons, Option.some.injEq, List.tail_cons]
    split_ifs with hm hp
    · exact ⟨['-'.toUInt8], by rw [hm]; rfl, .inr (.inr rfl), rfl⟩
    · exact ⟨['+'.toUInt8], by rw [hp]; rfl, .inr (.inl rfl), rfl⟩
    · exact ⟨[], rfl, .inl rfl, rfl⟩

theorem takeSign_append {sign p : List UInt8} {b : Nat} {c : UInt8} (hsign : Sign sign)
    (hc : digitOf b c = true) :
    takeSign (sign ++ c :: p) = (decide (sign = ['-'.toUInt8]), c :: p) := by
  obtain ⟨-, hplus, hminus⟩ := digitOf_ne hc
  rcases hsign with rfl | rfl | rfl
  · simp [takeSign, hplus, hminus]
  · simp [takeSign, show '+'.toUInt8 ≠ '-'.toUInt8 by decide]
  · simp [takeSign]

/-- Behind a sign or none stands a digit, so the white space ends there. -/
theorem dropWhile_space {space sign p : List UInt8} {b : Nat} {c : UInt8}
    (hspace : ∀ e ∈ space, isSpace e = true) (hsign : Sign sign) (hc : digitOf b c = true) :
    (space ++ (sign ++ c :: p)).dropWhile isSpace = sign ++ c :: p := by
  rw [List.dropWhile_append_of_pos hspace]
  rcases hsign with rfl | rfl | rfl
  · simp [(digitOf_ne hc).1]
  · rw [List.singleton_append, List.dropWhile_cons_of_neg (by decide)]
  · rw [List.singleton_append, List.dropWhile_cons_of_neg (by decide)]

structure Leading (base : Nat) (s l : List UInt8) (negative : Bool) (r : List UInt8) : Prop where
  split : s = l ++ r
  number : ∀ w n, Unsigned base w n → Numeral base (l ++ w) (if negative then -(n : Int) else n)
  only : ∀ u v, u <+: s → Numeral base u v → ∃ w n, w <+: r ∧ Unsigned base w n ∧ u = l ++ w ∧
    v = if negative then -(n : Int) else n

theorem leading_spec (base : Nat) (s : List UInt8) : ∃ l, Leading base s l
    (takeSign (s.dropWhile isSpace)).1 (takeSign (s.dropWhile isSpace)).2 := by
  obtain ⟨sign, hsplit, hsign, hneg⟩ := takeSign_spec (s.dropWhile isSpace)
  have hs : s = s.takeWhile isSpace ++ sign ++ (takeSign (s.dropWhile isSpace)).2 := by
    rw [List.append_assoc, ← hsplit, List.takeWhile_append_dropWhile]
  refine ⟨_, hs, ?_, ?_⟩
  · intro w n hn
    refine ⟨s.takeWhile isSpace, sign, w, n, by rw [List.append_assoc], ?_, hsign, hn, ?_⟩
    · intro c hc
      exact List.mem_takeWhile_imp hc
    · simp [hneg]
  · rintro u v hu ⟨space, sign', w, n, rfl, hspace, hsign', hn, rfl⟩
    obtain ⟨b, c, t, rfl, hc⟩ := hn.head
    obtain ⟨t', rfl⟩ := hu
    have hlist : space ++ (sign' ++ c :: t) ++ t' = space ++ (sign' ++ c :: (t ++ t')) := by simp
    have hsign := takeSign_append (p := t ++ t') hsign' hc
    rw [hlist, dropWhile_space hspace hsign' hc, hsign] at hs ⊢
    have hlead : space ++ sign' = _ :=
      List.append_cancel_right ((List.append_assoc space sign' _).trans hs)
    refine ⟨c :: t, n, ⟨t', rfl⟩, hn, by rw [← hlead, List.append_assoc], ?_⟩
    simp

end leading

section conversion

variable {base : Nat} {s : List UInt8}

def skipped (base : Nat) (s : List UInt8) : Nat × List UInt8 :=
  takePrefix base (takeSign (s.dropWhile isSpace)).2

def DigitFollows (base : Nat) (s : List UInt8) : Prop :=
  (skipped base s).2.head?.any (digitOf (skipped base s).1) = true
deriving Decidable

theorem strtol_eq (base : Nat) (s : List UInt8) : strtol s base =
    let n : Nat := digitsValue (skipped base s).1
      ((skipped base s).2.takeWhile (digitOf (skipped base s).1))
    (if (takeSign (s.dropWhile isSpace)).1 then cLong (-cLong n) else cLong n,
      (skipped base s).2.dropWhile (digitOf (skipped base s).1)) := by
  have hdigits := takeDigits_eq (skipped base s).1 0 (skipped base s).2
  have hzero : cLong (0 : Nat) = 0 := by decide
  rw [hzero] at hdigits
  unfold strtol
  dsimp only
  rw [← skipped, hdigits]
  simp only [digitsValue]

theorem cLong_of {v : Int} (hlow : -2^63 ≤ v) (hhigh : v < 2^63) : cLong v = v := by
  have hlow' : -((2^64 : Nat) : Int) ≤ v * 2 := by omega
  have hhigh' : v * 2 < ((2^64 : Nat) : Int) := by omega
  exact Int.bmod_eq_of_le_mul_two hlow' hhigh'

theorem cLong_neg (v : Int) : cLong (-cLong v) = cLong (-v) := Int.bmod_neg_bmod

/-- White space, sign and prefix in front of the digits, and the numerals that begin there. -/
theorem skipped_spec (base : Nat) (s : List UInt8) : ∃ l pre,
    Leading base s l (takeSign (s.dropWhile isSpace)).1 (takeSign (s.dropWhile isSpace)).2 ∧
    Prefixed base (takeSign (s.dropWhile isSpace)).2 pre (skipped base s).1 (skipped base s).2 := by
  obtain ⟨l, hl⟩ := leading_spec base s
  obtain ⟨pre, hpre⟩ := takePrefix_spec base (takeSign (s.dropWhile isSpace)).2
  exact ⟨l, pre, hl, hpre⟩

/-- A digit follows: the longest numeral ends with the last of the digits. -/
theorem DigitFollows.longest (h : DigitFollows base s) : ∃ u v,
    Longest base s u v ∧ s = u ++ (strtol s base).2 ∧
    (strtol s base).1 = cLong v := by
  obtain ⟨l, pre, hl, hpre⟩ := skipped_spec base s
  have hstrtol := strtol_eq base s
  unfold DigitFollows at h
  generalize skipped base s = skipped at *
  obtain ⟨b, p⟩ := skipped
  dsimp only at *
  have hs : s = l ++ (pre ++ p) := by rw [← hpre.split]; exact hl.split
  have hdigits : ∀ c ∈ p.takeWhile (digitOf b), digitOf b c = true := fun c => List.mem_takeWhile_imp
  have hne : p.takeWhile (digitOf b) ≠ [] := by
    cases p with
    | nil => cases h
    | cons c p => simp_all
  have hbegin : p.takeWhile (digitOf b) <+: p := List.takeWhile_prefix _
  have hnum := hl.number _ _ (hpre.number _ hne hbegin hdigits)
  refine ⟨l ++ (pre ++ p.takeWhile (digitOf b)), _, ⟨?_, hnum, ?_⟩, ?_, ?_⟩
  · rw [hs]
    exact (List.prefix_append_right_inj _).mpr ((List.prefix_append_right_inj _).mpr hbegin)
  · intro u v hu hnum
    obtain ⟨w, n, hw, hn, rfl, -⟩ := hl.only u v hu hnum
    simp only [List.length_append]
    rcases hpre.only w n hw hn with ⟨hshort, -⟩ | ⟨ds, rfl, -, hall, -⟩
    · omega
    · rw [hpre.split] at hw
      have hds : ds <+: p := (List.prefix_append_right_inj _).mp hw
      have hrun : ds <+: p.takeWhile (digitOf b) := by
        obtain ⟨t, rfl⟩ := hds
        rw [List.takeWhile_append_of_pos hall]
        exact List.prefix_append _ _
      have hlen := hrun.length_le
      simp only [List.length_append]
      omega
  · rw [hstrtol]
    simp only [List.append_assoc, List.takeWhile_append_dropWhile]
    exact hs
  · rw [hstrtol, apply_ite cLong, cLong_neg]

/-- No digit follows: the pointer stays behind white space, sign and prefix, where no numeral ends. -/
theorem strtol_none (h : ¬ DigitFollows base s) : strtol s base = (0, (skipped base s).2) ∧
    ∀ u v, u <+: s → Numeral base u v → s ≠ u ++ (skipped base s).2 := by
  obtain ⟨l, pre, hl, hpre⟩ := skipped_spec base s
  have hstrtol := strtol_eq base s
  unfold DigitFollows at h
  generalize skipped base s = skipped at *
  obtain ⟨b, p⟩ := skipped
  dsimp only at *
  have hhead : ∀ c t, p = c :: t → digitOf b c = false := by
    rintro c t rfl
    simpa using h
  constructor
  · have htake : p.takeWhile (digitOf b) = [] := by
      cases p with
      | nil => rfl
      | cons c p => simp [hhead c p rfl]
    have hdrop : p.dropWhile (digitOf b) = p := by
      cases p with
      | nil => rfl
      | cons c p => simp [hhead c p rfl]
    have hzero : cLong 0 = 0 := by decide
    rw [hstrtol, htake, hdrop, digitsValue_nil, Int.natCast_zero, hzero]
    simp [hzero]
  · rintro u v hu hnum hend
    obtain ⟨w, n, hw, hn, rfl, -⟩ := hl.only u v hu hnum
    have hwp : w ++ p = pre ++ p := by
      rw [← hpre.split]
      refine @List.append_cancel_left _ l _ _ ?_
      rw [← List.append_assoc, ← hend]
      exact hl.split
    have hwpre := List.append_cancel_right hwp
    rcases hpre.only w n hw hn with ⟨hshort, -⟩ | ⟨ds, rfl, hne, hall, -⟩
    · rw [hwpre] at hshort
      exact absurd hshort (lt_irrefl _)
    · exact hne (List.append_right_eq_self.mp hwpre)

/-- Where nothing was skipped and no digit follows, the string begins with no numeral. -/
theorem noNumeral (h : ¬ DigitFollows base s) (hs : (skipped base s).2 = s) : NoNumeral base s := by
  obtain ⟨l, pre, hl, hpre⟩ := skipped_spec base s
  unfold DigitFollows at h
  generalize skipped base s = skipped at *
  obtain ⟨b, p⟩ := skipped
  dsimp only at *
  subst hs
  have hnil : l = [] ∧ pre = [] := by
    have hsplit := hl.split
    rw [hpre.split, ← List.append_assoc, List.self_eq_append_left, List.append_eq_nil_iff] at hsplit
    exact hsplit
  intro u v hu hnum
  obtain ⟨w, n, hw, hn, rfl, -⟩ := hl.only u v hu hnum
  rcases hpre.only w n hw hn with ⟨hshort, -⟩ | ⟨ds, rfl, hne, hall, -⟩
  · rw [hnil.2] at hshort
    exact absurd hshort (Nat.not_lt_zero _)
  · obtain ⟨c, t, rfl⟩ := List.exists_cons_of_ne_nil hne
    rw [hnil.1, hnil.2] at hu
    have hhead := head_of_begins hu (by simp)
    simp only [List.nil_append, List.head?_cons] at hhead
    rw [hhead, Option.any_some] at h
    exact h (hall c List.mem_cons_self)

/-- Where something was skipped for nothing, the end pointer is wrong. -/
theorem not_converts (h : ¬ DigitFollows base s) (hs : (skipped base s).2 ≠ s) :
    ¬ Converts base s (strtol s base) := by
  obtain ⟨hstrtol, hnone⟩ := strtol_none h
  rw [hstrtol]
  rintro (⟨u, hlongest, hsplit⟩ | ⟨-, heq⟩)
  · exact hnone u _ hlongest.begins hlongest.numeral hsplit
  · exact hs (Prod.mk.inj heq).2

/-- No numeral that a string begins with is larger than all the digits there are. -/
theorem fits_of_digits (h : digitsValue (skipped base s).1
    ((skipped base s).2.takeWhile (digitOf (skipped base s).1)) < 2^63) :
    ∀ u v, Longest base s u v → -2^63 ≤ v ∧ v < 2^63 := by
  intro u v hlongest
  obtain ⟨l, pre, hl, hpre⟩ := skipped_spec base s
  obtain ⟨w, n, hw, hn, -, rfl⟩ := hl.only u v hlongest.begins hlongest.numeral
  have hbound : n < 2^63 := by
    rcases hpre.only w n hw hn with ⟨-, rfl⟩ | ⟨ds, rfl, -, hall, rfl⟩
    · decide
    · rw [hpre.split] at hw
      have hds := (List.prefix_append_right_inj _).mp hw
      obtain ⟨t, ht⟩ := hds
      rw [← ht, List.takeWhile_append_of_pos hall] at h
      unfold digitsValue at h ⊢
      rw [List.foldl_append] at h
      exact lt_of_le_of_lt (digitsValue_le _ _ fun c => List.mem_takeWhile_imp) h
  split_ifs <;> omega

/-- `strtol` converts a string whose number fits in a `long` if a digit follows white space, sign and
prefix, or there was none of these, and no other string. -/
theorem strtol_converts_iff
    (hfits : ∀ u v, Longest base s u v → -2^63 ≤ v ∧ v < 2^63) :
    Converts base s (strtol s base) ↔ DigitFollows base s ∨ (skipped base s).2 = s := by
  by_cases h : DigitFollows base s
  · obtain ⟨u, v, hlongest, hsplit, hvalue⟩ := h.longest
    obtain ⟨hlow, hhigh⟩ := hfits u v hlongest
    rw [cLong_of hlow hhigh] at hvalue
    apply iff_of_true
    · refine .inl ⟨u, ?_, hsplit⟩
      rw [hvalue]
      exact hlongest
    · exact .inl h
  · simp only [h, false_or]
    constructor
    · intro hconverts
      by_contra hs
      exact not_converts h hs hconverts
    · intro hs
      refine .inr ⟨noNumeral h hs, ?_⟩
      rw [(strtol_none h).1, hs]

theorem strtol_negative : Converts 0 [' '.toUInt8, '-'.toUInt8, '0'.toUInt8, '1'.toUInt8, '7'.toUInt8]
    (-15, []) :=
  (@strtol_converts_iff 0 [' '.toUInt8, '-'.toUInt8, '0'.toUInt8, '1'.toUInt8, '7'.toUInt8]
    (fits_of_digits (by decide))).mpr (.inl (by decide))

/-- In `0x` the number is `0`, but the end pointer stands behind the `x`. -/
theorem strtol_bare_hex : ¬ ∀ (base : Nat) (s : List UInt8), base = 0 ∨ 2 ≤ base ∧ base ≤ 36 →
    (∀ u v, Longest base s u v → -2^63 ≤ v ∧ v < 2^63) → Converts base s (strtol s base) := by
  intro h
  refine @not_converts 16 ['0'.toUInt8, 'x'.toUInt8] (by decide) (by decide) ?_
  exact h 16 _ (.inr (by decide)) (fits_of_digits (by decide))

end conversion

end LosTacOS.Libc
