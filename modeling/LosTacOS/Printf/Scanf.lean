import LosTacOS.Printf.Justify
import LosTacOS.Printf.Overrun
import Mathlib.Data.List.TakeWhile

/-! The library's scanner of strings, and what it makes of the numbers that the formatter writes. -/
namespace LosTacOS.Printf

open Emit

def Length.bits : Length → Nat
  | .int => 32
  | _ => 64

inductive Stored where
  | str (s : List UInt8)
  | char (c : UInt8)
  | number (length : Length) (bits : Nat)
deriving DecidableEq

section code

def isBlank (c : UInt8) : Bool := c = ' '.toUInt8 || c = '\t'.toUInt8 || c = '\n'.toUInt8
def isSpace (c : UInt8) : Bool := isBlank c || c = '\r'.toUInt8

/-- A signed number as one of `bits` bits. -/
def wrap (length : Length) (n : Int) : Int := Int.bmod n (2^length.bits)

def storeNumber (length : Length) (n : Int) : Stored :=
  .number length (n % 2^length.bits).toNat

/-- The length modifiers of `vsscanf`. -/
def scanfLength : List UInt8 → Length × List UInt8
  | [] => (.int, [])
  | c :: fmt =>
    if c = 'l'.toUInt8 then
      match fmt with
      | [] => (.long, [])
      | d :: rest => if d = 'l'.toUInt8 then (.longLong, rest) else (.long, d :: rest)
    else if c = 'h'.toUInt8 then
      match fmt with
      | [] => (.int, [])
      | d :: rest => if d = 'h'.toUInt8 then (.int, rest) else (.int, d :: rest)
    else (.int, c :: fmt)

def scanWord (width : Int) (buf : List UInt8) : List UInt8 → List UInt8 × List UInt8
  | [] => (buf, [])
  | c :: p =>
    if isSpace c then (buf, c :: p)
    else scanWord width (if width = 0 ∨ buf.length < width then buf ++ [c] else buf) p

def scanDecimal (width : Int) (val read : Nat) : List UInt8 → Nat × List UInt8
  | [] => (val, [])
  | c :: p =>
    if isDigit c then
      if 0 < width ∧ width ≤ read then (val, c :: p)
      else scanDecimal width ((val * 10 + (c.toNat - 48)) % 2^64) (read + 1) p
    else (val, c :: p)

def hexDigit (c : UInt8) : Option Nat :=
  if isDigit c then some (c.toNat - 48)
  else if 'a'.toUInt8 ≤ c ∧ c ≤ 'f'.toUInt8 then some (c.toNat - 'a'.toNat + 10)
  else if 'A'.toUInt8 ≤ c ∧ c ≤ 'F'.toUInt8 then some (c.toNat - 'A'.toNat + 10)
  else none

def scanHex (width : Int) (val read : Nat) : List UInt8 → Nat × Nat × List UInt8
  | [] => (val, read, [])
  | c :: p =>
    if 0 < width ∧ width ≤ read then (val, read, c :: p)
    else
      match hexDigit c with
      | some d => scanHex width ((val <<< 4 ||| d) % 2^64) (read + 1) p
      | none => (val, read, c :: p)

def skipPrefix : List UInt8 → List UInt8
  | z :: x :: p =>
    if z = '0'.toUInt8 ∧ (x = 'x'.toUInt8 ∨ x = 'X'.toUInt8) then p else z :: x :: p
  | p => p

def skipSign : List UInt8 → Int × List UInt8
  | [] => (1, [])
  | c :: p =>
    if c = '-'.toUInt8 then (-1, p) else if c = '+'.toUInt8 then (1, p) else (1, c :: p)

/-- A conversion: the string behind and what it stores. Where the loop over the format is left, there
is no result. -/
def scanConv (width : Int) (length : Length) (conv : UInt8) (p : List UInt8) :
    Option (List UInt8 × Option Stored) :=
  if conv = 's'.toUInt8 then
    let p := p.dropWhile isSpace
    if p = [] then none
    else
      let (buf, p) := scanWord width [] p
      some (p, some (.str buf))
  else if conv = 'd'.toUInt8 ∨ conv = 'i'.toUInt8 ∨ conv = 'u'.toUInt8 then
    let p := p.dropWhile isSpace
    if p = [] then none
    else
      let (sign, p) := skipSign p
      if p.head?.any isDigit then
        let (val, p) := scanDecimal width 0 0 p
        some (p, some (storeNumber length (wrap length val * sign)))
      else none
  else if conv = 'x'.toUInt8 ∨ conv = 'X'.toUInt8 then
    let (val, read, p) := scanHex width 0 0 (skipPrefix (p.dropWhile isSpace))
    if read = 0 then none else some (p, some (storeNumber length val))
  else if conv = 'c'.toUInt8 then
    match p with
    | [] => none
    | c :: p => some (p, some (.char c))
  else if conv = '%'.toUInt8 then
    if p.head? = some '%'.toUInt8 then some (p.tail, none) else none
  else some (p, none)

theorem scanfLength_shrinks (fmt : List UInt8) : (scanfLength fmt).2.length ≤ fmt.length := by
  cases fmt with
  | nil => simp [scanfLength]
  | cons c fmt => cases fmt <;> simp only [scanfLength] <;> split_ifs <;> simp <;> omega

/-- The loop over the format: how many conversions stored something, and what. -/
def scanLoop (count : Nat) (stored : List Stored) (fmt p : List UInt8) : Nat × List Stored :=
  match fmt with
  | [] => (count, stored)
  | f :: fmt =>
    if f ≠ '%'.toUInt8 then
      if isBlank f then scanLoop count stored fmt (p.dropWhile isBlank)
      else if p.head? = some f then scanLoop count stored fmt p.tail
      else (count, stored)
    else
      let spec := scanfLength (scanNumber 0 fmt).2
      match _h : spec.2 with
      | [] => (count, stored)
      | conv :: rest =>
        match scanConv (scanNumber 0 fmt).1 spec.1 conv p with
        | none => (count, stored)
        | some (p, none) => scanLoop count stored rest p
        | some (p, some st) => scanLoop (count + 1) (stored ++ [st]) rest p
termination_by fmt.length
decreasing_by
  · simp
  · simp
  all_goals
    have h1 := scanNumber_shrinks 0 fmt
    have h2 := scanfLength_shrinks (scanNumber 0 fmt).2
    rw [_h] at h2
    simp only [List.length_cons] at h2 ⊢
    omega

def vsscanf (str fmt : List UInt8) : Nat × List Stored := scanLoop 0 [] fmt str

end code

section digits

variable {rest ds' : List UInt8} {ds : List Nat} {v val read m : Nat} {upper : Bool}

def rowValue (base : Nat) (ds : List Nat) : Nat := ds.foldl (fun v d => v * base + d) 0

theorem rowValue_reverse (base : Nat) (ds : List Nat) :
    rowValue base ds.reverse = Nat.ofDigits base ds := by
  induction ds with
  | nil => rfl
  | cons d ds ih =>
    rw [List.reverse_cons, rowValue, List.foldl_append]
    change rowValue base ds.reverse * base + d = _
    rw [ih, Nat.ofDigits_cons]
    ring

theorem rowValue_field (mode : Mode) (z v : Nat) :
    rowValue mode.base (List.replicate z 0 ++ (digits mode.base v).reverse) = v := by
  have hzeros : ∀ z, (List.replicate z 0).foldl (fun v d => v * mode.base + d) 0 = 0 := by
    intro z
    induction z with
    | zero => rfl
    | succ z ih => simpa [List.replicate_succ] using ih
  have hdigits : Nat.ofDigits mode.base (digits mode.base v) = v := by
    unfold digits
    split
    · next h => simp [h]
    · exact Nat.ofDigits_digits _ _
  rw [rowValue, List.foldl_append, hzeros]
  exact (rowValue_reverse _ _).trans hdigits

theorem scanDecimal_digits (hds : ∀ d ∈ ds, d < 10) (hrest : Stops isDigit rest) (val read : Nat) :
    scanDecimal 0 (val % 2^64) read (ds.map (digitChar upper) ++ rest) =
      (ds.foldl (fun v d => v * 10 + d) val % 2^64, rest) := by
  induction ds generalizing val read with
  | nil =>
    cases rest with
    | nil => rfl
    | cons c rest => simp [scanDecimal, hrest c rfl]
  | cons d ds ih =>
    have hall : ∀ u : Bool, ∀ d < 10, isDigit (digitChar u d) = true ∧
        (digitChar u d).toNat - 48 = d := by decide
    obtain ⟨hdigit, hval⟩ := hall upper d (hds d List.mem_cons_self)
    have hmod : (val % 2^64 * 10 + d) % 2^64 = (val * 10 + d) % 2^64 := by omega
    simp only [List.map_cons, List.cons_append, scanDecimal, hdigit, if_true, hval, hmod,
      List.foldl_cons]
    rw [if_neg (by omega), ih fun d hd => hds d (List.mem_cons_of_mem _ hd)]

theorem scanHex_digits (hds : ∀ d ∈ ds, d < 16) (hrest : Stops (fun c => (hexDigit c).isSome) rest)
    (val read : Nat) :
    scanHex 0 (val % 2^64) read (ds.map (digitChar upper) ++ rest) =
      (ds.foldl (fun v d => v * 16 + d) val % 2^64, read + ds.length, rest) := by
  induction ds generalizing val read with
  | nil =>
    cases rest with
    | nil => rfl
    | cons c rest =>
      have hc : hexDigit c = none := by simpa using hrest c rfl
      simp [scanHex, hc]
  | cons d ds ih =>
    have hlt := hds d List.mem_cons_self
    have hall : ∀ u : Bool, ∀ d < 16, hexDigit (digitChar u d) = some d := by decide
    have hshift : ((val % 2^64) <<< 4 ||| d) % 2^64 = (val * 16 + d) % 2^64 := by
      rw [← Nat.shiftLeft_add_eq_or_of_lt hlt, Nat.shiftLeft_eq]
      omega
    simp only [List.map_cons, List.cons_append, scanHex, hall upper d hlt, hshift, List.foldl_cons]
    rw [if_neg (by omega), ih fun d hd => hds d (List.mem_cons_of_mem _ hd), List.length_cons]
    congr 2
    omega

end digits

section fields

variable {v width : Nat} {neg zero left upper : Bool} {mode : Mode} {length : Length} {w : Int}

/-- A field: blanks, the sign, the digits with zeros in front, and blanks again. -/
theorem justify_form (zero left : Bool) (w : Int) (sign ds : List UInt8) : ∃ m z t : Nat,
    justify zero left w sign ds = List.replicate m ' '.toUInt8 ++
      (sign ++ (List.replicate z '0'.toUInt8 ++ ds ++ List.replicate t ' '.toUInt8)) := by
  unfold justify
  generalize (w - (sign.length + ds.length)).toNat = n
  cases left with
  | true => exact ⟨0, 0, n, by simp⟩
  | false =>
    cases zero with
    | true => exact ⟨0, n, 0, by simp⟩
    | false => exact ⟨n, 0, 0, by simp⟩

def row (mode : Mode) (z v : Nat) : List Nat := List.replicate z 0 ++ (digits mode.base v).reverse

theorem row_ne_nil (mode : Mode) (z v : Nat) : row mode z v ≠ [] := by
  simp [row, digits_ne_nil]

theorem row_lt {d z : Nat} (h : d ∈ row mode z v) : d < mode.base := by
  rw [row, List.mem_append, List.mem_reverse] at h
  rcases h with h | h
  · rw [List.eq_of_mem_replicate h]
    exact (Nat.zero_lt_one).trans mode.one_lt_base
  · exact digits_lt mode.one_lt_base h

theorem row_chars (mode : Mode) (upper : Bool) (z v : Nat) :
    List.replicate z '0'.toUInt8 ++ shown v mode upper = (row mode z v).map (digitChar upper) := by
  have hzero : digitChar upper 0 = '0'.toUInt8 := by cases upper <;> decide
  rw [row, List.map_append, List.map_replicate, hzero, List.map_reverse]
  rfl

theorem dropWhile_blanks (m : Nat) {p : List UInt8} (h : Stops isSpace p) :
    (List.replicate m ' '.toUInt8 ++ p).dropWhile isSpace = p := by
  rw [List.dropWhile_append_of_pos]
  · cases p with
    | nil => rfl
    | cons c p => simp [h c rfl]
  · intro c hc
    rw [List.eq_of_mem_replicate hc]
    decide

theorem row_head {z : Nat} (rest : List UInt8) {c : UInt8}
    (h : c ∈ ((row mode z v).map (digitChar upper) ++ rest).head?) :
    ∃ d, d < mode.base ∧ c = digitChar upper d := by
  cases hrow : row mode z v with
  | nil => exact absurd hrow (row_ne_nil mode z v)
  | cons d ds =>
    rw [hrow] at h
    exact ⟨d, row_lt (hrow ▸ List.mem_cons_self), (Option.some.inj h).symm⟩

theorem stops_blanks {f : UInt8 → Bool} (h : f ' '.toUInt8 = false) (t : Nat) :
    Stops f (List.replicate t ' '.toUInt8) := by
  intro c hc
  rw [List.eq_of_mem_replicate (List.mem_of_mem_head? hc)]
  exact h

theorem digitChar_plain : ∀ upper : Bool, ∀ d < 16, isSpace (digitChar upper d) = false ∧
    digitChar upper d ≠ 'x'.toUInt8 ∧ digitChar upper d ≠ 'X'.toUInt8 ∧
    digitChar upper d ≠ '-'.toUInt8 ∧ digitChar upper d ≠ '+'.toUInt8 := by decide

theorem Mode.base_le (mode : Mode) : mode.base ≤ 16 := by cases mode <;> decide

theorem skipPrefix_eq {p : List UInt8} (h : ∀ c ∈ p, c ≠ 'x'.toUInt8 ∧ c ≠ 'X'.toUInt8) :
    skipPrefix p = p := by
  match p with
  | [] => rfl
  | [_] => rfl
  | z :: x :: p =>
    obtain ⟨hx, hX⟩ := h x (by simp)
    simp [skipPrefix, hx, hX]

/-- `vsscanf` reads the number of a decimal field. -/
theorem scanConv_decimal {conv : UInt8}
    (hconv : conv = 'd'.toUInt8 ∨ conv = 'i'.toUInt8 ∨ conv = 'u'.toUInt8) (hv : v < 2^64) :
    ∃ p, scanConv 0 length conv (justify zero left w (minus neg) (shown v .decimal upper)) =
      some (p, some (storeNumber length (wrap length v * if neg then -1 else 1))) := by
  obtain ⟨m, z, t, hform⟩ := justify_form zero left w (minus neg) (shown v .decimal upper)
  rw [hform, row_chars]
  generalize hrow : (row .decimal z v).map (digitChar upper) ++ List.replicate t ' '.toUInt8 = q
  have hhead : ∀ c ∈ q.head?, ∃ d, d < 10 ∧ c = digitChar upper d := by
    intro c hc
    rw [← hrow] at hc
    exact row_head _ hc
  have hne : q ≠ [] := by
    rw [← hrow]
    simp [row_ne_nil]
  have hspace : Stops isSpace (minus neg ++ q) := by
    intro c hc
    cases neg with
    | true =>
      obtain rfl := Option.some.inj hc
      decide
    | false =>
      obtain ⟨d, hd, rfl⟩ := hhead c hc
      exact (digitChar_plain upper d (by omega)).1
  have hsign : skipSign (minus neg ++ q) = (if neg then -1 else 1, q) := by
    cases neg with
    | true => rfl
    | false =>
      cases hq : q with
      | nil => exact absurd hq hne
      | cons c q' =>
        obtain ⟨d, hd, rfl⟩ := hhead c (by rw [hq]; rfl)
        obtain ⟨-, -, -, hminus, hplus⟩ := digitChar_plain upper d (by omega)
        simp [minus, skipSign, hminus, hplus]
  have hdigit : q.head?.any isDigit := by
    cases hq : q with
    | nil => exact absurd hq hne
    | cons c q' =>
      obtain ⟨d, hd, rfl⟩ := hhead c (by rw [hq]; rfl)
      have hall : ∀ u : Bool, ∀ d < 10, isDigit (digitChar u d) = true := by decide
      simpa using hall upper d hd
  have hvalue : scanDecimal 0 0 0 q = (v, List.replicate t ' '.toUInt8) := by
    have hscan := @scanDecimal_digits (List.replicate t ' '.toUInt8) (row .decimal z v) upper
      (fun d hd => row_lt hd) (stops_blanks (by decide) t) 0 0
    rw [← hrow]
    refine hscan.trans ?_
    have hrowv : (row .decimal z v).foldl (fun v d => v * 10 + d) 0 = v := rowValue_field .decimal z v
    rw [hrowv, Nat.mod_eq_of_lt hv]
  have hfield : minus neg ++ q ≠ [] := by simp [hne]
  refine ⟨List.replicate t ' '.toUInt8, ?_⟩
  unfold scanConv
  rw [if_neg, if_pos hconv]
  · dsimp only
    rw [dropWhile_blanks m hspace, if_neg hfield, hsign]
    dsimp only
    rw [if_pos hdigit, hvalue]
  · rcases hconv with rfl | rfl | rfl <;> decide

/-- `vsscanf` reads the number of a hexadecimal field. -/
theorem scanConv_hex {conv : UInt8} (hconv : conv = 'x'.toUInt8 ∨ conv = 'X'.toUInt8)
    (hv : v < 2^64) :
    ∃ p, scanConv 0 length conv (justify zero left w [] (shown v .hex upper)) =
      some (p, some (storeNumber length v)) := by
  obtain ⟨m, z, t, hform⟩ := justify_form zero left w [] (shown v .hex upper)
  rw [hform, row_chars, List.nil_append]
  have hchars : ∀ c ∈ (row .hex z v).map (digitChar upper) ++ List.replicate t ' '.toUInt8,
      c ≠ 'x'.toUInt8 ∧ c ≠ 'X'.toUInt8 := by
    intro c hc
    rcases List.mem_append.mp hc with hc | hc
    · obtain ⟨d, hd, rfl⟩ := List.mem_map.mp hc
      obtain ⟨-, hx, hX, -⟩ := digitChar_plain upper d (row_lt hd)
      exact ⟨hx, hX⟩
    · rw [List.eq_of_mem_replicate hc]
      decide
  have hspace : Stops isSpace ((row .hex z v).map (digitChar upper) ++
      List.replicate t ' '.toUInt8) := by
    intro c hc
    obtain ⟨d, hd, rfl⟩ := row_head _ hc
    exact (digitChar_plain upper d hd).1
  have hvalue := @scanHex_digits (List.replicate t ' '.toUInt8) (row .hex z v) upper
    (fun d hd => row_lt hd) (stops_blanks (by decide) t) 0 0
  have hrowv : (row .hex z v).foldl (fun v d => v * 16 + d) 0 = v := rowValue_field .hex z v
  rw [hrowv, Nat.mod_eq_of_lt hv, Nat.zero_mod, Nat.zero_add] at hvalue
  have hread : (row .hex z v).length ≠ 0 := by simpa using row_ne_nil .hex z v
  refine ⟨List.replicate t ' '.toUInt8, ?_⟩
  unfold scanConv
  rw [if_neg, if_neg, if_pos hconv]
  · rw [dropWhile_blanks m hspace, skipPrefix_eq hchars, hvalue]
    dsimp only
    rw [if_neg hread]
  · rcases hconv with rfl | rfl <;> decide
  · rcases hconv with rfl | rfl <;> decide

end fields

section bits

variable {length : Length} {n : Int}

theorem wrap_mul_mod (length : Length) (n s : Int) :
    wrap length n * s % 2^length.bits = n * s % 2^length.bits := by
  have hwrap : wrap length n % 2^length.bits = n % 2^length.bits := by
    have h := @Int.bmod_emod n (2^length.bits)
    push_cast at h
    exact h
  rw [Int.mul_emod, hwrap, ← Int.mul_emod]

theorem signed_mod (a : Arg) (length : Length) :
    (a.signed length % 2^length.bits).toNat = a.unsigned length := by
  have hword := a.word.toNat_lt
  cases length with
  | int =>
    have h := @Int.bmod_emod a.word.toNat (2^32)
    unfold Arg.signed Arg.unsigned Length.bits
    dsimp only
    omega
  | _ =>
    have h := @Int.bmod_emod a.word.toNat (2^64)
    unfold Arg.signed Arg.unsigned Length.bits
    dsimp only
    omega

/-- A signed number comes back with the bits of the argument. -/
theorem store_signed (a : Arg) (length : Length) :
    storeNumber length (wrap length (magnitude (a.signed length)) *
      if a.signed length < 0 then -1 else 1) = .number length (a.unsigned length) := by
  have hvalue : (magnitude (a.signed length) : Int) * (if a.signed length < 0 then -1 else 1) =
      a.signed length := by
    rw [magnitude_signed]
    split <;> omega
  unfold storeNumber
  rw [wrap_mul_mod, hvalue, signed_mod]

theorem store_unsigned (a : Arg) (length : Length) :
    storeNumber length (a.unsigned length) = .number length (a.unsigned length) := by
  have hlt : a.unsigned length < 2^length.bits := by
    have hword := a.word.toNat_lt
    cases length with
    | int => exact Nat.mod_lt _ (by decide)
    | _ => exact hword
  unfold storeNumber
  congr 1
  have hcast : (a.unsigned length : Int) < 2^length.bits := by exact_mod_cast hlt
  rw [Int.emod_eq_of_lt (Int.natCast_nonneg _) hcast, Int.toNat_natCast]

theorem wrap_unsigned (a : Arg) (length : Length) :
    wrap length (a.unsigned length) = a.signed length := by
  cases length with
  | int =>
    unfold wrap Arg.unsigned Arg.signed Length.bits
    dsimp only
    push_cast
    exact Int.emod_bmod _ _
  | _ => rfl

end bits

section round

variable {modifier : Modifier} {letter : Letter} {text : List UInt8} {st : Stored} {p : List UInt8}

theorem vsscanf_conv (hmodifier : modifier ∈ [Modifier.none, .l, .ll])
    (h : scanConv 0 modifier.length letter.char text = some (p, some st)) :
    vsscanf text (render [.conv [] 0 modifier letter]) = (1, [st]) := by
  have hfmt : render [.conv [] 0 modifier letter] =
      '%'.toUInt8 :: (modifier.chars ++ [letter.char]) := by
    simp [render, Item.render, Item.tail, decimal]
  have hnumber : scanNumber 0 (modifier.chars ++ [letter.char]) =
      (0, modifier.chars ++ [letter.char]) := by
    have hstops := (stops_letter modifier letter []).2
    cases hchars : modifier.chars ++ [letter.char] with
    | nil => simp at hchars
    | cons c cs =>
      rw [hchars] at hstops
      simp [scanNumber, hstops c rfl]
  have hlength : scanfLength (modifier.chars ++ [letter.char]) =
      (modifier.length, [letter.char]) := by
    simp only [List.mem_cons, List.not_mem_nil, or_false] at hmodifier
    rcases hmodifier with rfl | rfl | rfl <;> cases letter <;> rfl
  unfold vsscanf
  rw [hfmt, scanLoop.eq_def]
  dsimp only
  rw [if_neg (by simp)]
  split
  · next hnil =>
    rw [hnumber, hlength] at hnil
    cases hnil
  · next conv rest hcons =>
    rw [hnumber, hlength] at hcons
    obtain ⟨rfl, rfl⟩ := List.cons.inj hcons
    rw [hnumber, hlength, h]
    dsimp only
    rw [scanLoop.eq_def]
    rfl

/-- What a numeric conversion prints is read back with the bits of the argument. -/
theorem scanConv_number (a : Arg) (zero left : Bool) (w : Int) (length : Length)
    (hletter : letter ∈ [Letter.d, .u, .x, .X]) : ∃ v neg mode upper,
      letter.number a length = some (v, neg, mode, upper) ∧
        ∃ p, scanConv 0 length letter.char (justify zero left w (minus neg) (shown v mode upper)) =
          some (p, some (.number length (a.unsigned length))) := by
  simp only [List.mem_cons, List.not_mem_nil, or_false] at hletter
  rcases hletter with rfl | rfl | rfl | rfl
  · refine ⟨_, _, _, _, rfl, ?_⟩
    have hscan := @scanConv_decimal (magnitude (a.signed length)) (a.signed length < 0) zero left
      false length w _ (.inl rfl) (magnitude_lt a length)
    simp only [decide_eq_true_eq, store_signed] at hscan
    exact hscan
  · refine ⟨_, _, _, _, rfl, ?_⟩
    have hscan := @scanConv_decimal (a.unsigned length) false zero left false length w _
      (.inr (.inr rfl)) (unsigned_lt a length)
    have hstore : storeNumber length (wrap length (a.unsigned length) * 1) =
        .number length (a.unsigned length) := by
      unfold storeNumber
      rw [wrap_mul_mod, mul_one]
      exact store_unsigned a length
    simp only [Bool.false_eq_true, if_false, hstore] at hscan
    exact hscan
  · refine ⟨_, _, _, _, rfl, ?_⟩
    have hscan := @scanConv_hex (a.unsigned length) zero left false length w _ (.inl rfl)
      (unsigned_lt a length)
    rw [store_unsigned] at hscan
    exact hscan
  · refine ⟨_, _, _, _, rfl, ?_⟩
    have hscan := @scanConv_hex (a.unsigned length) zero left true length w _ (.inr rfl)
      (unsigned_lt a length)
    rw [store_unsigned] at hscan
    exact hscan

theorem cString_eq (h : ∀ c ∈ text, c ≠ 0) : cString text = text := by
  unfold cString
  rw [List.takeWhile_eq_self_iff]
  simpa using h

theorem justify_ne_zero {zero left neg upper : Bool} {w : Int} {v : Nat} {mode : Mode} {c : UInt8}
    (h : c ∈ justify zero left w (minus neg) (shown v mode upper)) : c ≠ 0 := by
  obtain ⟨m, z, t, hform⟩ := justify_form zero left w (minus neg) (shown v mode upper)
  rw [hform, row_chars] at h
  have hdigits : ∀ u : Bool, ∀ d < 16, digitChar u d ≠ 0 := by decide
  simp only [List.mem_append] at h
  rcases h with h | h | h | h
  · rw [List.eq_of_mem_replicate h]
    decide
  · cases neg with
    | true =>
      rw [List.mem_singleton.mp h]
      decide
    | false => cases h
  · obtain ⟨d, hd, rfl⟩ := List.mem_map.mp h
    exact hdigits upper d ((row_lt hd).trans_le mode.base_le)
  · rw [List.eq_of_mem_replicate h]
    decide

theorem libWhole_number (a : Arg) (words : List Arg) (doubles : List Double) (flags : List Flag)
    {width v : Nat} {neg upper : Bool} {mode : Mode} (hwidth : width ≤ 63)
    (h : letter.number a modifier.length = some (v, neg, mode, upper)) :
    libWhole (render [.conv flags width modifier letter]) ⟨a :: words, doubles⟩ =
      justify (flagsOf flags).zero (flagsOf flags).left width (minus neg) (shown v mode upper) := by
  have htext := (@number_texts (a :: words) flags width _ _ _ _ _ _ h).1
  rw [libWhole_render, texts_cons, texts_nil, List.flatten_cons, List.flatten_nil, List.append_nil,
    htext, paddedText_eq, cInt_of_small (by omega) (by omega)]

/-- What `vsnprintf` writes for an integer in a field of at most 63 characters `vsscanf` reads back
with the same conversion, for every value. -/
theorem vsscanf_vsnprintf (a : Arg) (words : List Arg) (doubles : List Double) (flags : List Flag)
    {width : Nat} (hwidth : width ≤ 63) (hmodifier : modifier ∈ [Modifier.none, .l, .ll])
    (hletter : letter ∈ [Letter.d, .u, .x, .X]) (before buf after : List UInt8)
    (hbuf : 64 ≤ buf.length) :
    ∃ buf' r, vsnprintf (before ++ buf ++ after) before.length buf.length
        (render [.conv flags width modifier letter]) ⟨a :: words, doubles⟩ =
          some (before ++ buf' ++ after, r) ∧
      ∃ n, vsscanf (cString buf') (render [.conv [] 0 modifier letter]) =
          (1, [.number modifier.length n]) ∧
        n = a.unsigned modifier.length ∧ wrap modifier.length n = a.signed modifier.length := by
  obtain ⟨v, neg, mode, upper, hnumber, p, hscan⟩ := scanConv_number a (flagsOf flags).zero
    (flagsOf flags).left width modifier.length hletter
  have hwhole := libWhole_number a words doubles flags hwidth hnumber
  generalize htext : justify (flagsOf flags).zero (flagsOf flags).left width (minus neg)
    (shown v mode upper) = text at hscan hwhole
  have hlen : text.length ≤ 63 := by
    have hlaw := justify_length (flagsOf flags).zero (flagsOf flags).left width (minus neg)
      (shown v mode upper)
    have hdigits := @shown_length_le v (number_lt hnumber) mode upper
    have hsign : (minus neg).length ≤ 1 := by cases neg <;> decide
    rw [htext] at hlaw
    omega
  have hzero : ∀ c ∈ text, c ≠ 0 := fun c hc => justify_ne_zero (htext ▸ hc)
  obtain ⟨buf', hprint, -, hbegins⟩ := terminate_into text before buf after
  have hne : buf ≠ [] := by
    rintro rfl
    simp at hbuf
  have htake : text.take (buf.length - 1) = text := List.take_of_length_le (by omega)
  have hstring : cString buf' = text := by
    rw [cString_of_nul (hbegins hne), htake, cString_eq hzero]
  refine ⟨buf', cInt text.length, ?_, a.unsigned modifier.length, ?_, rfl,
    wrap_unsigned a modifier.length⟩
  · rw [vsnprintf_eq (formatFits_render _ _), hwhole]
    exact hprint
  · rw [hstring]
    exact vsscanf_conv hmodifier hscan

/-- The least `int`, behind blanks. -/
theorem vsscanf_vsnprintf_min : ∃ buf' r, vsnprintf (List.replicate 64 0) 0 64
      (render [.conv [] 13 .none .d]) ⟨[⟨0x80000000, []⟩], []⟩ = some (buf', r) ∧
    ∃ n, vsscanf (cString buf') (render [.conv [] 0 .none .d]) = (1, [.number .int n]) ∧
      n = 0x80000000 ∧ wrap .int n = -2147483648 := by
  obtain ⟨buf', r, hprint, n, hscan, hn, hwrap⟩ := @vsscanf_vsnprintf .none .d
    ⟨0x80000000, []⟩ [] [] [] 13 (by decide) (by decide) (by decide) [] (List.replicate 64 0) []
    (by decide)
  simp only [List.nil_append, List.append_nil] at hprint
  exact ⟨buf', r, hprint, n, hscan, hn.trans (by decide), hwrap.trans (by decide)⟩

end round

end LosTacOS.Printf
