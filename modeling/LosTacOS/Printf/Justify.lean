import LosTacOS.Printf.Agree

/-! When the kernel's and the library's formatter agree: which fields differ, and what a field should
look like. -/
namespace LosTacOS.Printf

open Emit

section ints

theorem cInt_bounds (n : Int) : -2^31 ≤ cInt n ∧ cInt n < 2^31 := by
  have hlow := Int.le_bmod (x := n) (m := 2^32) (by decide)
  have hhigh := Int.bmod_lt (x := n) (m := 2^32) (by decide)
  unfold cInt
  constructor <;> omega

theorem cInt_of_small {n : Int} (h : -2^31 ≤ n) (h' : n < 2^31) : cInt n = n := by
  unfold cInt
  apply Int.bmod_eq_of_le <;> omega

/-- A difference that is too large for an `int` comes out negative. -/
theorem cInt_of_large {n : Int} (h : 2^31 ≤ n) (h' : n < 2^32) : cInt n < 0 := by
  unfold cInt
  rw [Int.bmod_def]
  push_cast
  split_ifs <;> omega

end ints

section number

variable {v : Nat} {neg zero left upper : Bool} {mode : Mode} {w : Int}

def shown (v : Nat) (mode : Mode) (upper : Bool) : List UInt8 :=
  ((digits mode.base v).map (digitChar upper)).reverse

/-- A field of width `w`: the sign and the digits, filled up on the side that the flags say. -/
def justify (zero left : Bool) (w : Int) (sign ds : List UInt8) : List UInt8 :=
  let n := (w - (sign.length + ds.length)).toNat
  if left then sign ++ ds ++ List.replicate n ' '.toUInt8
  else if zero then sign ++ List.replicate n '0'.toUInt8 ++ ds
  else List.replicate n ' '.toUInt8 ++ sign ++ ds

theorem justify_length (zero left : Bool) (w : Int) (sign ds : List UInt8) :
    ((justify zero left w sign ds).length : Int) = max w (ds.length + sign.length) := by
  unfold justify
  cases left <;> cases zero <;> simp <;> omega

theorem paddedText_eq (v : Nat) (neg zero left upper : Bool) (mode : Mode) (w : Int) :
    paddedText v neg w zero left mode upper =
      justify zero left w (minus neg) (shown v mode upper) := by
  have hfill : ∀ n : Int, fill w n = (w - n).toNat := by
    intro n
    unfold fill
    split_ifs <;> omega
  unfold paddedText justify shown
  cases neg <;> cases left <;> cases zero <;>
    simp [hfill, minus, add_comm (1 : Int)]

def NumberAgrees (left neg : Bool) (w i : Int) : Prop :=
  0 < cInt (w - i) → neg = false ∧ left = false ∧ 0 < w

instance (left neg : Bool) (w i : Int) : Decidable (NumberAgrees left neg w i) :=
  inferInstanceAs (Decidable (_ → _))

theorem shown_length_pos (v : Nat) (mode : Mode) (upper : Bool) :
    0 < (shown v mode upper).length := by
  have h : 0 < (digits mode.base v).length := List.length_pos_of_ne_nil (digits_ne_nil v)
  simpa [shown] using h

theorem shown_length_le (hv : v < 2^64) (mode : Mode) (upper : Bool) :
    (shown v mode upper).length ≤ 22 := by
  simpa [shown] using digits_length_le mode hv

theorem shown_mem {c : UInt8} (h : c ∈ shown v mode upper) :
    c ≠ '%'.toUInt8 ∧ c ≠ ' '.toUInt8 := by
  simp only [shown, List.mem_reverse, List.mem_map] at h
  obtain ⟨d, hd, rfl⟩ := h
  have hlt : d < 16 := by
    refine (digits_lt mode.one_lt_base hd).trans_le ?_
    cases mode <;> decide
  have hall : ∀ u : Bool, ∀ d < 16, digitChar u d ≠ '%'.toUInt8 ∧ digitChar u d ≠ ' '.toUInt8 := by
    decide
  exact hall upper d hlt

/-- The kernel's number: the sign comes first and does not count. -/
theorem kernel_number (v : Nat) (neg zero upper : Bool) (mode : Mode) (w : Int) :
    minus neg ++ numberText v mode.base w zero upper =
      minus neg ++ (List.replicate (cInt (w - (shown v mode upper).length)).toNat
        (if zero then '0'.toUInt8 else ' '.toUInt8) ++ shown v mode upper) := by
  simp [numberText, shown]

theorem number_agree_iff (hv : v < 2^64) (hw : -2^31 ≤ w) (hw' : w < 2^31) :
    paddedText v neg w zero left mode upper =
      minus neg ++ numberText v mode.base w zero upper ↔
      NumberAgrees left neg w (shown v mode upper).length := by
  have hpos := shown_length_pos v mode upper
  have hle := shown_length_le hv mode upper
  have hspace : ∀ c ∈ shown v mode upper, c ≠ ' '.toUInt8 := fun c hc => (shown_mem hc).2
  rw [paddedText_eq, kernel_number]
  generalize shown v mode upper = ds at hpos hle hspace ⊢
  unfold NumberAgrees
  constructor
  · intro heq hpad
    have hlen : (justify zero left w (minus neg) ds).length = (minus neg ++ (List.replicate
        (cInt (w - ds.length)).toNat (if zero then '0'.toUInt8 else ' '.toUInt8) ++ ds)).length := by
      rw [heq]
    have hlaw := justify_length zero left w (minus neg) ds
    simp only [List.length_append, List.length_replicate] at hlen
    have hw0 : 0 < w := by
      by_contra hneg
      omega
    have hneg : neg = false := by
      cases neg with
      | false => rfl
      | true =>
        rw [cInt_of_small (by omega) (by omega)] at hlen hpad
        simp only [minus, if_true, List.length_singleton] at hlen hlaw
        omega
    refine ⟨hneg, ?_, hw0⟩
    cases left with
    | false => rfl
    | true =>
      -- the last character of the library's field is a space, that of the kernel's a digit
      subst hneg
      rw [cInt_of_small (by omega) (by omega)] at heq hpad
      obtain ⟨n, hn⟩ : ∃ n, (w - ds.length).toNat = n + 1 := ⟨(w - ds.length).toNat - 1, by omega⟩
      have hlast := congrArg List.getLast? heq
      simp only [justify, minus, if_true, Bool.false_eq_true, if_false, List.nil_append,
        List.length_nil, Int.natCast_zero, zero_add, hn, List.replicate_succ', ← List.append_assoc,
        List.getLast?_append, List.getLast?_singleton, Option.some_or] at hlast
      obtain ⟨c, hc⟩ : ∃ c, ds.getLast? = some c :=
        ⟨_, List.getLast?_eq_getLast_of_ne_nil (List.ne_nil_of_length_pos hpos)⟩
      rw [hc, Option.some_or] at hlast
      exact absurd (Option.some.inj hlast).symm (hspace c (List.mem_of_getLast? hc))
  · intro h
    by_cases hpad : 0 < cInt (w - ds.length)
    · obtain ⟨rfl, rfl, hw0⟩ := h hpad
      rw [cInt_of_small (by omega) (by omega)]
      cases zero <;> simp [justify, minus]
    · have hwle : w ≤ ds.length := by
        by_contra hgt
        exact hpad (by rw [cInt_of_small (by omega) (by omega)]; omega)
      have hzero : (cInt (w - ds.length)).toNat = 0 := by omega
      have hzero' : (w - ((minus neg).length + ds.length)).toNat = 0 := by omega
      rw [hzero]
      cases left <;> cases zero <;> simp [justify, hzero']

theorem ordered_of_length {l k : List UInt8} (hl : ∀ c ∈ l, c ≠ '%'.toUInt8)
    (hk : ∀ c ∈ k, c ≠ '%'.toUInt8) (h : l.length ≤ k.length) :
    Ordered (fun c => decide (c ≠ '%'.toUInt8)) l k := by
  have hall : ∀ m : List UInt8, (∀ c ∈ m, c ≠ '%'.toUInt8) →
      m.countP (fun c => decide (c ≠ '%'.toUInt8)) = m.length ∧
      m.countP (fun c => ¬decide (c ≠ '%'.toUInt8)) = 0 := by
    intro m hm
    constructor
    · rw [List.countP_eq_length]
      simpa using hm
    · rw [List.countP_eq_zero]
      simpa using hm
  obtain ⟨h1, h2⟩ := hall l hl
  obtain ⟨h3, h4⟩ := hall k hk
  constructor
  · rw [h1, h3]
    exact h
  · rw [h2, h4]

theorem number_ordered (hv : v < 2^64) (hw : -2^31 ≤ w) (hw' : w < 2^31) :
    Ordered (fun c => decide (c ≠ '%'.toUInt8)) (paddedText v neg w zero left mode upper)
      (minus neg ++ numberText v mode.base w zero upper) := by
  have hle := shown_length_le hv mode upper
  have hpercent : ∀ c ∈ shown v mode upper, c ≠ '%'.toUInt8 := fun c hc => (shown_mem hc).1
  have hminus : ∀ c ∈ minus neg, c ≠ '%'.toUInt8 := by
    intro c hc hpercent
    rw [hpercent] at hc
    revert hc
    cases neg <;> decide
  have hspace : ∀ n, ∀ c ∈ List.replicate n ' '.toUInt8, c ≠ '%'.toUInt8 := fun n c hc => by
    rw [List.eq_of_mem_replicate hc]; decide
  have hzero : ∀ n, ∀ c ∈ List.replicate n '0'.toUInt8, c ≠ '%'.toUInt8 := fun n c hc => by
    rw [List.eq_of_mem_replicate hc]; decide
  rw [paddedText_eq, kernel_number]
  apply ordered_of_length
  · unfold justify
    simp only [apply_ite (fun l => ∀ c ∈ l, c ≠ '%'.toUInt8), List.mem_append]
    split_ifs
    · rintro c ((hc | hc) | hc)
      · exact hminus c hc
      · exact hpercent c hc
      · exact hspace _ c hc
    · rintro c ((hc | hc) | hc)
      · exact hminus c hc
      · exact hzero _ c hc
      · exact hpercent c hc
    · rintro c ((hc | hc) | hc)
      · exact hspace _ c hc
      · exact hminus c hc
      · exact hpercent c hc
  · simp only [List.mem_append]
    rintro c (hc | hc | hc)
    · exact hminus c hc
    · cases zero
      · exact hspace _ c hc
      · exact hzero _ c hc
    · exact hpercent c hc
  · have hlaw := justify_length zero left w (minus neg) (shown v mode upper)
    simp only [List.length_append, List.length_replicate]
    by_cases hw0 : w ≤ 0
    · omega
    · rw [cInt_of_small (by omega) (by omega)]
      omega

end number

section strings

variable {str : List UInt8} {w : Int} {left : Bool}

theorem strLen_negative (len : Nat) (str : List UInt8) : strLen (-1) len str = len + str.length := by
  induction str generalizing len with
  | nil => rfl
  | cons c str ih =>
    rw [strLen, if_pos (.inl (by decide)), ih, List.length_cons]
    omega

/-- The fill of a string, in the kernel and in the library. -/
theorem string_pad {w len : Int} (hw : -2^31 ≤ w) (hw' : w < 2^31) (hl : -2^31 ≤ len)
    (hl' : len < 2^31) :
    (if w > len then cInt (w - len) else 0).toNat =
      if w - len < 2^31 then (w - len).toNat else 0 := by
  by_cases hfits : w - len < 2^31
  · rw [if_pos hfits]
    split_ifs
    · rw [cInt_of_small (by omega) hfits]
    · omega
  · have hneg := cInt_of_large (n := w - len) (by omega) (by omega)
    rw [if_neg hfits]
    split_ifs <;> omega

theorem libStringText_eq (hw : -2^31 ≤ w) (hw' : w < 2^31) :
    libStringText str (-1) w left =
      let pad := List.replicate (if w - cInt str.length < 2^31 then (w - cInt str.length).toNat
        else 0) ' '.toUInt8
      if left then str ++ pad else pad ++ str := by
  obtain ⟨hl, hl'⟩ := cInt_bounds str.length
  have hlen : strLen (-1) 0 str = str.length := by rw [strLen_negative, Nat.zero_add]
  unfold libStringText
  simp only [hlen, string_pad hw hw' hl hl', List.take_length]
  cases left <;> simp

theorem string_agree_iff (hw : -2^31 ≤ w) (hw' : w < 2^31) :
    libStringText str (-1) w left = stringText str w left ↔ w - cInt str.length < 2^31 := by
  rw [libStringText_eq hw hw', stringText]
  by_cases hfits : w - cInt str.length < 2^31
  · rw [if_pos hfits]
    exact iff_of_true rfl hfits
  · simp only [if_neg hfits]
    cases left <;> simp <;> omega

theorem string_ordered (hw : -2^31 ≤ w) (hw' : w < 2^31) :
    Ordered (fun c => decide (c ≠ '%'.toUInt8)) (libStringText str (-1) w left)
      (stringText str w left) := by
  have hspace : (' '.toUInt8 = '%'.toUInt8) ↔ False := by decide
  rw [libStringText_eq hw hw', stringText]
  unfold Ordered
  cases left <;> simp [List.countP_replicate, hspace] <;> split_ifs <;> omega

end strings

section items

def Letter.number (a : Arg) (l : Length) : Letter → Option (Nat × Bool × Mode × Bool)
  | .d => some (magnitude (a.signed l), a.signed l < 0, .decimal, false)
  | .i => some (magnitude (a.signed l), a.signed l < 0, .decimal, false)
  | .u => some (a.unsigned l, false, .decimal, false)
  | .x => some (a.unsigned l, false, .hex, false)
  | .X => some (a.unsigned l, false, .hex, true)
  | .o => some (a.unsigned l, false, .octal, false)
  | _ => none

def Item.Agrees (args : List Arg) : Item → Prop
  | .text _ _ => True
  | .conv flags width modifier letter =>
    let a := args.headD .none
    match letter.number a modifier.length with
    | some (v, neg, mode, _) =>
      NumberAgrees (flagsOf flags).left neg (cInt width) (digits mode.base v).length
    | none =>
      match letter with
      | .s => cInt width - cInt a.string.length < 2^31
      | .p => a.word = 0 ∨
        NumberAgrees (flagsOf flags).left false (cInt width) (digits 16 a.word.toNat).length
      | .percent => Plain flags width modifier letter
      | _ => True

theorem number_lt {a : Arg} {l : Length} {letter : Letter} {v : Nat} {neg upper : Bool} {mode : Mode}
    (h : letter.number a l = some (v, neg, mode, upper)) : v < 2^64 := by
  cases letter <;> simp only [Letter.number, Option.some.injEq, Prod.mk.injEq, reduceCtorEq] at h <;>
    obtain ⟨rfl, -, -, -⟩ := h
  · exact magnitude_lt a l
  · exact magnitude_lt a l
  all_goals exact unsigned_lt a l

theorem shown_length (v : Nat) (mode : Mode) (upper : Bool) :
    (shown v mode upper).length = (digits mode.base v).length := by simp [shown]

theorem libConvText_number {r : Resolved} {args : VaList} {letter : Letter} {k : LibConv} {v : Nat}
    {neg upper : Bool} {mode : Mode} (hk : letter.libConv = some k)
    (h : letter.number args.arg.1 r.length = some (v, neg, mode, upper)) :
    libConvText r args k = paddedText v neg r.width r.zero r.left mode upper := by
  cases letter <;> simp only [Letter.number, Option.some.injEq, Prod.mk.injEq, reduceCtorEq] at h <;>
    obtain ⟨rfl, rfl, rfl, rfl⟩ := h <;> cases hk <;> rfl

theorem convText_number {spec : Spec} {a : Arg} {letter : Letter} {v : Nat} {neg upper : Bool}
    {mode : Mode} (h : letter.number a spec.length = some (v, neg, mode, upper)) :
    convText spec a letter.conv =
      minus neg ++ numberText v mode.base spec.width spec.flags.zero upper := by
  have hsign : ∀ n : Int, sign n = minus (decide (n < 0)) := by
    intro n
    by_cases hn : n < 0 <;> simp [sign, minus, hn]
  cases letter <;> simp only [Letter.number, Option.some.injEq, Prod.mk.injEq, reduceCtorEq] at h <;>
    obtain ⟨rfl, rfl, rfl, rfl⟩ := h
  · rw [← hsign]
    rfl
  · rw [← hsign]
    rfl
  all_goals rfl

theorem number_texts {args : List Arg} (flags : List Flag) (width : Nat) {modifier : Modifier}
    {letter : Letter} {v : Nat} {neg upper : Bool} {mode : Mode}
    (h : letter.number (args.headD .none) modifier.length = some (v, neg, mode, upper)) :
    (Item.conv flags width modifier letter).libText args =
        paddedText v neg (cInt width) (flagsOf flags).zero (flagsOf flags).left mode upper ∧
      (Item.conv flags width modifier letter).kernelText args =
        minus neg ++ numberText v mode.base (cInt width) (flagsOf flags).zero upper := by
  have hplain : ¬ Plain flags width modifier letter := by
    rintro ⟨rfl, -⟩
    cases h
  obtain ⟨k, hk⟩ : ∃ k, letter.libConv = some k := by
    cases letter <;> first | exact ⟨_, rfl⟩ | cases h
  constructor
  · simp only [Item.libText, if_neg hplain, hk, Option.map_some, Option.getD_some]
    exact libConvText_number hk h
  · exact convText_number h

theorem ordered_refl (l : List UInt8) : Ordered (fun c => decide (c ≠ '%'.toUInt8)) l l :=
  ⟨Nat.le_refl _, Nat.le_refl _⟩

theorem pointer_texts (flags : List Flag) (width : Nat) (modifier : Modifier) (args : List Arg) :
    let item := Item.conv flags width modifier .p
    (item.libText args = item.kernelText args ↔ (args.headD .none).word = 0 ∨
      NumberAgrees (flagsOf flags).left false (cInt width)
        (digits 16 (args.headD .none).word.toNat).length) ∧
    Ordered (fun c => decide (c ≠ '%'.toUInt8)) (item.libText args) (item.kernelText args) := by
  obtain ⟨hw, hw'⟩ := cInt_bounds width
  have hv := (args.headD .none).word.toNat_lt
  have hiff : paddedText (args.headD .none).word.toNat false (cInt width) (flagsOf flags).zero
      (flagsOf flags).left .hex false = _ ↔ NumberAgrees _ _ _ _ := number_agree_iff hv hw hw'
  have hord : Ordered _ (paddedText (args.headD .none).word.toNat false (cInt width)
      (flagsOf flags).zero (flagsOf flags).left .hex false) _ := number_ordered hv hw hw'
  have hlib : (Item.conv flags width modifier .p).libText args =
      if (args.headD .none).word = 0 then "(nil)".toList.map Char.toUInt8
      else "0x".toList.map Char.toUInt8 ++ paddedText (args.headD .none).word.toNat false (cInt width)
        (flagsOf flags).zero (flagsOf flags).left .hex false := by
    rw [Item.libText, if_neg fun h : Plain flags width modifier .p => by cases h.1]
    rfl
  have hkernel : (Item.conv flags width modifier .p).kernelText args =
      if (args.headD .none).word = 0 then "(nil)".toList.map Char.toUInt8
      else "0x".toList.map Char.toUInt8 ++ numberText (args.headD .none).word.toNat 16 (cInt width)
        (flagsOf flags).zero false := rfl
  have hminus : minus false = [] := rfl
  have hbase : Mode.hex.base = 16 := rfl
  rw [shown_length, hminus, List.nil_append, hbase] at hiff
  rw [hminus, List.nil_append, hbase] at hord
  dsimp only
  rw [hlib, hkernel]
  by_cases hnil : (args.headD .none).word = 0
  · rw [if_pos hnil, if_pos hnil]
    exact ⟨iff_of_true rfl (.inl hnil), ordered_refl _⟩
  · rw [if_neg hnil, if_neg hnil, List.append_cancel_left_eq, hiff]
    exact ⟨(or_iff_right hnil).symm, hord.append_left _⟩

/-- On one item the formatters agree where the condition holds; in any case the kernel prints no
fewer characters other than percent signs, and no more of these. -/
theorem item_texts (args : List Arg) (item : Item) :
    (item.libText args = item.kernelText args ↔ item.Agrees args) ∧
      Ordered (fun c => decide (c ≠ '%'.toUInt8)) (item.libText args) (item.kernelText args) := by
  cases item with
  | text c h => exact ⟨iff_of_true rfl trivial, ordered_refl _⟩
  | conv flags width modifier letter =>
    obtain ⟨hw, hw'⟩ := cInt_bounds width
    cases hnum : letter.number (args.headD .none) modifier.length with
    | some n =>
      obtain ⟨v, neg, mode, upper⟩ := n
      obtain ⟨hlib, hkernel⟩ := number_texts flags width hnum
      rw [hlib, hkernel]
      refine ⟨?_, number_ordered (number_lt hnum) hw hw'⟩
      rw [number_agree_iff (number_lt hnum) hw hw', shown_length]
      simp only [Item.Agrees, hnum]
    | none =>
      simp only [Item.Agrees, hnum]
      cases letter with
      | s => exact ⟨string_agree_iff hw hw', string_ordered hw hw'⟩
      | c => exact ⟨iff_of_true rfl trivial, ordered_refl _⟩
      | p => exact pointer_texts flags width modifier args
      | percent =>
        by_cases hplain : Plain flags width modifier .percent
        · rw [Item.libText, if_pos hplain]
          exact ⟨iff_of_true rfl hplain, ordered_refl _⟩
        · have htwo : (Item.conv flags width modifier .percent).libText args =
              ['%'.toUInt8, '%'.toUInt8] := by
            rw [Item.libText, if_neg hplain]
            rfl
          have hone : (Item.conv flags width modifier .percent).kernelText args = ['%'.toUInt8] := rfl
          rw [htwo, hone]
          refine ⟨iff_of_false (by decide) hplain, ?_⟩
          unfold Ordered
          decide
      | d => cases hnum
      | i => cases hnum
      | u => cases hnum
      | x => cases hnum
      | X => cases hnum
      | o => cases hnum

end items

section formats

/-- What the text of a numeric conversion should be: as long as its width or its digits and sign, the
longer of the two, and justified as its flags say. -/
def Item.Lawful (args : List Arg) (t : List UInt8) : Item → Prop
  | .text _ _ => True
  | .conv flags width modifier letter => ∀ v neg mode upper,
    letter.number (args.headD .none) modifier.length = some (v, neg, mode, upper) →
      (t.length : Int) = max (cInt width) ((digits mode.base v).length + (minus neg).length) ∧
      t = justify (flagsOf flags).zero (flagsOf flags).left (cInt width) (minus neg)
        (shown v mode upper)

def Lawful (args : List Arg) : List Item → List (List UInt8) → Prop
  | [], [] => True
  | item :: items, t :: ts => item.Lawful args t ∧ Lawful (item.rest args) items ts
  | _, _ => False

theorem libText_lawful (args : List Arg) (item : Item) : item.Lawful args (item.libText args) := by
  cases item with
  | text c h => trivial
  | conv flags width modifier letter =>
    intro v neg mode upper hnum
    obtain ⟨hlib, -⟩ := number_texts flags width hnum
    rw [hlib, paddedText_eq, ← shown_length v mode upper]
    exact ⟨justify_length _ _ _ _ _, rfl⟩

theorem texts_lawful (args : List Arg) (items : List Item) :
    Lawful args items (texts Item.libText Item.rest args items) := by
  induction items generalizing args with
  | nil => trivial
  | cons item items ih => exact ⟨libText_lawful args item, ih _⟩

def SameText (items : List Item) (words : List Arg) (doubles : List Double) : Prop :=
  ∃ fields : List (List UInt8), full (render items) words = fields.flatten ∧
    libFull (render items) ⟨words, doubles⟩ = some fields.flatten ∧ Lawful words items fields

theorem texts_agree_iff (items : List Item) (words : List Arg) :
    (texts Item.libText Item.rest words items).flatten =
        (texts Item.kernelText Item.rest words items).flatten ↔
      Along Item.rest Item.Agrees words items := by
  rw [texts_flatten_iff (p := fun c => decide (c ≠ '%'.toUInt8)) fun a d => (item_texts a d).2]
  exact along_congr (fun a d => (item_texts a d).1) words items

/-- The kernel and the library print the same exactly where no number is padded behind its sign or
against its minus flag, no `%%` has flags, a width or a modifier, and no padding overflows. -/
theorem same_text_iff (items : List Item) (words : List Arg) (doubles : List Double) :
    SameText items words doubles ↔ Along Item.rest Item.Agrees words items := by
  rw [← texts_agree_iff]
  constructor
  · rintro ⟨fields, hfull, hlib, -⟩
    rw [full_render] at hfull
    rw [libFull_render, Option.some.injEq] at hlib
    exact hlib.trans hfull.symm
  · intro h
    refine ⟨texts Item.libText Item.rest words items, ?_, libFull_render items words doubles,
      texts_lawful words items⟩
    rw [full_render]
    exact h.symm

/-- The kernel shows -1 in a field of five as `-    1`. -/
theorem sign_outside_width : ¬ ∀ items words doubles, SameText items words doubles := by
  intro H
  obtain ⟨fields, hfull, hlib, -⟩ := H [.conv [] 5 .none .d] [⟨0xffffffff, []⟩] []
  have hsix : (full (render [.conv [] 5 .none .d]) [⟨0xffffffff, []⟩]).length = 6 := by
    decide +kernel
  have hfive : (libFull (render [.conv [] 5 .none .d]) ⟨[⟨0xffffffff, []⟩], []⟩).map List.length =
      some 5 := by decide +kernel
  rw [hfull] at hsix
  rw [hlib, Option.map_some, hsix] at hfive
  cases hfive

end formats

end LosTacOS.Printf
