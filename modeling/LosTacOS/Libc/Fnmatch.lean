import LosTacOS.Libc.Bracket

/-! `fnmatch` of the C library. -/
namespace LosTacOS.Libc.Fnmatch

abbrev question : UInt8 := '?'.toUInt8
abbrev asterisk : UInt8 := '*'.toUInt8
abbrev opening : UInt8 := '['.toUInt8
abbrev backslash : UInt8 := 92
abbrev separator : UInt8 := '/'.toUInt8

structure Flags where
  noescape : Bool
  pathname : Bool
deriving DecidableEq

section code

variable (flags : Flags)

/-- `match_class`, which has read the opening bracket. -/
def matchClass (p : List UInt8) (c : UInt8) : Option (Bool × List UInt8) :=
  scanNegated ['^'.toUInt8, '!'.toUInt8] p c

/-- The loop of an asterisk over the string: the rest of the pattern is tried at one place after the
other. -/
def tryFrom (rest : List UInt8 → Option Bool) : List UInt8 → Option Bool
  | [] => rest []
  | c :: s =>
    if flags.pathname && c = separator then rest (c :: s)
    else
      match rest (c :: s) with
      | some false => tryFrom rest s
      | r => r

theorem dropWhile_length {α : Type} (f : α → Bool) (l : List α) :
    (l.dropWhile f).length ≤ l.length :=
  (List.dropWhile_sublist f).length_le

/-- `match`. There is no result where it steps over the end of the pattern or of the string. -/
def matches_ (p s : List UInt8) : Option Bool :=
  match p with
  | [] => some s.isEmpty
  | x :: p =>
    if x = question then
      match s with
      | [] => some false
      | c :: s => if flags.pathname && c = separator then some false else matches_ p s
    else if x = asterisk then
      if p.dropWhile (· = asterisk) = [] then some true
      else tryFrom flags (fun s => matches_ (p.dropWhile (· = asterisk)) s) s
    else if x = opening then
      match s with
      | [] => some false
      | c :: s =>
        match _h : matchClass p c with
        | none => none
        | some (false, _) => some false
        | some (true, q) => matches_ q s
    else if x = backslash ∧ flags.noescape = false then
      match p with
      | [] => if s = [] then none else some false
      | y :: p =>
        match s with
        | [] => some false
        | c :: s => if y = c then matches_ p s else some false
    else
      match s with
      | [] => some false
      | c :: s => if x = c then matches_ p s else some false
termination_by p.length
decreasing_by
  · simp
  · exact Nat.lt_succ_of_le (dropWhile_length _ _)
  · exact Nat.lt_succ_of_le (scanNegated_length _h)
  · simp only [List.length_cons]
    omega
  · simp

def fnmatch (pattern string : List UInt8) : Option Nat :=
  (matches_ flags pattern string).map fun r => if r then 0 else 1

end code

section equations

variable {flags : Flags} {p s : List UInt8} {x c : UInt8}

@[simp] theorem matches_nil : matches_ flags [] s = some s.isEmpty := by
  rw [matches_.eq_def]

theorem matches_question_nil : matches_ flags (question :: p) [] = some false := by
  rw [matches_.eq_def]
  dsimp only
  rw [if_pos rfl]

theorem matches_question : matches_ flags (question :: p) (c :: s) =
    if flags.pathname && c = separator then some false else matches_ flags p s := by
  rw [matches_.eq_def]
  dsimp only
  rw [if_pos rfl]

theorem matches_asterisk : matches_ flags (asterisk :: p) s =
    if p.dropWhile (· = asterisk) = [] then some true
    else tryFrom flags (fun s => matches_ flags (p.dropWhile (· = asterisk)) s) s := by
  rw [matches_.eq_def]
  dsimp only
  rw [if_neg (by decide), if_pos rfl]

theorem matches_opening_nil : matches_ flags (opening :: p) [] = some false := by
  rw [matches_.eq_def]
  dsimp only
  rw [if_neg (by decide), if_neg (by decide), if_pos rfl]

theorem matches_opening : matches_ flags (opening :: p) (c :: s) =
    match matchClass p c with
    | none => none
    | some (false, _) => some false
    | some (true, q) => matches_ flags q s := by
  rw [matches_.eq_def]
  dsimp only
  rw [if_neg (by decide), if_neg (by decide), if_pos rfl]
  split
  all_goals
    rename_i h
    rw [h]

def Plain (flags : Flags) (x : UInt8) : Prop :=
  x ≠ question ∧ x ≠ asterisk ∧ x ≠ opening ∧ (x = backslash → flags.noescape = true)

theorem matches_plain_nil (hx : Plain flags x) : matches_ flags (x :: p) [] = some false := by
  obtain ⟨h1, h2, h3, h4⟩ := hx
  rw [matches_.eq_def]
  dsimp only
  rw [if_neg h1, if_neg h2, if_neg h3, if_neg]
  rintro ⟨hb, he⟩
  rw [h4 hb] at he
  cases he

theorem matches_plain (hx : Plain flags x) : matches_ flags (x :: p) (c :: s) =
    if x = c then matches_ flags p s else some false := by
  obtain ⟨h1, h2, h3, h4⟩ := hx
  rw [matches_.eq_def]
  dsimp only
  rw [if_neg h1, if_neg h2, if_neg h3, if_neg]
  rintro ⟨hb, he⟩
  rw [h4 hb] at he
  cases he

theorem matches_escape_nil (he : flags.noescape = false) :
    matches_ flags (backslash :: x :: p) [] = some false := by
  rw [matches_.eq_def]
  dsimp only
  rw [if_neg (by decide), if_neg (by decide), if_neg (by decide), if_pos ⟨rfl, he⟩]

theorem matches_escape (he : flags.noescape = false) :
    matches_ flags (backslash :: x :: p) (c :: s) =
      if x = c then matches_ flags p s else some false := by
  rw [matches_.eq_def]
  dsimp only
  rw [if_neg (by decide), if_neg (by decide), if_neg (by decide), if_pos ⟨rfl, he⟩]

theorem matches_backslash (he : flags.noescape = false) : matches_ flags [backslash] s =
    if s = [] then none else some false := by
  rw [matches_.eq_def]
  dsimp only
  rw [if_neg (by decide), if_neg (by decide), if_neg (by decide), if_pos ⟨rfl, he⟩]

end equations

section globs

inductive Item where
  | any
  | star
  | set (negator : Option UInt8) (body : List UInt8)
  | char (x : UInt8)
  | quoted (x : UInt8)
deriving DecidableEq

def Item.bytes : Item → List UInt8
  | .any => [question]
  | .star => [asterisk]
  | .set negator body => opening :: (negator.toList ++ (body ++ [closing]))
  | .char x => [x]
  | .quoted x => [backslash, x]

/-- A bracket expression is negated by `^` or `!` in front; a quoted character needs the escapes. No
`]` stands in brackets, also not in front, where `[]a]` would mean it literally. -/
def Item.WellFormed (flags : Flags) : Item → Prop
  | .any | .star => True
  | .set negator body => body ≠ [] ∧ closing ∉ body ∧ (∀ x ∈ negator, x ∈ ['^'.toUInt8, '!'.toUInt8]) ∧
      (negator = none → ∀ x ∈ body.head?, x ∉ ['^'.toUInt8, '!'.toUInt8])
  | .char x => Plain flags x
  | .quoted _ => flags.noescape = false

structure Glob (flags : Flags) where
  items : List Item
  wellFormed : ∀ i ∈ items, i.WellFormed flags

def itemBytes (items : List Item) : List UInt8 := items.flatMap Item.bytes

def Item.takes (c : UInt8) : Item → Bool
  | .any => true
  | .star => false
  | .set negator body => inBody c body != negator.isSome
  | .char x | .quoted x => x = c

def Item.literal : Item → Bool
  | .char _ | .quoted _ => true
  | _ => false

/-- A string matches a pattern. `Free` says which pieces other than a literal may take a `/`, by
what stands behind them. -/
inductive Matches (Free : Item → List Item → Prop) : List Item → List UInt8 → Prop
  | nil : Matches Free [] []
  | one {i : Item} {is : List Item} {c : UInt8} {s : List UInt8} : i.takes c = true →
      (c = separator → i.literal = true ∨ Free i is) → Matches Free is s →
      Matches Free (i :: is) (c :: s)
  | skip {is : List Item} {s : List UInt8} : Matches Free is s → Matches Free (.star :: is) s
  | more {is : List Item} {c : UInt8} {s : List UInt8} : (c = separator → Free .star is) →
      Matches Free (.star :: is) s → Matches Free (.star :: is) (c :: s)

/-- Under `FNM_PATHNAME` only a literal takes a `/`. -/
def Strict (flags : Flags) (_ : Item) (_ : List Item) : Prop := flags.pathname = false

/-- A bracket expression takes a `/` too, and so does a star that nothing but stars follow. -/
def Lenient (flags : Flags) (i : Item) (is : List Item) : Prop :=
  flags.pathname = false ∨ match i with
    | .set _ _ => True
    | .star => ∀ j ∈ is, j = .star
    | _ => False

/-- How many of the characters of a pattern are a literal `/`. -/
def literalSlashes (items : List Item) : Nat :=
  items.countP fun i => i.literal && i.takes separator

def slashes (s : List UInt8) : Nat := s.count separator

end globs

section language

variable {flags : Flags} {Free : Item → List Item → Prop} {i : Item} {is : List Item} {c : UInt8}
  {s u v : List UInt8}

theorem matches_star_iff : Matches Free (.star :: is) s ↔
    ∃ u v, s = u ++ v ∧ (separator ∈ u → Free .star is) ∧ Matches Free is v := by
  constructor
  · intro h
    generalize hl : Item.star :: is = l at h
    induction h with
    | nil => cases hl
    | one htakes _ _ _ =>
      cases hl
      cases htakes
    | skip h _ =>
      cases hl
      exact ⟨[], _, rfl, fun hmem => absurd hmem List.not_mem_nil, h⟩
    | more hfree _ ih =>
      obtain ⟨u, v, rfl, hu, hv⟩ := ih hl
      cases hl
      refine ⟨_ :: u, v, rfl, ?_, hv⟩
      intro hmem
      rcases List.mem_cons.mp hmem with hc | hmem
      · exact hfree hc.symm
      · exact hu hmem
  · rintro ⟨u, v, rfl, hu, hv⟩
    induction u with
    | nil => exact .skip hv
    | cons c u ih =>
      refine .more ?_ (ih fun hmem => hu (List.mem_cons_of_mem c hmem))
      rintro rfl
      exact hu List.mem_cons_self

theorem matches_cons_iff (hi : i ≠ .star) : Matches Free (i :: is) s ↔ ∃ c v, s = c :: v ∧
    i.takes c = true ∧ (c = separator → i.literal = true ∨ Free i is) ∧ Matches Free is v := by
  constructor
  · intro h
    cases h with
    | one htakes hfree h => exact ⟨_, _, rfl, htakes, hfree, h⟩
    | skip _ => exact absurd rfl hi
    | more _ _ => exact absurd rfl hi
  · rintro ⟨c, v, rfl, htakes, hfree, h⟩
    exact .one htakes hfree h

theorem Matches.mono {Free' : Item → List Item → Prop} (hle : ∀ i is, Free i is → Free' i is)
    (h : Matches Free is s) : Matches Free' is s := by
  induction h with
  | nil => exact .nil
  | one htakes hfree _ ih => exact .one htakes (fun hc => (hfree hc).imp_right (hle _ _)) ih
  | skip _ ih => exact .skip ih
  | more hfree _ ih => exact .more (fun hc => hle _ _ (hfree hc)) ih

theorem literalSlashes_cons (i : Item) (is : List Item) : literalSlashes (i :: is) =
    literalSlashes is + if i.literal && i.takes separator then 1 else 0 :=
  List.countP_cons

theorem slashes_cons (c : UInt8) (s : List UInt8) :
    slashes (c :: s) = slashes s + if c = separator then 1 else 0 := by
  simp [slashes, List.count_cons]

theorem takes_literal {a b : UInt8} (hi : i.literal = true) (ha : i.takes a = true)
    (hb : i.takes b = true) : a = b := by
  cases i with
  | char x | quoted x =>
    simp only [Item.takes, decide_eq_true_eq] at ha hb
    exact ha.symm.trans hb
  | _ => cases hi

/-- Every literal `/` takes one of the string. -/
theorem Matches.slashes_le (h : Matches Free is s) : literalSlashes is ≤ slashes s := by
  induction h with
  | nil => exact Nat.le_refl 0
  | @one i is c s htakes _ _ ih =>
    rw [literalSlashes_cons, slashes_cons]
    by_cases hl : (i.literal && i.takes separator) = true
    · obtain ⟨hlit, hsep⟩ := Bool.and_eq_true_iff.mp hl
      rw [if_pos hl, if_pos (takes_literal hlit htakes hsep)]
      omega
    · rw [if_neg hl]
      omega
  | skip _ ih =>
    rw [literalSlashes_cons]
    exact ih
  | more _ _ ih =>
    rw [slashes_cons]
    omega

/-- If nothing but a literal may take a `/`, there are as many in the string as in the pattern. -/
theorem Matches.slashes_eq (hno : ∀ i is, ¬ Free i is) (h : Matches Free is s) :
    literalSlashes is = slashes s := by
  induction h with
  | nil => rfl
  | @one i is c s htakes hfree _ ih =>
    rw [literalSlashes_cons, slashes_cons, ih]
    by_cases hc : c = separator
    · have hlit := (hfree hc).resolve_right (hno _ _)
      rw [hc] at htakes
      simp [hc, hlit, htakes]
    · have hl : ¬ (i.literal && i.takes separator) = true := by
        intro hl
        obtain ⟨hlit, hsep⟩ := Bool.and_eq_true_iff.mp hl
        exact hc (takes_literal hlit htakes hsep)
      rw [if_neg hl, if_neg hc]
  | skip _ ih =>
    rw [literalSlashes_cons, ih]
    rfl
  | more hfree _ ih =>
    rw [slashes_cons, if_neg fun hc => hno _ _ (hfree hc)]
    exact ih

/-- If there are as many in the string as in the pattern, nothing but a literal takes one. -/
theorem Matches.of_slashes {Free' : Item → List Item → Prop} (h : Matches Free is s)
    (heq : literalSlashes is = slashes s) : Matches Free' is s := by
  induction h with
  | nil => exact .nil
  | @one i is c s htakes _ h ih =>
    have hle := h.slashes_le
    rw [literalSlashes_cons, slashes_cons] at heq
    by_cases hl : (i.literal && i.takes separator) = true
    · obtain ⟨hlit, hsep⟩ := Bool.and_eq_true_iff.mp hl
      rw [if_pos hl, if_pos (takes_literal hlit htakes hsep)] at heq
      exact .one htakes (fun _ => .inl hlit) (ih (by omega))
    · rw [if_neg hl] at heq
      by_cases hc : c = separator
      · rw [if_pos hc] at heq
        omega
      · rw [if_neg hc] at heq
        exact .one htakes (fun h => absurd h hc) (ih heq)
  | skip _ ih =>
    rw [literalSlashes_cons] at heq
    exact .skip (ih heq)
  | @more is c s _ h ih =>
    have hle := h.slashes_le
    rw [slashes_cons] at heq
    by_cases hc : c = separator
    · rw [if_pos hc] at heq
      omega
    · rw [if_neg hc] at heq
      exact .more (fun h => absurd h hc) (ih heq)

/-- A leniently matched string is strictly matched if `/` means nothing or all of them are literal. -/
theorem strict_iff (h : Matches (Lenient flags) is s) : Matches (Strict flags) is s ↔
    flags.pathname = false ∨ literalSlashes is = slashes s := by
  cases hp : flags.pathname with
  | false => exact iff_of_true (h.mono fun _ _ _ => hp) (.inl rfl)
  | true =>
    have hno : ∀ i is, ¬ Strict flags i is := by
      intro i is hs
      rw [Strict, hp] at hs
      cases hs
    constructor
    · exact fun hs => .inr (hs.slashes_eq hno)
    · rintro (hfalse | heq)
      · cases hfalse
      · exact h.of_slashes heq

theorem lenient_of_strict (h : Matches (Strict flags) is s) : Matches (Lenient flags) is s :=
  h.mono fun _ _ hs => .inl hs

end language

section agreement

variable {flags : Flags} {i : Item} {is : List Item} {c : UInt8} {s : List UInt8}

theorem itemBytes_cons (i : Item) (is : List Item) :
    itemBytes (i :: is) = i.bytes ++ itemBytes is := rfl

theorem bytes_head (hi : i.WellFormed flags) (hstar : i ≠ .star) :
    ∃ x p, i.bytes = x :: p ∧ x ≠ asterisk := by
  cases i with
  | any => exact ⟨question, [], rfl, by decide⟩
  | star => exact absurd rfl hstar
  | set negator body => exact ⟨opening, _, rfl, by decide⟩
  | char x => exact ⟨x, [], rfl, hi.2.1⟩
  | quoted x => exact ⟨backslash, [x], rfl, by decide⟩

theorem dropWhile_items (hwf : ∀ i ∈ is, i.WellFormed flags) :
    (itemBytes is).dropWhile (· = asterisk) = itemBytes (is.dropWhile (· = .star)) := by
  induction is with
  | nil => rfl
  | cons i is ih =>
    obtain ⟨hi, hwf⟩ := List.forall_mem_cons.mp hwf
    by_cases hstar : i = .star
    · rw [hstar, List.dropWhile_cons_of_pos (by simp), ← ih hwf]
      exact List.dropWhile_cons_of_pos (by simp)
    · obtain ⟨x, p, hx, hne⟩ := bytes_head hi hstar
      rw [List.dropWhile_cons_of_neg (by simpa using hstar), itemBytes_cons, hx, List.cons_append,
        List.dropWhile_cons_of_neg (by simpa using hne)]

theorem itemBytes_eq_nil : itemBytes is = [] ↔ is = [] := by
  cases is with
  | nil => exact iff_of_true rfl rfl
  | cons i is => cases i <;> simp [itemBytes_cons, Item.bytes]

/-- The loop of a star, with what the rest of the pattern takes. -/
theorem tryFrom_spec {rest : List UInt8 → Option Bool} {P : List UInt8 → Prop}
    (hrest : ∀ s, ∃ b, rest s = some b ∧ (b = true ↔ P s)) (s : List UInt8) :
    ∃ b, tryFrom flags rest s = some b ∧ (b = true ↔
      ∃ u v, s = u ++ v ∧ (separator ∈ u → flags.pathname = false) ∧ P v) := by
  induction s with
  | nil =>
    obtain ⟨b, hb, hiff⟩ := hrest []
    refine ⟨b, hb, hiff.trans ?_⟩
    constructor
    · exact fun hp => ⟨[], [], rfl, fun hmem => absurd hmem List.not_mem_nil, hp⟩
    · rintro ⟨u, v, heq, -, hp⟩
      obtain ⟨rfl, rfl⟩ := List.append_eq_nil_iff.mp heq.symm
      exact hp
  | cons c s ih =>
    obtain ⟨b, hb, hiff⟩ := hrest (c :: s)
    have hhere : P (c :: s) → ∃ u v, c :: s = u ++ v ∧
        (separator ∈ u → flags.pathname = false) ∧ P v :=
      fun hp => ⟨[], _, rfl, fun hmem => absurd hmem List.not_mem_nil, hp⟩
    rw [tryFrom, hb]
    by_cases hstop : (flags.pathname && c = separator) = true
    · rw [if_pos hstop]
      refine ⟨b, rfl, hiff.trans ⟨hhere, ?_⟩⟩
      rintro ⟨u, v, heq, hu, hp⟩
      obtain ⟨hpath, hc⟩ := Bool.and_eq_true_iff.mp hstop
      cases u with
      | nil => rwa [heq]
      | cons d u =>
        obtain ⟨rfl, -⟩ := List.cons.inj heq
        rw [hu (by simpa using .inl (of_decide_eq_true hc).symm)] at hpath
        cases hpath
    · rw [if_neg hstop]
      cases b with
      | true => exact ⟨true, rfl, iff_of_true rfl (hhere (hiff.mp rfl))⟩
      | false =>
        obtain ⟨b', hb', hiff'⟩ := ih
        refine ⟨b', hb', hiff'.trans ?_⟩
        constructor
        · rintro ⟨u, v, rfl, hu, hp⟩
          refine ⟨c :: u, v, rfl, ?_, hp⟩
          intro hmem
          rcases List.mem_cons.mp hmem with hc | hmem
          · simpa [hc] using hstop
          · exact hu hmem
        · rintro ⟨u, v, heq, hu, hp⟩
          cases u with
          | nil =>
            rw [List.nil_append] at heq
            exact absurd (hiff.mpr (heq ▸ hp)) Bool.false_ne_true
          | cons d u =>
            obtain ⟨rfl, rfl⟩ := List.cons.inj heq
            exact ⟨u, v, rfl, fun hmem => hu (List.mem_cons_of_mem c hmem), hp⟩

theorem matches_all_stars (his : ∀ j ∈ is, j = .star) : Matches (Lenient flags) is [] := by
  induction is with
  | nil => exact .nil
  | cons j is ih =>
    obtain ⟨rfl, htail⟩ := List.forall_mem_cons.mp his
    exact .skip (ih htail)

/-- A star, the stars behind it and the rest of the pattern. -/
theorem matches_stars (hrest : is.dropWhile (· = .star) ≠ []) :
    Matches (Lenient flags) (.star :: is) s ↔ ∃ u v, s = u ++ v ∧
      (separator ∈ u → flags.pathname = false) ∧
      Matches (Lenient flags) (is.dropWhile (· = .star)) v := by
  have hfree : Lenient flags .star is ↔ flags.pathname = false := by
    refine or_iff_left fun hall => hrest ?_
    rw [List.dropWhile_eq_nil_iff]
    simpa using hall
  induction is generalizing s with
  | nil => exact absurd rfl hrest
  | cons j is ih =>
    rw [matches_star_iff]
    simp only [hfree]
    by_cases hj : j = .star
    · subst hj
      rw [List.dropWhile_cons_of_pos (by simp)] at hrest ⊢
      have hfree' : Lenient flags .star is ↔ flags.pathname = false := by
        refine or_iff_left fun hall => hrest ?_
        rw [List.dropWhile_eq_nil_iff]
        simpa using hall
      constructor
      · rintro ⟨u, v, rfl, hu, hv⟩
        obtain ⟨u', v', rfl, hu', hv'⟩ := (ih hrest hfree').mp hv
        refine ⟨u ++ u', v', by rw [List.append_assoc], ?_, hv'⟩
        intro hmem
        exact (List.mem_append.mp hmem).elim hu hu'
      · rintro ⟨u, v, rfl, hu, hv⟩
        refine ⟨u, v, rfl, hu, (ih hrest hfree').mpr ⟨[], v, rfl, ?_, hv⟩⟩
        exact fun hmem => absurd hmem List.not_mem_nil
    · rw [List.dropWhile_cons_of_neg (by simpa using hj)]

theorem matchClass_item {negator : Option UInt8} {body : List UInt8}
    (hi : (Item.set negator body).WellFormed flags) (p : List UInt8) :
    matchClass (negator.toList ++ (body ++ [closing]) ++ p) c =
      some ((Item.set negator body).takes c, p) := by
  obtain ⟨hne, hclosing, hnegator, hbody⟩ := hi
  have hlist : body ++ [closing] ++ p = body ++ closing :: p := by simp
  unfold matchClass scanNegated
  cases negator with
  | none =>
    obtain ⟨x, rest, rfl⟩ := List.exists_cons_of_ne_nil hne
    have hx : x ∉ ['^'.toUInt8, '!'.toUInt8] := hbody rfl x rfl
    rw [Option.toList_none, List.nil_append, hlist, if_neg (by simpa using hx),
      scanClass_body c false hclosing]
    simp [Item.takes]
  | some x =>
    have hx : x ∈ ['^'.toUInt8, '!'.toUInt8] := hnegator x rfl
    rw [Option.toList_some, List.append_assoc, hlist, List.singleton_append,
      if_pos (by simpa using hx), List.tail_cons, scanClass_body c false hclosing]
    simp [Item.takes]

def Item.Accepts (flags : Flags) (c : UInt8) (i : Item) : Prop :=
  i.takes c = true ∧ ¬ (i = .any ∧ flags.pathname = true ∧ c = separator)
deriving Decidable

theorem accepts_iff (hstar : i ≠ .star) : i.Accepts flags c ↔ i.takes c = true ∧
    (c = separator → i.literal = true ∨ Lenient flags i is) := by
  unfold Item.Accepts Lenient
  cases i with
  | any => cases flags.pathname <;> simp [Item.literal]
  | star => exact absurd rfl hstar
  | _ => simp [Item.literal]

theorem matches_item_nil {p : List UInt8} (hi : i.WellFormed flags) (hstar : i ≠ .star) :
    matches_ flags (i.bytes ++ p) [] = some false := by
  cases i with
  | any => exact matches_question_nil
  | star => exact absurd rfl hstar
  | set negator body => exact matches_opening_nil
  | char x => exact matches_plain_nil hi
  | quoted x => exact matches_escape_nil hi

theorem matches_item {p : List UInt8} (hi : i.WellFormed flags) (hstar : i ≠ .star) :
    matches_ flags (i.bytes ++ p) (c :: s) =
      if i.Accepts flags c then matches_ flags p s else some false := by
  unfold Item.Accepts
  cases i with
  | any =>
    rw [Item.bytes, List.singleton_append, matches_question]
    by_cases hp : flags.pathname = true <;> by_cases hc : c = separator <;>
      simp [Item.takes, hp, hc]
  | star => exact absurd rfl hstar
  | set negator body =>
    rw [Item.bytes, List.cons_append, matches_opening, matchClass_item hi]
    by_cases ht : (Item.set negator body).takes c = true
    · simp [ht]
    · simp [Bool.eq_false_iff.mpr ht]
  | char x =>
    rw [Item.bytes, List.singleton_append, matches_plain hi]
    simp [Item.takes]
  | quoted x =>
    rw [Item.bytes, List.cons_append, List.singleton_append, matches_escape hi]
    simp [Item.takes]

/-- `match` on a pattern in pieces. -/
theorem matches_items (hwf : ∀ i ∈ is, i.WellFormed flags) (s : List UInt8) :
    ∃ b, matches_ flags (itemBytes is) s = some b ∧
      (b = true ↔ Matches (Lenient flags) is s) := by
  induction hn : is.length using Nat.strong_induction_on generalizing is s with
  | _ n ih =>
    subst hn
    cases is with
    | nil =>
      rw [itemBytes, List.flatMap_nil, matches_nil]
      refine ⟨_, rfl, ?_⟩
      rw [List.isEmpty_iff]
      constructor
      · rintro rfl
        exact .nil
      · rintro ⟨⟩
        rfl
    | cons i is =>
      obtain ⟨hi, htail⟩ := List.forall_mem_cons.mp hwf
      have hrec := fun v => ih is.length (by simp) htail v rfl
      rw [itemBytes_cons]
      by_cases hstar : i = .star
      · subst hstar
        rw [Item.bytes, List.singleton_append, matches_asterisk, dropWhile_items htail]
        by_cases hrest : is.dropWhile (· = .star) = []
        · have hall : ∀ j ∈ is, j = .star := by
            simpa [List.dropWhile_eq_nil_iff] using hrest
          rw [if_pos (itemBytes_eq_nil.mpr hrest)]
          refine ⟨true, rfl, iff_of_true rfl (matches_star_iff.mpr ?_)⟩
          exact ⟨s, [], by simp, fun _ => .inr hall, matches_all_stars hall⟩
        · rw [if_neg (mt itemBytes_eq_nil.mp hrest)]
          have hlen : (is.dropWhile (· = .star)).length < (Item.star :: is).length :=
            Nat.lt_succ_of_le (dropWhile_length _ _)
          have hwf' : ∀ i ∈ is.dropWhile (· = .star), i.WellFormed flags :=
            fun i hi => htail i ((List.dropWhile_sublist _).mem hi)
          obtain ⟨b, hb, hiff⟩ :=
            @tryFrom_spec flags _ _ (fun v => ih _ hlen hwf' v rfl) s
          exact ⟨b, hb, hiff.trans (matches_stars hrest).symm⟩
      · cases s with
        | nil =>
          rw [matches_item_nil hi hstar]
          refine ⟨false, rfl, iff_of_false Bool.false_ne_true ?_⟩
          rw [matches_cons_iff hstar]
          rintro ⟨_, _, heq, -⟩
          cases heq
        | cons c v =>
          obtain ⟨b, hb, hiff⟩ := hrec v
          rw [matches_item hi hstar, hb]
          have hcons : Matches (Lenient flags) (i :: is) (c :: v) ↔
              i.Accepts flags c ∧ Matches (Lenient flags) is v := by
            rw [matches_cons_iff hstar, accepts_iff hstar]
            constructor
            · rintro ⟨c', v', heq, htakes, hfree, h⟩
              obtain ⟨rfl, rfl⟩ := List.cons.inj heq
              exact ⟨⟨htakes, hfree⟩, h⟩
            · rintro ⟨⟨htakes, hfree⟩, h⟩
              exact ⟨c, v, rfl, htakes, hfree, h⟩
          by_cases hacc : i.Accepts flags c
          · rw [if_pos hacc]
            exact ⟨b, rfl, by rw [hcons, and_iff_right hacc, hiff]⟩
          · rw [if_neg hacc]
            refine ⟨false, rfl, iff_of_false Bool.false_ne_true ?_⟩
            rw [hcons]
            exact fun h => hacc h.1

end agreement

def Right (flags : Flags) (g : Glob flags) (s : List UInt8) : Prop :=
  ∃ r, fnmatch flags (itemBytes g.items) s = some r ∧
    (r = 0 ↔ Matches (Strict flags) g.items s)

theorem right_iff (flags : Flags) (g : Glob flags) (s : List UInt8) : Right flags g s ↔
    (Matches (Lenient flags) g.items s → Matches (Strict flags) g.items s) := by
  obtain ⟨b, hb, hiff⟩ := matches_items g.wellFormed s
  have hfn : fnmatch flags (itemBytes g.items) s = some (if b then 0 else 1) := by
    rw [fnmatch, hb]
    rfl
  have hzero : (if b = true then 0 else 1) = 0 ↔ b = true := by cases b <;> simp
  unfold Right
  rw [hfn]
  constructor
  · rintro ⟨r, hr, hright⟩ hlenient
    obtain rfl := Option.some.inj hr
    exact hright.mp (hzero.mpr (hiff.mpr hlenient))
  · intro h
    exact ⟨_, rfl, hzero.trans (hiff.trans ⟨h, lenient_of_strict⟩)⟩

/-- `fnmatch` is right unless `/` counts, there are more of them in the string than literal ones in
the pattern, and the string matches where a bracket expression and a star at the end take one. -/
theorem fnmatch_right_iff (flags : Flags) (g : Glob flags) (s : List UInt8) :
    Right flags g s ↔ flags.pathname = false ∨ literalSlashes g.items = slashes s ∨
      ¬ Matches (Lenient flags) g.items s := by
  rw [right_iff]
  by_cases h : Matches (Lenient flags) g.items s
  · rw [imp_iff_right h, strict_iff h]
    simp [h]
  · simp [h]

def starGlob : Glob ⟨false, true⟩ where
  items := [.star]
  wellFormed := by
    intro i hi
    obtain rfl := List.mem_singleton.mp hi
    trivial

theorem star_crosses : ¬ ∀ (flags : Flags) (g : Glob flags) (s : List UInt8), Right flags g s := by
  intro h
  have hright := (right_iff _ starGlob [separator]).mp (h _ _ _)
  have hlenient : Matches (Lenient ⟨false, true⟩) starGlob.items [separator] :=
    .more (fun _ => .inr (by simp)) (.skip .nil)
  have heq := (hright hlenient).slashes_eq (by simp [Strict])
  exact absurd heq (by decide)

end LosTacOS.Libc.Fnmatch
