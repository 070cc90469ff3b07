import LosTacOS.Libc.Bracket
import LosTacOS.Lib.Search

/-! `regexec` of the C library, call by call: its loops need not end. -/
namespace LosTacOS.Libc.Regex

abbrev asterisk : UInt8 := '*'.toUInt8
abbrev plusSign : UInt8 := '+'.toUInt8
abbrev question : UInt8 := '?'.toUInt8
abbrev caret : UInt8 := '^'.toUInt8
abbrev dollar : UInt8 := '$'.toUInt8
abbrev period : UInt8 := '.'.toUInt8
abbrev opening : UInt8 := '['.toUInt8

def operators : List UInt8 := [asterisk, plusSign, question]

/-- The calls of a run. Each round of a loop is one: `search` for that of `regexec`, `star` for that of
`match_star`. -/
inductive Call where
  | exec (re string : List UInt8)
  | search (re string : List UInt8)
  | here (re text : List UInt8)
  | star (c : UInt8) (re text : List UInt8)
  | plus (c : UInt8) (re text : List UInt8)
  | question (c : UInt8) (re text : List UInt8)

section code

def answer (b : Bool) : Plan Call := .done (if b then .success else .failure)

/-- `match_class`: whether the character matches, and the length that it stores. -/
def matchClass (cls : List UInt8) (c : UInt8) : Option (Bool × Nat) :=
  (scanNegated [caret] cls.tail c).map fun r =>
    let stop := cls.length - r.2.length
    (r.1, stop - (stop - 1))

def matchHere : List UInt8 → List UInt8 → Plan Call
  | [], _ => answer true
  | x :: re, text =>
    if re.head? = some asterisk then .goto (.star x re.tail text)
    else if re.head? = some plusSign then .goto (.plus x re.tail text)
    else if re.head? = some question then .goto (.question x re.tail text)
    else if x = dollar ∧ re = [] then answer text.isEmpty
    else
      match text with
      | [] => answer false
      | c :: text =>
        if x = period ∨ x = c then .goto (.here re text)
        else if x = opening then
          match matchClass (x :: re) c with
          | none => .done .fault
          | some (true, len) => .goto (.here ((x :: re).drop len) text)
          | some (false, _) => answer false
        else answer false

/-- A round of `match_star`. The text is stepped over only where it is compared. -/
def matchStar (x : UInt8) (re text : List UInt8) : Plan Call :=
  .first (.here re text)
    (match text with
    | [] => answer false
    | c :: rest =>
      if x = period then .goto (.star x re text)
      else if c = x then .goto (.star x re rest)
      else answer false)

def matchPlus (x : UInt8) (re : List UInt8) : List UInt8 → Plan Call
  | [] => answer false
  | c :: text => if x = period ∨ c = x then .goto (.star x re text) else answer false

def matchQuestion (x : UInt8) (re text : List UInt8) : Plan Call :=
  .first (.here re text)
    (match text with
    | [] => answer false
    | c :: text => if x = period ∨ c = x then .goto (.here re text) else answer false)

def search (re string : List UInt8) : Plan Call :=
  .first (.here re string)
    (match string with
    | [] => answer false
    | _ :: string => .goto (.search re string))

/-- `regexec`: success is `REG_OK`. -/
def regexec (re string : List UInt8) : Plan Call :=
  if re.head? = some caret then .goto (.here re.tail string) else .goto (.search re string)

def body : Call → Plan Call
  | .exec re string => regexec re string
  | .search re string => search re string
  | .here re text => matchHere re text
  | .star c re text => matchStar c re text
  | .plus c re text => matchPlus c re text
  | .question c re text => matchQuestion c re text

end code

section equations

variable {x : UInt8} {re text : List UInt8}

theorem matchHere_single (hre : ∀ y ∈ re.head?, y ∉ operators) (hend : ¬(x = dollar ∧ re = [])) :
    matchHere (x :: re) text =
      match text with
      | [] => answer false
      | c :: text =>
        if x = period ∨ x = c then .goto (.here re text)
        else if x = opening then
          match matchClass (x :: re) c with
          | none => .done .fault
          | some (true, len) => .goto (.here ((x :: re).drop len) text)
          | some (false, _) => answer false
        else answer false := by
  have hop {y : UInt8} (hy : y ∈ operators) : re.head? ≠ some y := fun h => hre y h hy
  rw [matchHere.eq_def]
  dsimp only
  rw [if_neg (hop (by decide)), if_neg (hop (by decide)), if_neg (hop (by decide)), if_neg hend]

end equations

abbrev Ends (k : Call) (o : Outcome) : Prop := Plan.Ends body k o

abbrev Calls (k k' : Call) : Prop := Plan.Calls body k k'

abbrev Reaches (k k' : Call) : Prop := Plan.Reaches body k k'

abbrev Made (p : Plan Call) (k : Call) : Prop := p.Makes (fun k => Ends k .failure) k

section made

variable {x c : UInt8} {re text : List UInt8} {k k' : Call} {b : Bool} {len : Nat}

theorem matchClass_len (h : matchClass (x :: re) c = some (b, len)) : len = 1 := by
  obtain ⟨r, hr, heq⟩ := Option.map_eq_some_iff.mp h
  have hle := scanNegated_length hr
  cases heq
  simp only [List.tail_cons, List.length_cons] at hle ⊢
  omega

@[simp] theorem not_made_answer : ¬Made (answer b) k := nofun

@[simp] theorem not_made_done {o : Outcome} : ¬Made (.done o) k := nofun

@[simp] theorem made_goto : Made (.goto k) k' ↔ k' = k :=
  ⟨fun h => by cases h; rfl, fun h => h ▸ .goto k'⟩

@[simp] theorem made_first {p : Plan Call} :
    Made (.first k p) k' ↔ k' = k ∨ Ends k .failure ∧ Made p k' := by
  constructor
  · intro h
    cases h with
    | first => exact .inl rfl
    | later hfails hmade => exact .inr ⟨hfails, hmade⟩
  · rintro (rfl | ⟨hfails, hmade⟩)
    · exact .first k' p
    · exact .later hfails hmade

/-- `match_here` goes on behind an operator, or behind a character of the pattern and the text. -/
theorem made_here (h : Made (matchHere re text) k) : ∃ x re', re = x :: re' ∧
    ((∃ re'', re' = asterisk :: re'' ∧ k = .star x re'' text) ∨
      (∃ re'', re' = plusSign :: re'' ∧ k = .plus x re'' text) ∨
      (∃ re'', re' = Regex.question :: re'' ∧ k = .question x re'' text) ∨
      ∃ c rest, text = c :: rest ∧ k = .here re' rest) := by
  match re with
  | [] => cases h
  | x :: re' =>
    refine ⟨x, re', rfl, ?_⟩
    have hop {y : UInt8} (hy : re'.head? = some y) : ∃ re'', re' = y :: re'' ∧ re'.tail = re'' := by
      obtain ⟨re'', rfl⟩ := List.head?_eq_some_iff.mp hy
      exact ⟨re'', rfl, rfl⟩
    unfold matchHere at h
    dsimp only at h
    split at h
    · next hstar =>
      obtain ⟨re'', heq, htail⟩ := hop hstar
      exact .inl ⟨re'', heq, htail ▸ made_goto.mp h⟩
    split at h
    · next hplus =>
      obtain ⟨re'', heq, htail⟩ := hop hplus
      exact .inr (.inl ⟨re'', heq, htail ▸ made_goto.mp h⟩)
    split at h
    · next hquestion =>
      obtain ⟨re'', heq, htail⟩ := hop hquestion
      exact .inr (.inr (.inl ⟨re'', heq, htail ▸ made_goto.mp h⟩))
    split at h
    · cases h
    refine .inr (.inr (.inr ?_))
    match text with
    | [] => cases h
    | c :: rest =>
      refine ⟨c, rest, rfl, ?_⟩
      dsimp only at h
      split at h
      · exact made_goto.mp h
      split at h
      · split at h
        · cases h
        · next len hlen =>
          rw [matchClass_len hlen] at h
          exact made_goto.mp h
        · cases h
      · cases h

/-- A round of `match_star` tries the rest of the pattern. Only where that fails comes another. -/
theorem made_star (h : Made (matchStar x re text) k) : k = .here re text ∨
    Ends (.here re text) .failure ∧ ∃ c rest, text = c :: rest ∧
      (x = period ∧ k = .star x re text ∨ k = .star x re rest) := by
  rcases made_first.mp h with rfl | ⟨hfails, hmade⟩
  · exact .inl rfl
  · refine .inr ⟨hfails, ?_⟩
    match text with
    | [] => cases hmade
    | c :: rest =>
      refine ⟨c, rest, rfl, ?_⟩
      dsimp only at hmade
      split_ifs at hmade with hx hc
      · exact .inl ⟨hx, made_goto.mp hmade⟩
      · exact .inr (made_goto.mp hmade)
      · cases hmade

theorem made_plus (h : Made (matchPlus x re text) k) :
    ∃ c rest, text = c :: rest ∧ k = .star x re rest := by
  match text with
  | [] => cases h
  | c :: rest =>
    unfold matchPlus at h
    dsimp only at h
    split_ifs at h
    · exact ⟨c, rest, rfl, made_goto.mp h⟩
    · cases h

theorem made_question (h : Made (matchQuestion x re text) k) :
    k = .here re text ∨ ∃ c rest, text = c :: rest ∧ k = .here re rest := by
  rcases made_first.mp h with rfl | ⟨_, hmade⟩
  · exact .inl rfl
  · match text with
    | [] => cases hmade
    | c :: rest =>
      dsimp only at hmade
      split_ifs at hmade
      · exact .inr ⟨c, rest, rfl, made_goto.mp hmade⟩
      · cases hmade

theorem made_search (h : Made (search re text) k) :
    k = .here re text ∨ ∃ c rest, text = c :: rest ∧ k = .search re rest := by
  rcases made_first.mp h with rfl | ⟨_, hmade⟩
  · exact .inl rfl
  · match text with
    | [] => cases hmade
    | c :: rest => exact .inr ⟨c, rest, rfl, made_goto.mp hmade⟩

theorem made_exec (h : Made (regexec re text) k) :
    (∃ re', re = caret :: re' ∧ k = .here re' text) ∨ k = .search re text := by
  unfold regexec at h
  split_ifs at h with hcaret
  · obtain ⟨re', rfl⟩ := List.head?_eq_some_iff.mp hcaret
    exact .inl ⟨re', rfl, made_goto.mp h⟩
  · exact .inr (made_goto.mp h)

end made

section ends

variable {x : UInt8} {re string text : List UInt8} {k k' : Call}

def Call.pattern : Call → List UInt8
  | exec re _ | search re _ | here re _ | star _ re _ | plus _ re _ | question _ re _ => re

/-- The text that is left, and how far the call is from the next `match_here`. -/
def Call.work : Call → Nat
  | exec _ s => 4 * s.length + 3
  | search _ s => 4 * s.length + 2
  | here _ text => 4 * text.length
  | star _ _ text | plus _ _ text | question _ _ text => 4 * text.length + 1

/-- The loop of `match_star` is at a character that `.` does not step over, and the rest of the pattern
fails there: the next round is the same. -/
def Stuck : Call → Prop
  | .star x re text => x = period ∧ text ≠ [] ∧ Ends (.here re text) .failure
  | _ => False

def Smaller : Call → Call → Prop :=
  InvImage (Prod.Lex (· < ·) (· < ·)) fun k => (k.pattern.length, k.work)

theorem smaller_wf : WellFounded Smaller :=
  InvImage.wf _ (Prod.lex Nat.lt_wfRel Nat.lt_wfRel).wf

theorem smaller_of_pattern (h : k'.pattern.length < k.pattern.length) : Smaller k' k :=
  Prod.Lex.left _ _ h

theorem smaller_of_work (hle : k'.pattern = k.pattern) (h : k'.work < k.work) : Smaller k' k := by
  unfold Smaller InvImage
  dsimp only
  rw [hle]
  exact Prod.Lex.right _ h

/-- No call has a pattern that is not an end of the one before. -/
theorem suffix_of_calls (h : Calls k k') : k'.pattern <:+ k.pattern := by
  cases k with
  | exec re text =>
    rcases made_exec h with ⟨re', rfl, rfl⟩ | rfl
    · exact List.suffix_cons _ _
    · exact List.suffix_rfl
  | search re text =>
    rcases made_search h with rfl | ⟨c, rest, -, rfl⟩
    · exact List.suffix_rfl
    · exact List.suffix_rfl
  | here re text =>
    obtain ⟨x, re', rfl, hcase⟩ := made_here h
    apply List.IsSuffix.trans ?_ (List.suffix_cons x re')
    rcases hcase with ⟨re'', rfl, rfl⟩ | ⟨re'', rfl, rfl⟩ | ⟨re'', rfl, rfl⟩ | ⟨c, rest, -, rfl⟩
    · exact List.suffix_cons _ _
    · exact List.suffix_cons _ _
    · exact List.suffix_cons _ _
    · exact List.suffix_rfl
  | star x re text =>
    rcases made_star h with rfl | ⟨-, c, rest, -, ⟨-, rfl⟩ | rfl⟩
    · exact List.suffix_rfl
    · exact List.suffix_rfl
    · exact List.suffix_rfl
  | plus x re text =>
    obtain ⟨c, rest, -, rfl⟩ := made_plus h
    exact List.suffix_rfl
  | question x re text =>
    rcases made_question h with rfl | ⟨c, rest, -, rfl⟩
    · exact List.suffix_rfl
    · exact List.suffix_rfl

theorem suffix_of_reaches (h : Reaches k k') : k'.pattern <:+ k.pattern := by
  induction h with
  | refl => exact List.suffix_rfl
  | tail _ hcall ih => exact (suffix_of_calls hcall).trans ih

theorem smaller_of_calls (h : Calls k k') (hstuck : ¬Stuck k) : Smaller k' k := by
  cases k with
  | exec re text =>
    rcases made_exec h with ⟨re', rfl, rfl⟩ | rfl
    · exact smaller_of_pattern (by simp [Call.pattern])
    · exact smaller_of_work rfl (by simp [Call.work])
  | search re text =>
    rcases made_search h with rfl | ⟨c, rest, rfl, rfl⟩
    · exact smaller_of_work rfl (by simp [Call.work])
    · exact smaller_of_work rfl (by simp [Call.work])
  | here re text =>
    obtain ⟨x, re', rfl, hcase⟩ := made_here h
    apply smaller_of_pattern
    rcases hcase with ⟨re'', rfl, rfl⟩ | ⟨re'', rfl, rfl⟩ | ⟨re'', rfl, rfl⟩ | ⟨c, rest, -, rfl⟩
    all_goals simp only [Call.pattern, List.length_cons]; omega
  | star x re text =>
    rcases made_star h with rfl | ⟨hfails, c, rest, rfl, ⟨rfl, rfl⟩ | rfl⟩
    · exact smaller_of_work rfl (by simp [Call.work])
    · exact absurd ⟨rfl, by simp, hfails⟩ hstuck
    · exact smaller_of_work rfl (by simp [Call.work])
  | plus x re text =>
    obtain ⟨c, rest, rfl, rfl⟩ := made_plus h
    exact smaller_of_work rfl (by simp [Call.work])
  | question x re text =>
    rcases made_question h with rfl | ⟨c, rest, rfl, rfl⟩
    · exact smaller_of_work rfl (by simp [Call.work])
    · have hwork : (Call.here re rest).work < (Call.question x re (c :: rest)).work := by
        simp only [Call.work, List.length_cons]
        omega
      exact smaller_of_work rfl hwork

theorem Stuck.calls (h : Stuck k) : Calls k k := by
  cases k with
  | star x re text =>
    obtain ⟨rfl, hne, hfails⟩ := h
    obtain ⟨c, rest, rfl⟩ := List.exists_cons_of_ne_nil hne
    exact made_first.mpr (.inr ⟨hfails, by simp⟩)
  | _ => exact h.elim

/-- A call ends if it does not come to one that is stuck, and only then. -/
theorem ends_iff_not_stuck : (∃ o, Ends k o) ↔ ∀ k', Reaches k k' → ¬Stuck k' := by
  constructor
  · intro hends k' hreach hstuck
    have hacc := hreach.acc (Plan.ends_iff_acc.mp hends)
    induction hacc with
    | intro k' _ ih => exact ih k' hstuck.calls hreach hstuck
  · intro h
    exact Plan.ends_of_smaller smaller_wf fun k' hreach k'' hcall =>
      smaller_of_calls hcall (h k' hreach)

/-- Each further round of the loop of `match_star` is behind a character of the text. -/
def Progresses (re string : List UInt8) : Prop :=
  ∀ x re' text text', Reaches (.exec re string) (.star x re' text) →
    Calls (.star x re' text) (.star x re' text') → text'.length < text.length

theorem progress_of_not_stuck {text' : List UInt8} (hcall : Calls (.star x re text) (.star x re text'))
    (hstuck : ¬Stuck (.star x re text)) : text'.length < text.length := by
  have hsmaller := smaller_of_calls hcall hstuck
  rcases Prod.lex_def.mp hsmaller with hlt | ⟨-, hlt⟩
  · exact absurd hlt (Nat.lt_irrefl _)
  · simp only [Call.work] at hlt
    omega

/-- `.*b` on `a`. -/
theorem stuck_reached : Reaches (.exec [period, asterisk, 'b'.toUInt8] ['a'.toUInt8])
    (.star period ['b'.toUInt8] ['a'.toUInt8]) := by
  have hexec : Calls (.exec [period, asterisk, 'b'.toUInt8] ['a'.toUInt8])
      (.search [period, asterisk, 'b'.toUInt8] ['a'.toUInt8]) := .goto _
  have hsearch : Calls (.search [period, asterisk, 'b'.toUInt8] ['a'.toUInt8])
      (.here [period, asterisk, 'b'.toUInt8] ['a'.toUInt8]) := .first _ _
  have hhere : Calls (.here [period, asterisk, 'b'.toUInt8] ['a'.toUInt8])
      (.star period ['b'.toUInt8] ['a'.toUInt8]) := .goto _
  exact .head hexec (.head hsearch (.single hhere))

end ends

end LosTacOS.Libc.Regex
