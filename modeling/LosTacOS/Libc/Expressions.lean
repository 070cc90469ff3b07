import LosTacOS.Libc.Regex
import Mathlib.Computability.Language

/-! The expressions that `regexec` is for, their languages, and where its answer is right. -/
namespace LosTacOS.Libc.Regex
open scoped Computability

inductive Atom where
  | char (x : UInt8)
  | any
  | set (negated : Bool) (body : List UInt8)
deriving DecidableEq

inductive Count where
  | once
  | star
  | plus
  | question
deriving DecidableEq

structure Piece where
  atom : Atom
  count : Count
deriving DecidableEq

section shape

def Atom.bytes : Atom → List UInt8
  | .char x => [x]
  | .any => [period]
  | .set negated body => opening :: ((if negated then [caret] else []) ++ (body ++ [closing]))

def Count.bytes : Count → List UInt8
  | .once => []
  | .star => [asterisk]
  | .plus => [plusSign]
  | .question => [Regex.question]

def Piece.bytes (p : Piece) : List UInt8 := p.atom.bytes ++ p.count.bytes

def Atom.WellFormed : Atom → Prop
  | .char x => x ≠ period ∧ x ≠ opening ∧ x ∉ operators
  | .any => True
  | .set negated body => closing ∉ body ∧ (negated = false → body.head? ≠ some caret)

instance : DecidablePred Atom.WellFormed
  | .char x => inferInstanceAs (Decidable (x ≠ period ∧ x ≠ opening ∧ x ∉ operators))
  | .any => inferInstanceAs (Decidable True)
  | .set negated body =>
    inferInstanceAs (Decidable (closing ∉ body ∧ (negated = false → body.head? ≠ some caret)))

def pieceBytes (pieces : List Piece) (atEnd : Bool) : List UInt8 :=
  pieces.flatMap Piece.bytes ++ if atEnd then [dollar] else []

/-- A pattern. A `^` in front and a `$` at the end have their meaning there alone. -/
structure Expression where
  atFront : Bool
  pieces : List Piece
  atEnd : Bool
  wellFormed : ∀ p ∈ pieces, p.atom.WellFormed
  front : atFront = false → pieces.head?.map Piece.atom ≠ some (.char caret)
  back : atEnd = false → pieces.getLast? ≠ some ⟨.char dollar, .once⟩

def Expression.bytes (e : Expression) : List UInt8 :=
  (if e.atFront then [caret] else []) ++ pieceBytes e.pieces e.atEnd

end shape

section meaning

def Atom.fits (c : UInt8) : Atom → Bool
  | .char x => x = c
  | .any => true
  | .set negated body => inBody c body != negated

def Atom.language (a : Atom) : Language UInt8 := {w | ∃ c, a.fits c ∧ w = [c]}

def Piece.language (p : Piece) : Language UInt8 :=
  match p.count with
  | .once => p.atom.language
  | .star => p.atom.language∗
  | .plus => p.atom.language * p.atom.language∗
  | .question => 1 + p.atom.language

def language : List Piece → Language UInt8
  | [] => 1
  | p :: pieces => p.language * language pieces

def Accepts (e : Expression) (s : List UInt8) : Prop :=
  ∃ pre mid post, s = pre ++ (mid ++ post) ∧ mid ∈ language e.pieces ∧
    (e.atFront → pre = []) ∧ (e.atEnd → post = [])

def remainder (atEnd : Bool) : Language UInt8 := {post | atEnd → post = []}

def begins (pieces : List Piece) (atEnd : Bool) : Language UInt8 :=
  language pieces * remainder atEnd

variable {a : Atom} {M : Language UInt8} {w text : List UInt8} {pieces : List Piece} {atEnd : Bool}

theorem mem_atom_mul :
    w ∈ a.language * M ↔ ∃ c rest, w = c :: rest ∧ a.fits c ∧ rest ∈ M := by
  rw [Language.mem_mul]
  constructor
  · rintro ⟨u, ⟨c, hc, rfl⟩, rest, hrest, rfl⟩
    exact ⟨c, rest, rfl, hc, hrest⟩
  · rintro ⟨c, rest, rfl, hc, hrest⟩
    exact ⟨[c], ⟨c, hc, rfl⟩, rest, hrest, rfl⟩

@[simp] theorem nil_notMem_atom_mul : [] ∉ a.language * M := by
  rw [mem_atom_mul]
  rintro ⟨_, _, heq, -⟩
  cases heq

@[simp] theorem cons_mem_atom_mul {c : UInt8} :
    c :: w ∈ a.language * M ↔ a.fits c ∧ w ∈ M := by
  rw [mem_atom_mul]
  constructor
  · rintro ⟨_, _, heq, h⟩
    cases heq
    exact h
  · exact fun h => ⟨c, w, rfl, h⟩

theorem mem_kstar_mul :
    w ∈ a.language∗ * M ↔ w ∈ M ∨ w ∈ a.language * (a.language∗ * M) := by
  have hunfold : a.language∗ * M = M + a.language * (a.language∗ * M) := by
    calc a.language∗ * M = (1 + a.language * a.language∗) * M := by
          rw [Language.one_add_self_mul_kstar_eq_kstar]
      _ = M + a.language * (a.language∗ * M) := by rw [add_mul, one_mul, mul_assoc]
  rw [← Language.mem_add, ← hunfold]

theorem begins_cons (p : Piece) (pieces : List Piece) (atEnd : Bool) :
    begins (p :: pieces) atEnd = p.language * begins pieces atEnd := mul_assoc _ _ _

theorem mem_begins_nil : text ∈ begins [] atEnd ↔ (atEnd → text = []) := by
  unfold begins language
  rw [one_mul]
  rfl

theorem accepts_iff (e : Expression) (s : List UInt8) : Accepts e s ↔
    ∃ pre t, s = pre ++ t ∧ (e.atFront → pre = []) ∧ t ∈ begins e.pieces e.atEnd := by
  constructor
  · rintro ⟨pre, mid, post, hs, hmid, hpre, hpost⟩
    exact ⟨pre, mid ++ post, hs, hpre, Language.append_mem_mul hmid hpost⟩
  · rintro ⟨pre, t, hs, hpre, ht⟩
    obtain ⟨mid, hmid, post, hpost, rfl⟩ := Language.mem_mul.mp ht
    exact ⟨pre, mid, post, hs, hmid, hpre, hpost⟩

end meaning

section plans

variable {a : Atom} {x c y : UInt8} {re text p : List UInt8} {k k' : Call} {o : Outcome} {b : Bool}
  {plan : Plan Call} {count : Count} {pieces : List Piece} {atEnd negated : Bool}

theorem head_pieceBytes (h : ∀ p ∈ pieces, p.atom.WellFormed) :
    ∀ y ∈ (pieceBytes pieces atEnd).head?, y ∉ operators := by
  intro y hy
  cases pieces with
  | nil =>
    cases atEnd with
    | false => cases hy
    | true =>
      cases hy
      decide
  | cons p pieces =>
    have hp := h p (by simp)
    obtain ⟨a, count⟩ := p
    cases a with
    | char x =>
      cases hy
      exact hp.2.2
    | any =>
      cases hy
      decide
    | set negated body =>
      cases hy
      decide

theorem matchClass_of_scan {q : List UInt8} (h : scanNegated [caret] re c = some (b, q)) :
    matchClass (x :: re) c = some (b, 1) := by
  have hmatch : ∃ len, matchClass (x :: re) c = some (b, len) := by
    unfold matchClass
    rw [List.tail_cons, h]
    exact ⟨_, rfl⟩
  obtain ⟨len, hlen⟩ := hmatch
  rw [hlen, matchClass_len hlen]

theorem matchClass_set (hbody : (Atom.set negated p).WellFormed) (c : UInt8) :
    matchClass ((Atom.set negated p).bytes ++ re) c = some ((Atom.set negated p).fits c, 1) := by
  obtain ⟨hclosing, hcaret⟩ := hbody
  have hscan := scanClass_body c false hclosing re
  rw [Bool.false_or] at hscan
  cases negated with
  | true =>
    apply @matchClass_of_scan _ _ _ _ re
    simp [Atom.fits, scanNegated, hscan]
  | false =>
    apply @matchClass_of_scan _ _ _ _ re
    have hhead : p.head?.getD closing ≠ caret := by
      cases p with
      | nil => decide
      | cons x p => simpa using hcaret rfl
    simp [Atom.fits, scanNegated, hscan, hhead]

/-- A bracket expression in front of a character that is not in it. -/
theorem matchHere_miss (hre : ∀ y ∈ re.head?, y ∉ operators) (hmiss : ∀ c ∈ text.head?,
    c ≠ opening ∧ matchClass (opening :: re) c = some (false, 1)) :
    matchHere (opening :: re) text = answer false := by
  refine (matchHere_single hre fun h => absurd h.1 (by decide)).trans ?_
  cases text with
  | nil => rfl
  | cons c rest =>
    obtain ⟨hc, hclass⟩ := hmiss c rfl
    have hfits : ¬(opening = period ∨ opening = c) := fun h => h.elim (by decide) (Ne.symm hc)
    dsimp only
    rw [if_neg hfits, if_pos rfl, hclass]

theorem ends_goto (hbody : body k = .goto k') (h : Ends k o) : Calls k k' ∧ Ends k' o := by
  have hyields := Plan.ends_iff.mp h
  rw [hbody] at hyields
  refine ⟨?_, hyields⟩
  unfold Calls Plan.Calls
  rw [hbody]
  exact .goto k'

theorem ends_answer (hbody : body k = answer b) (h : Ends k o) :
    o = if b then .success else .failure := by
  have hyields := Plan.ends_iff.mp h
  rw [hbody] at hyields
  exact hyields

theorem ends_first (hbody : body k = .first k' plan) (h : Ends k o) : Calls k k' ∧
    (Ends k' o ∧ o ≠ .failure ∨ Ends k' .failure ∧ plan.Yields Ends o) := by
  have hyields := Plan.ends_iff.mp h
  rw [hbody] at hyields
  refine ⟨?_, hyields⟩
  unfold Calls Plan.Calls
  rw [hbody]
  exact .first k' plan

theorem calls_next (hbody : body k = .first k' plan) (hfails : Ends k' .failure)
    {k'' : Call} (h : Made plan k'') : Calls k k'' := by
  unfold Calls Plan.Calls
  rw [hbody]
  exact .later hfails h

end plans

section right

/-- The search is at a bracket expression that it does not read as one: an operator stands behind it or
is the first of its characters, or it has to take the next character of the text. -/
def Broken : Call → Prop
  | .here re text => ∃ negated body count pieces atEnd,
      re = pieceBytes (⟨.set negated body, count⟩ :: pieces) atEnd ∧
        (Atom.set negated body).WellFormed ∧
        (count ≠ .once ∨ negated = false ∧ body.head?.any (· ∈ operators) ∨
          text.head?.any fun c => c = opening || (Atom.set negated body).fits c)
  | _ => False

def Answers (o : Outcome) (P : Prop) : Prop := o = .success ∧ P ∨ o = .failure ∧ ¬P

/-- `regexec` answers whether the string has a part in the language. -/
def Right (e : Expression) (s : List UInt8) : Prop :=
  ∃ o, Ends (.exec e.bytes s) o ∧ Answers o (Accepts e s)

def Clean (k : Call) : Prop := ∀ k', Reaches k k' → ¬Stuck k' ∧ ¬Broken k'

variable {P Q : Prop} {o : Outcome} {k k' : Call} {a : Atom} {x c : UInt8} {re text s : List UInt8}
  {M : Language UInt8} {pieces : List Piece} {atEnd : Bool} {b : Bool}

theorem Clean.calls (h : Clean k) (hcall : Calls k k') : Clean k' :=
  fun k'' hreach => h k'' (.head hcall hreach)

theorem Answers.congr (h : Answers o P) (hiff : Q ↔ P) : Answers o Q := by
  unfold Answers
  rwa [hiff]

theorem answers_of_eq (h : o = if b then .success else .failure) (hiff : b = true ↔ P) :
    Answers o P := by
  cases b with
  | true => exact .inl ⟨h, hiff.mp rfl⟩
  | false => exact .inr ⟨h, mt hiff.mpr Bool.false_ne_true⟩

theorem Answers.of_failure (h : Answers .failure P) : ¬P := by
  rcases h with ⟨h, -⟩ | ⟨-, h⟩
  · cases h
  · exact h

theorem Answers.of_ne (h : Answers o P) (hne : o ≠ .failure) : o = .success ∧ P := by
  rcases h with h | ⟨h, -⟩
  · exact h
  · exact absurd h hne

inductive Single : Atom → UInt8 → Prop
  | any : Single .any period
  | char {x : UInt8} : x ≠ period → Single (.char x) x

theorem Single.fits_iff (h : Single a x) : x = period ∨ c = x ↔ a.fits c := by
  cases h with
  | any => simp [Atom.fits]
  | char hx => simp [Atom.fits, hx, eq_comm]

theorem Atom.WellFormed.single_or_set (h : a.WellFormed) :
    (∃ x, Single a x ∧ a.bytes = [x] ∧ x ≠ opening) ∨ ∃ negated body, a = .set negated body := by
  cases a with
  | char x => exact .inl ⟨x, .char h.1, rfl, h.2.1⟩
  | any => exact .inl ⟨period, .any, rfl, by decide⟩
  | set negated body => exact .inr ⟨negated, body, rfl⟩

/-- `match_star`: as many characters as there are, and then the rest. -/
theorem star_right (ha : Single a x)
    (hre : ∀ text o, Clean (.here re text) → Ends (.here re text) o → Answers o (text ∈ M))
    (hclean : Clean (.star x re text)) (h : Ends (.star x re text) o) :
    Answers o (text ∈ a.language∗ * M) := by
  induction text with
  | nil =>
    obtain ⟨hcall, ⟨hhere, hne⟩ | ⟨hfails, hnext⟩⟩ := ends_first rfl h
    · obtain ⟨rfl, hmem⟩ := (hre _ _ (hclean.calls hcall) hhere).of_ne hne
      exact .inl ⟨rfl, mem_kstar_mul.mpr (.inl hmem)⟩
    · have hmem := (hre _ _ (hclean.calls hcall) hfails).of_failure
      refine .inr ⟨hnext, ?_⟩
      rw [mem_kstar_mul]
      simp [hmem]
  | cons c rest ih =>
    obtain ⟨hcall, ⟨hhere, hne⟩ | ⟨hfails, hnext⟩⟩ := ends_first rfl h
    · obtain ⟨rfl, hmem⟩ := (hre _ _ (hclean.calls hcall) hhere).of_ne hne
      exact .inl ⟨rfl, mem_kstar_mul.mpr (.inl hmem)⟩
    · have hmem := (hre _ _ (hclean.calls hcall) hfails).of_failure
      have hx : x ≠ period := fun hx => (hclean _ .refl).1 ⟨hx, by simp, hfails⟩
      have hstep : c :: rest ∈ a.language∗ * M ↔ c = x ∧ rest ∈ a.language∗ * M := by
        rw [mem_kstar_mul, cons_mem_atom_mul, ← ha.fits_iff]
        simp [hmem, hx]
      dsimp only at hnext
      rw [if_neg hx] at hnext
      by_cases hc : c = x
      · rw [if_pos hc] at hnext
        have hgo : Calls (.star x re (c :: rest)) (.star x re rest) := by
          apply calls_next rfl hfails
          simp [hx, hc]
        apply (ih (hclean.calls hgo) hnext).congr
        rw [hstep]
        simp [hc]
      · rw [if_neg hc] at hnext
        exact .inr ⟨hnext, by simp [hstep, hc]⟩

/-- One character, and what a call makes of the text behind it. -/
theorem take_right (ha : Single a x) {go : List UInt8 → Call} {plan : Plan Call}
    (hnil : text = [] → plan = answer false)
    (hcons : ∀ c rest, text = c :: rest →
      plan = if x = period ∨ c = x then .goto (go rest) else answer false)
    (hgo : ∀ rest, Made plan (go rest) → Ends (go rest) o → Answers o (rest ∈ M))
    (h : plan.Yields Ends o) : Answers o (text ∈ a.language * M) := by
  cases text with
  | nil =>
    rw [hnil rfl] at h
    exact .inr ⟨h, nil_notMem_atom_mul⟩
  | cons c rest =>
    have hplan := hcons c rest rfl
    by_cases hc : x = period ∨ c = x
    · rw [if_pos hc] at hplan
      rw [hplan] at h hgo
      apply (hgo rest (.goto _) h).congr
      simp [← ha.fits_iff, hc]
    · rw [if_neg hc] at hplan
      rw [hplan] at h
      exact .inr ⟨h, by simp [← ha.fits_iff, hc]⟩

theorem plus_right (ha : Single a x)
    (hre : ∀ text o, Clean (.here re text) → Ends (.here re text) o → Answers o (text ∈ M))
    (hclean : Clean (.plus x re text)) (h : Ends (.plus x re text) o) :
    Answers o (text ∈ a.language * (a.language∗ * M)) := by
  apply @take_right o a x text _ ha (.star x re) (matchPlus x re text)
  · rintro rfl
    rfl
  · rintro c rest rfl
    rfl
  · intro rest hmade hstar
    exact star_right ha hre (hclean.calls hmade) hstar
  · exact Plan.ends_iff.mp h

theorem question_right (ha : Single a x)
    (hre : ∀ text o, Clean (.here re text) → Ends (.here re text) o → Answers o (text ∈ M))
    (hclean : Clean (.question x re text)) (h : Ends (.question x re text) o) :
    Answers o (text ∈ M + a.language * M) := by
  obtain ⟨hcall, ⟨hhere, hne⟩ | ⟨hfails, hnext⟩⟩ := ends_first rfl h
  · obtain ⟨rfl, hmem⟩ := (hre _ _ (hclean.calls hcall) hhere).of_ne hne
    exact .inl ⟨rfl, .inl hmem⟩
  · have hmem := (hre _ _ (hclean.calls hcall) hfails).of_failure
    have htake : Answers o (text ∈ a.language * M) := by
      refine @take_right o a x text _ ha (.here re) _ ?_ ?_ ?_ hnext
      · rintro rfl
        rfl
      · rintro c rest rfl
        rfl
      · intro rest hmade hhere
        exact hre _ _ (hclean.calls (calls_next rfl hfails hmade)) hhere
    apply htake.congr
    rw [Language.mem_add, or_iff_right hmem]

theorem pieceBytes_cons (p : Piece) (pieces : List Piece) (atEnd : Bool) :
    pieceBytes (p :: pieces) atEnd = p.atom.bytes ++ (p.count.bytes ++ pieceBytes pieces atEnd) := by
  simp [pieceBytes, Piece.bytes]

theorem pieceBytes_eq_nil (h : pieceBytes pieces atEnd = []) : pieces = [] ∧ atEnd = false := by
  cases pieces with
  | nil =>
    cases atEnd with
    | false => exact ⟨rfl, rfl⟩
    | true => cases h
  | cons p pieces =>
    rw [pieceBytes_cons] at h
    have hbytes := (List.append_eq_nil_iff.mp h).1
    obtain ⟨a, count⟩ := p
    cases a with
    | _ => cases hbytes

theorem single_right (ha : Single a x) (hx : x ≠ opening) (hhead : ∀ y ∈ re.head?, y ∉ operators)
    (hend : ¬(x = dollar ∧ re = []))
    (hre : ∀ text o, Clean (.here re text) → Ends (.here re text) o → Answers o (text ∈ M))
    (hclean : Clean (.here (x :: re) text)) (h : Ends (.here (x :: re) text) o) :
    Answers o (text ∈ a.language * M) := by
  have hplan := @matchHere_single x re text hhead hend
  apply @take_right o a x text _ ha (.here re) (matchHere (x :: re) text)
  · rintro rfl
    exact hplan
  · rintro c rest rfl
    simp only [hplan, hx, if_false, @eq_comm _ x c]
  · intro rest hmade hhere
    exact hre _ _ (hclean.calls hmade) hhere
  · exact Plan.ends_iff.mp h

/-- A bracket expression that is not broken fails, as it should. -/
theorem set_right {negated : Bool} {body : List UInt8} {count : Count}
    (hwf : (Atom.set negated body).WellFormed)
    (hbroken : ¬Broken (.here (pieceBytes (⟨.set negated body, count⟩ :: pieces) atEnd) text))
    (h : Ends (.here (pieceBytes (⟨.set negated body, count⟩ :: pieces) atEnd) text) o) :
    Answers o (text ∈ begins (⟨.set negated body, count⟩ :: pieces) atEnd) := by
  have hsound : ¬(count ≠ .once ∨ negated = false ∧ body.head?.any (· ∈ operators) ∨
      text.head?.any fun c => c = opening || (Atom.set negated body).fits c) :=
    fun hcase => hbroken ⟨negated, body, count, pieces, atEnd, rfl, hwf, hcase⟩
  obtain ⟨hcount, hfirst, hchar⟩ : count = .once ∧
      ¬(negated = false ∧ body.head?.any (· ∈ operators)) ∧
      ¬(text.head?.any fun c => c = opening || (Atom.set negated body).fits c) := by
    simpa only [not_or, not_not, ne_eq] using hsound
  subst hcount
  rw [pieceBytes_cons] at h
  have hhead : ∀ y ∈ (((if negated then [caret] else []) ++ (body ++ [closing])) ++
      (Count.once.bytes ++ pieceBytes pieces atEnd)).head?, y ∉ operators := by
    intro y hy
    cases negated with
    | true =>
      cases hy
      decide
    | false =>
      cases body with
      | nil =>
        cases hy
        decide
      | cons z body =>
        cases hy
        simpa using hfirst
  have hmiss : ∀ c ∈ text.head?, c ≠ opening ∧ (Atom.set negated body).fits c = false := by
    intro c hc
    rw [hc] at hchar
    simpa only [Option.any_some, Bool.or_eq_true, decide_eq_true_eq, not_or,
      Bool.not_eq_true] using hchar
  have hbody : Regex.body (.here ((Atom.set negated body).bytes ++
      (Count.once.bytes ++ pieceBytes pieces atEnd)) text) = answer false := by
    apply matchHere_miss hhead
    intro c hc
    obtain ⟨hopening, hfits⟩ := hmiss c hc
    exact ⟨hopening, hfits ▸ matchClass_set hwf c⟩
  refine .inr ⟨ends_answer hbody h, ?_⟩
  rw [begins_cons]
  cases text with
  | nil => exact nil_notMem_atom_mul
  | cons c rest =>
    intro hmem
    have hfits := (cons_mem_atom_mul.mp hmem).1
    rw [(hmiss c rfl).2] at hfits
    cases hfits

/-- `match_here`: the text begins with a word of the language. -/
theorem here_right (hwf : ∀ p ∈ pieces, p.atom.WellFormed)
    (hback : atEnd = false → pieces.getLast? ≠ some ⟨.char dollar, .once⟩)
    (hclean : Clean (.here (pieceBytes pieces atEnd) text))
    (h : Ends (.here (pieceBytes pieces atEnd) text) o) :
    Answers o (text ∈ begins pieces atEnd) := by
  induction pieces generalizing text o with
  | nil =>
    cases atEnd with
    | false =>
      apply answers_of_eq (ends_answer rfl h)
      simp [mem_begins_nil]
    | true =>
      apply answers_of_eq (ends_answer rfl h)
      simp [mem_begins_nil]
  | cons p pieces ih =>
    obtain ⟨a, count⟩ := p
    have hwf' : ∀ p ∈ pieces, p.atom.WellFormed := fun p hp => hwf p (by simp [hp])
    have hhead := @head_pieceBytes pieces atEnd hwf'
    have hback' : atEnd = false → pieces.getLast? ≠ some ⟨.char dollar, .once⟩ := by
      intro hend hlast
      apply hback hend
      rw [List.getLast?_cons, hlast]
      rfl
    have hre : ∀ text o, Clean (.here (pieceBytes pieces atEnd) text) →
        Ends (.here (pieceBytes pieces atEnd) text) o → Answers o (text ∈ begins pieces atEnd) :=
      fun _ _ => ih hwf' hback'
    rcases (hwf ⟨a, count⟩ (by simp)).single_or_set with ⟨x, ha, hbytes, hx⟩ | ⟨negated, body, rfl⟩
    · rw [begins_cons]
      rw [pieceBytes_cons, hbytes] at h hclean
      cases count with
      | once =>
        refine single_right ha hx hhead ?_ hre hclean h
        rintro ⟨rfl, hnil⟩
        obtain ⟨rfl, hend⟩ := pieceBytes_eq_nil hnil
        apply hback hend
        cases ha with
        | char _ => rfl
      | star =>
        obtain ⟨hcall, hstar⟩ := ends_goto rfl h
        exact star_right ha hre (hclean.calls hcall) hstar
      | plus =>
        obtain ⟨hcall, hplus⟩ := ends_goto rfl h
        have hright := plus_right ha hre (hclean.calls hcall) hplus
        rwa [← mul_assoc] at hright
      | question =>
        obtain ⟨hcall, hquestion⟩ := ends_goto rfl h
        have hright := question_right ha hre (hclean.calls hcall) hquestion
        rw [show Piece.language ⟨a, .question⟩ = 1 + a.language from rfl, add_mul, one_mul]
        exact hright
    · exact set_right (hwf _ List.mem_cons_self) (hclean _ .refl).2 h

/-- The loop of `regexec`: some end of the string begins with a word. -/
theorem search_right
    (hre : ∀ text o, Clean (.here re text) → Ends (.here re text) o → Answers o (text ∈ M))
    (hclean : Clean (.search re s)) (h : Ends (.search re s) o) :
    Answers o (∃ pre t, s = pre ++ t ∧ t ∈ M) := by
  induction s with
  | nil =>
    obtain ⟨hcall, ⟨hhere, hne⟩ | ⟨hfails, hnext⟩⟩ := ends_first rfl h
    · obtain ⟨rfl, hmem⟩ := (hre _ _ (hclean.calls hcall) hhere).of_ne hne
      exact .inl ⟨rfl, [], [], rfl, hmem⟩
    · have hmem := (hre _ _ (hclean.calls hcall) hfails).of_failure
      refine .inr ⟨hnext, ?_⟩
      rintro ⟨pre, t, heq, ht⟩
      obtain ⟨-, rfl⟩ := List.append_eq_nil_iff.mp heq.symm
      exact hmem ht
  | cons c s ih =>
    obtain ⟨hcall, ⟨hhere, hne⟩ | ⟨hfails, hnext⟩⟩ := ends_first rfl h
    · obtain ⟨rfl, hmem⟩ := (hre _ _ (hclean.calls hcall) hhere).of_ne hne
      exact .inl ⟨rfl, [], c :: s, rfl, hmem⟩
    · have hmem := (hre _ _ (hclean.calls hcall) hfails).of_failure
      have hsearch := hclean.calls (calls_next rfl hfails (.goto _))
      apply (ih hsearch hnext).congr
      constructor
      · rintro ⟨pre, t, heq, ht⟩
        cases pre with
        | nil =>
          subst heq
          exact absurd ht hmem
        | cons x pre => exact ⟨pre, t, (List.cons.inj heq).2, ht⟩
      · rintro ⟨pre, t, rfl, ht⟩
        exact ⟨c :: pre, t, rfl, ht⟩

/-- A pattern without an anchor does not begin as one with it. -/
theorem Expression.head_ne_caret (e : Expression) (h : e.atFront = false) :
    (pieceBytes e.pieces e.atEnd).head? ≠ some caret := by
  have hfront := e.front h
  cases hp : e.pieces with
  | nil => cases e.atEnd <;> decide
  | cons p pieces =>
    rw [hp] at hfront
    obtain ⟨a, count⟩ := p
    cases a with
    | char x => exact fun hx => hfront (congrArg (fun x => some (Atom.char x)) (Option.some.inj hx))
    | any => exact fun hx => absurd (Option.some.inj hx) (by decide)
    | set negated body => exact fun hx => absurd (Option.some.inj hx) (by decide)

theorem exec_right {e : Expression} (hclean : Clean (.exec e.bytes s))
    (h : Ends (.exec e.bytes s) o) : Answers o (Accepts e s) := by
  have hre : ∀ text o, Clean (.here (pieceBytes e.pieces e.atEnd) text) →
      Ends (.here (pieceBytes e.pieces e.atEnd) text) o →
      Answers o (text ∈ begins e.pieces e.atEnd) :=
    fun _ _ => here_right e.wellFormed e.back
  cases hfront : e.atFront with
  | true =>
    have hbytes : e.bytes = caret :: pieceBytes e.pieces e.atEnd := by
      unfold Expression.bytes
      rw [hfront]
      rfl
    rw [hbytes] at h hclean
    obtain ⟨hcall, hhere⟩ := ends_goto rfl h
    apply (hre _ _ (hclean.calls hcall) hhere).congr
    rw [accepts_iff]
    simp [hfront]
  | false =>
    have hbytes : e.bytes = pieceBytes e.pieces e.atEnd := by
      unfold Expression.bytes
      rw [hfront]
      rfl
    rw [hbytes] at h hclean
    have hbody : Regex.body (.exec (pieceBytes e.pieces e.atEnd) s) =
        .goto (.search (pieceBytes e.pieces e.atEnd) s) := if_neg (e.head_ne_caret hfront)
    obtain ⟨hcall, hsearch⟩ := ends_goto hbody h
    apply (search_right hre (hclean.calls hcall) hsearch).congr
    rw [accepts_iff]
    simp [hfront]

/-- On a run that comes to no bracket expression that it misreads, the answer is right if the run does
not come to a `.*` or `.+` where it hangs, and only then. -/
theorem regexec_right_iff (e : Expression) (s : List UInt8)
    (hsets : ∀ k, Reaches (.exec e.bytes s) k → ¬Broken k) :
    Right e s ↔ ∀ k, Reaches (.exec e.bytes s) k → ¬Stuck k := by
  constructor
  · rintro ⟨o, hends, -⟩
    exact ends_iff_not_stuck.mp ⟨o, hends⟩
  · intro h
    obtain ⟨o, hends⟩ := ends_iff_not_stuck.mpr h
    exact ⟨o, hends, exec_right (fun k hk => ⟨h k hk, hsets k hk⟩) hends⟩

/-- A pattern without brackets has none that is misread. -/
theorem not_broken (h : opening ∉ k.pattern) (hreach : Reaches k k') : ¬Broken k' := by
  intro hbroken
  cases k' with
  | here re text =>
    obtain ⟨negated, body, count, pieces, atEnd, rfl, -⟩ := hbroken
    apply h
    apply (suffix_of_reaches hreach).mem
    simp [Call.pattern, pieceBytes_cons, Atom.bytes]
  | _ => exact hbroken

def abStar : Expression where
  atFront := false
  pieces := [⟨.char 'a'.toUInt8, .once⟩, ⟨.char 'b'.toUInt8, .star⟩]
  atEnd := false
  wellFormed := by decide
  front := by decide
  back := by decide

theorem regexec_abStar : Right abStar ['c'.toUInt8, 'a'.toUInt8, 'b'.toUInt8, 'b'.toUInt8] :=
  (regexec_right_iff abStar ['c'.toUInt8, 'a'.toUInt8, 'b'.toUInt8, 'b'.toUInt8]
    fun _ => not_broken (by decide)).mpr (ends_iff_not_stuck.mp ⟨.success, 8, by decide⟩)

def letters : Expression where
  atFront := false
  pieces := [⟨.set false ['a'.toUInt8, 'b'.toUInt8, 'c'.toUInt8], .once⟩]
  atEnd := false
  wellFormed := by decide
  front := by decide
  back := by decide

theorem letters_accepts : Accepts letters ['a'.toUInt8] := by
  rw [accepts_iff]
  refine ⟨[], ['a'.toUInt8], rfl, nofun, ?_⟩
  rw [show letters.pieces = [⟨.set false ['a'.toUInt8, 'b'.toUInt8, 'c'.toUInt8], .once⟩] from rfl,
    begins_cons]
  refine cons_mem_atom_mul.mpr ⟨by decide, ?_⟩
  rw [mem_begins_nil]
  exact fun _ => rfl

theorem brackets_misread : ¬ ∀ (e : Expression) (s : List UInt8), Right e s := by
  intro h
  obtain ⟨o, hends, hright⟩ := h letters ['a'.toUInt8]
  have hfails : Ends (.exec letters.bytes ['a'.toUInt8]) .failure := ⟨8, by decide⟩
  rw [hends.unique hfails] at hright
  exact hright.of_failure letters_accepts

end right

end LosTacOS.Libc.Regex
