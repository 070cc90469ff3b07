import LosTacOS.Libc.Fnmatch
import LosTacOS.Libc.Regex

/-! The reads of the C library's matchers behind the terminators of their patterns. -/
namespace LosTacOS.Libc

namespace Fnmatch

section places

variable {flags : Flags} {rest : List UInt8 → Option Bool} {p s t : List UInt8} {x c : UInt8}

inductive Comes (flags : Flags) (rest : List UInt8 → Option Bool) :
    List UInt8 → List UInt8 → Prop
  | here (s : List UInt8) : Comes flags rest s s
  | later {c : UInt8} {s t : List UInt8} : ¬(flags.pathname && c = separator) →
      rest (c :: s) = some false → Comes flags rest s t → Comes flags rest (c :: s) t

/-- `match` goes on from a place of the pattern and the string to another. -/
inductive Goes (flags : Flags) : List UInt8 × List UInt8 → List UInt8 × List UInt8 → Prop
  | question {p s : List UInt8} {c : UInt8} : ¬(flags.pathname && c = separator) →
      Goes flags (question :: p, c :: s) (p, s)
  | asterisk {p s t : List UInt8} : p.dropWhile (· = asterisk) ≠ [] →
      Comes flags (matches_ flags (p.dropWhile (· = asterisk))) s t →
      Goes flags (asterisk :: p, s) (p.dropWhile (· = asterisk), t)
  | set {p q s : List UInt8} {c : UInt8} : matchClass p c = some (true, q) →
      Goes flags (opening :: p, c :: s) (q, s)
  | escape {p s : List UInt8} {x : UInt8} : flags.noescape = false →
      Goes flags (backslash :: x :: p, x :: s) (p, s)
  | plain {p s : List UInt8} {x : UInt8} : Plain flags x → Goes flags (x :: p, x :: s) (p, s)

/-- The places where the next read is behind a terminator: a character has to be compared with a
bracket expression that a range cut short ends, or the end of the string with an escaped one. -/
inductive Outside (flags : Flags) : List UInt8 × List UInt8 → Prop
  | set {p s : List UInt8} {c : UInt8} : cutShort (behindNegator ['^'.toUInt8, '!'.toUInt8] p) →
      Outside flags (opening :: p, c :: s)
  | escape : flags.noescape = false → Outside flags ([backslash], [])

theorem tryFrom_eq_none_iff :
    tryFrom flags rest s = none ↔ ∃ t, Comes flags rest s t ∧ rest t = none := by
  constructor
  · intro h
    induction s with
    | nil => exact ⟨[], .here [], h⟩
    | cons c s ih =>
      unfold tryFrom at h
      split at h
      · exact ⟨c :: s, .here _, h⟩
      · next hsep =>
        cases hrest : rest (c :: s) with
        | none => exact ⟨c :: s, .here _, hrest⟩
        | some b =>
          rw [hrest] at h
          cases b with
          | true => cases h
          | false =>
            obtain ⟨t, hcomes, ht⟩ := ih h
            exact ⟨t, .later hsep hrest hcomes, ht⟩
  · rintro ⟨t, hcomes, ht⟩
    induction hcomes with
    | here s =>
      cases s with
      | nil => exact ht
      | cons c s => simp [tryFrom, ht]
    | later hsep hrest _ ih =>
      unfold tryFrom
      rw [if_neg hsep, hrest]
      exact ih ht

theorem matchClass_eq_none_iff : matchClass p c = none ↔
    cutShort (behindNegator ['^'.toUInt8, '!'.toUInt8] p) := scanNegated_eq_none_iff

/-- Where a step leads outside, the place before it does. -/
theorem none_of_goes {place next : List UInt8 × List UInt8} (h : Goes flags place next)
    (hnext : matches_ flags next.1 next.2 = none) : matches_ flags place.1 place.2 = none := by
  cases h with
  | question hsep => rw [matches_question, if_neg hsep, hnext]
  | asterisk hrest hcomes =>
    rw [matches_asterisk, if_neg hrest, tryFrom_eq_none_iff]
    exact ⟨_, hcomes, hnext⟩
  | set hclass =>
    rw [matches_opening, hclass]
    exact hnext
  | escape he => rw [matches_escape he, if_pos rfl, hnext]
  | plain hx => rw [matches_plain hx, if_pos rfl, hnext]

theorem none_of_outside {place : List UInt8 × List UInt8} (h : Outside flags place) :
    matches_ flags place.1 place.2 = none := by
  cases h with
  | set hcut => rw [matches_opening, matchClass_eq_none_iff.mpr hcut]
  | escape he => rw [matches_backslash he, if_pos rfl]

theorem Goes.length_lt {place next : List UInt8 × List UInt8} (h : Goes flags place next) :
    next.1.length < place.1.length := by
  cases h with
  | question _ => exact Nat.lt_succ_self _
  | asterisk _ _ => exact Nat.lt_succ_of_le (dropWhile_length _ _)
  | set hclass => exact Nat.lt_succ_of_le (scanNegated_length hclass)
  | escape _ =>
    simp only [List.length_cons]
    omega
  | plain _ => exact Nat.lt_succ_self _

/-- A step that has no result is outside, or goes on to a place that has none. -/
theorem outside_or_goes (h : matches_ flags p s = none) : Outside flags (p, s) ∨
    ∃ next, Goes flags (p, s) next ∧ matches_ flags next.1 next.2 = none := by
  match p with
  | [] =>
    rw [matches_nil] at h
    cases h
  | x :: p =>
    by_cases hquestion : x = question
    · subst hquestion
      match s with
      | [] =>
        rw [matches_question_nil] at h
        cases h
      | c :: s =>
        rw [matches_question] at h
        split at h
        · cases h
        · next hsep => exact .inr ⟨_, .question hsep, h⟩
    by_cases hasterisk : x = asterisk
    · subst hasterisk
      rw [matches_asterisk] at h
      split at h
      · cases h
      · next hrest =>
        obtain ⟨t, hcomes, ht⟩ := tryFrom_eq_none_iff.mp h
        exact .inr ⟨_, .asterisk hrest hcomes, ht⟩
    by_cases hopening : x = opening
    · subst hopening
      match s with
      | [] =>
        rw [matches_opening_nil] at h
        cases h
      | c :: s =>
        rw [matches_opening] at h
        cases hclass : matchClass p c with
        | none => exact .inl (.set (matchClass_eq_none_iff.mp hclass))
        | some r =>
          obtain ⟨ok, q⟩ := r
          rw [hclass] at h
          cases ok with
          | false => cases h
          | true => exact .inr ⟨_, .set hclass, h⟩
    by_cases hescape : x = backslash ∧ flags.noescape = false
    · obtain ⟨rfl, he⟩ := hescape
      match p with
      | [] =>
        rw [matches_backslash he] at h
        split at h
        · next hs =>
          rw [hs]
          exact .inl (.escape he)
        · cases h
      | y :: p =>
        match s with
        | [] =>
          rw [matches_escape_nil he] at h
          cases h
        | c :: s =>
          rw [matches_escape he] at h
          split at h
          · next heq =>
            subst heq
            exact .inr ⟨_, .escape he, h⟩
          · cases h
    · have hplain : Plain flags x := by
        refine ⟨hquestion, hasterisk, hopening, ?_⟩
        intro hx
        simpa [hx] using hescape
      match s with
      | [] =>
        rw [matches_plain_nil hplain] at h
        cases h
      | c :: s =>
        rw [matches_plain hplain] at h
        split at h
        · next heq =>
          subst heq
          exact .inr ⟨_, .plain hplain, h⟩
        · cases h

theorem none_of_reaches {place next : List UInt8 × List UInt8}
    (h : Relation.ReflTransGen (Goes flags) place next) (hout : Outside flags next) :
    matches_ flags place.1 place.2 = none := by
  induction h using Relation.ReflTransGen.head_induction_on with
  | refl => exact none_of_outside hout
  | head hgoes _ ih => exact none_of_goes hgoes ih

/-- `match` reads behind a terminator where it comes to a place that does, and nowhere else. -/
theorem matches_eq_none_iff : matches_ flags p s = none ↔
    ∃ place, Relation.ReflTransGen (Goes flags) (p, s) place ∧ Outside flags place := by
  constructor
  · intro h
    induction hn : p.length using Nat.strong_induction_on generalizing p s with
    | _ n ih =>
      subst hn
      rcases outside_or_goes h with hout | ⟨⟨q, t⟩, hgoes, hnone⟩
      · exact ⟨_, .refl, hout⟩
      · obtain ⟨place, hreach, hout⟩ := ih _ hgoes.length_lt hnone rfl
        exact ⟨place, .head hgoes hreach, hout⟩
  · rintro ⟨place, hreach, hout⟩
    exact none_of_reaches hreach hout

end places

end Fnmatch

namespace Regex

variable {re text : List UInt8} {k : Call}

/-- The places where the next read is behind the terminator of the pattern: a character has to be
compared with a bracket expression that a range cut short ends. -/
inductive Outside : Call → Prop
  | mk {re text : List UInt8} {c : UInt8} :
      (∀ y ∈ re.head?, y ∉ operators) → c ≠ opening →
      cutShort (behindNegator [caret] re) → Outside (.here (opening :: re) (c :: text))

theorem matchClass_eq_none_iff {x c : UInt8} : matchClass (x :: re) c = none ↔
    cutShort (behindNegator [caret] re) := by
  unfold matchClass
  rw [Option.map_eq_none_iff]
  exact scanNegated_eq_none_iff

abbrev Faults (p : Plan Call) : Prop := p.Arrives (fun k => Ends k .failure) .fault

theorem faults_of_outside (h : Outside k) : Faults (body k) := by
  cases h with
  | @mk re text c hhead hc hcut =>
    have hfits : ¬(opening = period ∨ opening = c) := fun h => h.elim (by decide) (Ne.symm hc)
    have hbody : body (.here (opening :: re) (c :: text)) = .done .fault := by
      refine (matchHere_single hhead fun h => absurd h.1 (by decide)).trans ?_
      dsimp only
      rw [if_neg hfits, if_pos rfl, matchClass_eq_none_iff.mpr hcut]
    rw [hbody]
    exact .done _

theorem not_faults_answer {b : Bool} : ¬Faults (answer b) := by
  cases b with
  | true => nofun
  | false => nofun

theorem not_faults_goto : ¬Faults (.goto k) := nofun

theorem faults_first {p : Plan Call} (h : Faults (.first k p)) : Faults p := by
  cases h with
  | later _ hnext => exact hnext

theorem outside_of_here (h : Faults (matchHere re text)) : Outside (.here re text) := by
  cases re with
  | nil => exact (not_faults_answer h).elim
  | cons x re =>
    rw [matchHere.eq_def] at h
    dsimp only at h
    split at h
    · exact (not_faults_goto h).elim
    next hstar =>
    split at h
    · exact (not_faults_goto h).elim
    next hplus =>
    split at h
    · exact (not_faults_goto h).elim
    next hquestion =>
    have hhead : ∀ y ∈ re.head?, y ∉ operators := by
      intro y hy hmem
      rw [Option.mem_def] at hy
      rw [hy] at hstar hplus hquestion
      simp only [operators, List.mem_cons, List.not_mem_nil, or_false] at hmem
      rcases hmem with rfl | rfl | rfl
      · exact hstar rfl
      · exact hplus rfl
      · exact hquestion rfl
    split at h
    · exact (not_faults_answer h).elim
    cases text with
    | nil => exact (not_faults_answer h).elim
    | cons c rest =>
      dsimp only at h
      split at h
      · exact (not_faults_goto h).elim
      next hfits =>
      split at h
      · next hopening =>
        subst hopening
        split at h
        · next hclass =>
          refine .mk hhead ?_ (matchClass_eq_none_iff.mp hclass)
          rintro rfl
          exact hfits (.inr rfl)
        · exact (not_faults_goto h).elim
        · exact (not_faults_answer h).elim
      · exact (not_faults_answer h).elim

theorem outside_of_faults (h : Faults (body k)) : Outside k := by
  cases k with
  | exec re s =>
    have hexec : Faults (regexec re s) := h
    unfold regexec at hexec
    split_ifs at hexec
    · exact (not_faults_goto hexec).elim
    · exact (not_faults_goto hexec).elim
  | search re s =>
    have hnext := faults_first h
    cases s with
    | nil => exact (not_faults_answer hnext).elim
    | cons _ _ => exact (not_faults_goto hnext).elim
  | here re text => exact outside_of_here h
  | star x re text =>
    have hnext := faults_first h
    cases text with
    | nil => exact (not_faults_answer hnext).elim
    | cons c rest =>
      dsimp only at hnext
      split_ifs at hnext
      · exact (not_faults_goto hnext).elim
      · exact (not_faults_goto hnext).elim
      · exact (not_faults_answer hnext).elim
  | plus x re text =>
    have hplus : Faults (matchPlus x re text) := h
    cases text with
    | nil => exact (not_faults_answer hplus).elim
    | cons c rest =>
      unfold matchPlus at hplus
      dsimp only at hplus
      split_ifs at hplus
      · exact (not_faults_goto hplus).elim
      · exact (not_faults_answer hplus).elim
  | question x re text =>
    have hnext := faults_first h
    cases text with
    | nil => exact (not_faults_answer hnext).elim
    | cons c rest =>
      dsimp only at hnext
      split_ifs at hnext
      · exact (not_faults_goto hnext).elim
      · exact (not_faults_answer hnext).elim

/-- A run of `regexec` reads behind a terminator where it comes to a place that does, and nowhere
else. -/
theorem ends_fault_iff : Ends k .fault ↔ ∃ k', Reaches k k' ∧ Outside k' := by
  apply Plan.fault_iff.trans
  constructor
  · rintro ⟨k', hreach, harr⟩
    exact ⟨k', hreach, outside_of_faults harr⟩
  · rintro ⟨k', hreach, hout⟩
    exact ⟨k', hreach, faults_of_outside hout⟩

def Terminates (re string : List UInt8) : Prop := ∃ o, o ≠ .fault ∧ Ends (.exec re string) o

theorem answers_iff :
    (∃ o, o ≠ .fault ∧ Ends k o) ↔ ∀ k', Reaches k k' → ¬Stuck k' ∧ ¬Outside k' := by
  constructor
  · rintro ⟨o, hne, hends⟩ k' hreach
    refine ⟨ends_iff_not_stuck.mp ⟨o, hends⟩ k' hreach, ?_⟩
    intro hout
    exact hne (hends.unique (ends_fault_iff.mpr ⟨k', hreach, hout⟩))
  · intro h
    obtain ⟨o, hends⟩ := ends_iff_not_stuck.mpr fun k' hreach => (h k' hreach).1
    refine ⟨o, ?_, hends⟩
    rintro rfl
    obtain ⟨k', hreach, hout⟩ := ends_fault_iff.mp hends
    exact (h k' hreach).2 hout

/-- A run of `regexec` comes to an answer, its loops going on through the text, if it comes neither to
a `.*` or `.+` before a character where the rest of the pattern fails nor behind the pattern, where
what lies there decides, and only then. -/
theorem regexec_terminates_iff (re string : List UInt8) :
    Terminates re string ∧ Progresses re string ↔
      ∀ k, Reaches (.exec re string) k → ¬Stuck k ∧ ¬Outside k := by
  constructor
  · intro h
    exact answers_iff.mp h.1
  · intro h
    refine ⟨answers_iff.mpr h, ?_⟩
    intro x re' text text' hreach hcall
    exact progress_of_not_stuck hcall (h _ hreach).1

theorem dot_star_hangs : ¬ ∀ re string : List UInt8, Terminates re string ∧ Progresses re string := by
  intro h
  have hends := (h [period, asterisk, 'b'.toUInt8] ['a'.toUInt8]).1
  exact (answers_iff.mp hends _ stuck_reached).1 ⟨rfl, by decide, 1, rfl⟩

end Regex

/-- `regexec` and `fnmatch` read no more than the pattern and the string with their terminators if their
runs do not come to a bracket expression that a range cut short ends, nor to a last backslash at the end
of the string, and only then. -/
theorem matchers_within_iff (flags : Fnmatch.Flags) (pattern string : List UInt8) :
    (¬Regex.Ends (.exec pattern string) .fault ↔
      ∀ k, Regex.Reaches (.exec pattern string) k → ¬Regex.Outside k) ∧
    (Fnmatch.fnmatch flags pattern string ≠ none ↔
      ∀ place, Relation.ReflTransGen (Fnmatch.Goes flags) (pattern, string) place →
        ¬Fnmatch.Outside flags place) := by
  constructor
  · rw [Regex.ends_fault_iff]
    simp only [not_exists, not_and]
  · unfold Fnmatch.fnmatch
    rw [ne_eq, Option.map_eq_none_iff, Fnmatch.matches_eq_none_iff]
    simp only [not_exists, not_and]

/-- `regexec` reads behind `[a-`, and `fnmatch` behind a backslash. -/
theorem matchers_overread :
    (¬ ∀ pattern string : List UInt8, ¬Regex.Ends (.exec pattern string) .fault) ∧
    ¬ ∀ (flags : Fnmatch.Flags) (pattern string : List UInt8),
      Fnmatch.fnmatch flags pattern string ≠ none := by
  constructor
  · intro h
    exact h ['['.toUInt8, 'a'.toUInt8, '-'.toUInt8] ['x'.toUInt8] ⟨4, by decide⟩
  · intro h
    apply h ⟨false, false⟩ [Fnmatch.backslash] []
    unfold Fnmatch.fnmatch
    rw [Fnmatch.matches_backslash rfl]
    rfl

end LosTacOS.Libc
