import Mathlib.Logic.Relation
import Mathlib.Order.WellFounded

/-! Backtracking searches: a call is done, hands over to another call, or tries calls one after the
other until one does not fail. Nothing here is about any particular search. -/

inductive Outcome where
  | success
  | failure
  | fault
deriving DecidableEq

inductive Plan (κ : Type*) where
  | done (o : Outcome)
  | goto (k : κ)
  | first (k : κ) (next : Plan κ)

namespace Plan

variable {κ : Type*}

/-- A plan, if `run` is what becomes of its calls. -/
def carry (run : κ → Option Outcome) : Plan κ → Option Outcome
  | done o => some o
  | goto k => run k
  | first k next =>
    match run k with
    | some .failure => next.carry run
    | r => r

/-- A search with calls at most `n` deep. -/
def runFor (body : κ → Plan κ) : Nat → κ → Option Outcome
  | 0, _ => none
  | n + 1, k => (body k).carry (runFor body n)

def Ends (body : κ → Plan κ) (k : κ) (o : Outcome) : Prop := ∃ n, runFor body n k = some o

/-- The outcome of a plan, if its calls come to what `P` says. -/
def Yields (P : κ → Outcome → Prop) : Plan κ → Outcome → Prop
  | done o', o => o = o'
  | goto k, o => P k o
  | first k next, o => P k o ∧ o ≠ .failure ∨ P k .failure ∧ next.Yields P o

inductive Makes (Fails : κ → Prop) : Plan κ → κ → Prop
  | goto (k : κ) : Makes Fails (goto k) k
  | first (k : κ) (next : Plan κ) : Makes Fails (first k next) k
  | later {k k' : κ} {next : Plan κ} : Fails k → Makes Fails next k' → Makes Fails (first k next) k'

inductive Arrives (Fails : κ → Prop) : Plan κ → Outcome → Prop
  | done (o : Outcome) : Arrives Fails (done o) o
  | later {k : κ} {next : Plan κ} {o : Outcome} :
      Fails k → Arrives Fails next o → Arrives Fails (first k next) o

def Calls (body : κ → Plan κ) (k k' : κ) : Prop :=
  Makes (fun k => Ends body k .failure) (body k) k'

def Reaches (body : κ → Plan κ) : κ → κ → Prop := Relation.ReflTransGen (Calls body)

variable {body : κ → Plan κ} {run run' : κ → Option Outcome} {P Q : κ → Outcome → Prop} {k k' : κ}
  {o o' : Outcome} {n m : Nat} {p : Plan κ}

section fuel

theorem carry_mono (h : ∀ k o, run k = some o → run' k = some o) (hp : p.carry run = some o) :
    p.carry run' = some o := by
  induction p with
  | done _ => exact hp
  | goto k => exact h k o hp
  | first k next ih =>
    unfold carry at hp ⊢
    cases hk : run k with
    | none =>
      rw [hk] at hp
      cases hp
    | some o' =>
      rw [h k o' hk]
      rw [hk] at hp
      cases o' with
      | failure => exact ih hp
      | _ => exact hp

theorem runFor_succ (h : runFor body n k = some o) : runFor body (n + 1) k = some o := by
  induction n generalizing k o with
  | zero => cases h
  | succ n ih => exact carry_mono (fun _ _ => ih) h

theorem runFor_mono (h : runFor body n k = some o) (hle : n ≤ m) : runFor body m k = some o := by
  induction hle with
  | refl => exact h
  | step _ ih => exact runFor_succ ih

theorem Ends.unique (h : Ends body k o) (h' : Ends body k o') : o = o' := by
  obtain ⟨n, hn⟩ := h
  obtain ⟨m, hm⟩ := h'
  have heq := runFor_mono hn (Nat.le_max_left n m)
  rw [runFor_mono hm (Nat.le_max_right n m)] at heq
  exact (Option.some.inj heq).symm

theorem Yields.mono (hPQ : ∀ k o, P k o → Q k o) (h : p.Yields P o) : p.Yields Q o := by
  induction p with
  | done _ => exact h
  | goto k => exact hPQ k o h
  | first k next ih =>
    exact h.imp (fun h => ⟨hPQ k o h.1, h.2⟩) fun h => ⟨hPQ k _ h.1, ih h.2⟩

theorem carry_iff_yields :
    p.carry run = some o ↔ p.Yields (fun k o => run k = some o) o := by
  induction p with
  | done o' => simp [carry, Yields, eq_comm]
  | goto k => rfl
  | first k next ih =>
    unfold carry Yields
    rw [← ih]
    cases hk : run k with
    | none => simp
    | some o' =>
      cases o' with
      | failure => simpa using fun h hne => absurd h.symm hne
      | success =>
        simp only [Option.some.injEq, reduceCtorEq, false_and, or_false, iff_self_and]
        rintro rfl
        decide
      | fault =>
        simp only [Option.some.injEq, reduceCtorEq, false_and, or_false, iff_self_and]
        rintro rfl
        decide

/-- A plan whose calls end does so with some depth for all of them. -/
theorem yields_depth (h : p.Yields (Ends body) o) : ∃ n, p.carry (runFor body n) = some o := by
  induction p with
  | done o' => exact ⟨0, congrArg some (Eq.symm h)⟩
  | goto k => exact h
  | first k next ih =>
    rcases h with ⟨⟨n, hn⟩, hne⟩ | ⟨⟨n, hn⟩, hnext⟩
    · exact ⟨n, carry_iff_yields.mpr (.inl ⟨hn, hne⟩)⟩
    · obtain ⟨m, hm⟩ := ih hnext
      refine ⟨max n m, carry_iff_yields.mpr (.inr ⟨runFor_mono hn (Nat.le_max_left n m), ?_⟩)⟩
      apply carry_iff_yields.mp
      exact carry_mono (fun _ _ hk => runFor_mono hk (Nat.le_max_right n m)) hm

theorem ends_iff : Ends body k o ↔ (body k).Yields (Ends body) o := by
  constructor
  · rintro ⟨n, hn⟩
    cases n with
    | zero => cases hn
    | succ n => exact (carry_iff_yields.mp hn).mono fun k o hk => ⟨n, hk⟩
  · intro h
    obtain ⟨n, hn⟩ := yields_depth h
    exact ⟨n + 1, hn⟩

/-- What each plan hands on from its calls holds of every call that ends. -/
theorem Ends.induct (hP : ∀ k o, (body k).Yields P o → P k o) (h : Ends body k o) : P k o := by
  obtain ⟨n, hn⟩ := h
  induction n generalizing k o with
  | zero => cases hn
  | succ n ih => exact hP k o ((carry_iff_yields.mp hn).mono fun _ _ => ih)

end fuel

section calls

theorem makes_ends (hp : p.carry (runFor body n) = some o)
    (h : Makes (fun k => Ends body k .failure) p k') : ∃ o', runFor body n k' = some o' := by
  induction h with
  | goto k => exact ⟨o, hp⟩
  | first k next =>
    unfold carry at hp
    cases hk : runFor body n k with
    | none =>
      rw [hk] at hp
      cases hp
    | some o' => exact ⟨o', rfl⟩
  | @later k k' next hfails _ ih =>
    apply ih
    unfold carry at hp
    cases hk : runFor body n k with
    | none =>
      rw [hk] at hp
      cases hp
    | some o' =>
      obtain rfl := Ends.unique ⟨n, hk⟩ hfails
      rw [hk] at hp
      exact hp

theorem yields_of_makes (h : ∀ k', Makes (fun k => Ends body k .failure) p k' →
    ∃ o, Ends body k' o) : ∃ o, p.Yields (Ends body) o := by
  induction p with
  | done o => exact ⟨o, rfl⟩
  | goto k => exact h k (.goto k)
  | first k next ih =>
    obtain ⟨o, ho⟩ := h k (.first k next)
    cases o with
    | failure =>
      obtain ⟨o', ho'⟩ := ih fun k' hk' => h k' (.later ho hk')
      exact ⟨o', .inr ⟨ho, ho'⟩⟩
    | success => exact ⟨.success, .inl ⟨ho, by decide⟩⟩
    | fault => exact ⟨.fault, .inl ⟨ho, by decide⟩⟩

/-- A search ends if its calls are well-founded, and only then. -/
theorem ends_iff_acc : (∃ o, Ends body k o) ↔ Acc (fun k' k => Calls body k k') k := by
  constructor
  · rintro ⟨o, n, hn⟩
    induction n generalizing k o with
    | zero => cases hn
    | succ n ih =>
      constructor
      intro k' hcall
      obtain ⟨o', hk'⟩ := makes_ends hn hcall
      exact ih o' hk'
  · intro h
    induction h with
    | intro k _ ih =>
      obtain ⟨o, ho⟩ := yields_of_makes ih
      exact ⟨o, ends_iff.mpr ho⟩

theorem Reaches.acc (h : Reaches body k k') (hk : Acc (fun k' k => Calls body k k') k) :
    Acc (fun k' k => Calls body k k') k' := by
  induction h with
  | refl => exact hk
  | tail _ hcall ih => exact ih.inv hcall

/-- A search ends if all the calls that it comes to make smaller calls only. -/
theorem ends_of_smaller {r : κ → κ → Prop} (hr : WellFounded r)
    (h : ∀ k', Reaches body k k' → ∀ k'', Calls body k' k'' → r k'' k') : ∃ o, Ends body k o := by
  rw [ends_iff_acc]
  have hall : ∀ k', Reaches body k k' → Acc (fun k' k => Calls body k k') k' := by
    intro k'
    induction k' using hr.induction with
    | _ k' ih =>
      intro hreach
      constructor
      intro k'' hcall
      exact ih k'' (h k' hreach k'' hcall) (hreach.tail hcall)
  exact hall k .refl

theorem makes_yields (hmakes : Makes (fun k => Ends body k .failure) p k')
    (hend : Ends body k' .fault) : p.Yields (Ends body) .fault := by
  induction hmakes with
  | goto k => exact hend
  | first k next => exact .inl ⟨hend, by decide⟩
  | later hfails _ ih => exact .inr ⟨hfails, ih hend⟩

theorem arrives_yields (h : Arrives (fun k => Ends body k .failure) p o) :
    p.Yields (Ends body) o := by
  induction h with
  | done o => rfl
  | later hfails _ ih => exact .inr ⟨hfails, ih⟩

theorem fault_of_plan (hP : ∀ k o, P k o → Ends body k o) (h : p.Yields P .fault) :
    Arrives (fun k => Ends body k .failure) p .fault ∨
      ∃ k', Makes (fun k => Ends body k .failure) p k' ∧ P k' .fault := by
  induction p with
  | done o =>
    cases h
    exact .inl (.done _)
  | goto k => exact .inr ⟨k, .goto k, h⟩
  | first k next ih =>
    rcases h with ⟨hk, -⟩ | ⟨hfails, hnext⟩
    · exact .inr ⟨k, .first k next, hk⟩
    · rcases ih hnext with harr | ⟨k', hmakes, hk'⟩
      · exact .inl (.later (hP k _ hfails) harr)
      · exact .inr ⟨k', .later (hP k _ hfails) hmakes, hk'⟩

/-- A search comes to a fault where one of its calls does so itself. -/
theorem fault_iff : Ends body k .fault ↔
    ∃ k', Reaches body k k' ∧ Arrives (fun k => Ends body k .failure) (body k') .fault := by
  constructor
  · intro h
    obtain ⟨n, hn⟩ := h
    induction n generalizing k with
    | zero => cases hn
    | succ n ih =>
      rcases fault_of_plan (fun _ _ hk => ⟨n, hk⟩) (carry_iff_yields.mp hn) with harr | hmakes
      · exact ⟨k, .refl, harr⟩
      · obtain ⟨k', hcall, hk'⟩ := hmakes
        obtain ⟨k'', hreach, harr⟩ := ih hk'
        exact ⟨k'', .head hcall hreach, harr⟩
  · rintro ⟨k', hreach, harr⟩
    induction hreach using Relation.ReflTransGen.head_induction_on with
    | refl => exact ends_iff.mpr (arrives_yields harr)
    | head hcall _ ih => exact ends_iff.mpr (makes_yields hcall ih)

end calls

end Plan
