import Mathlib.Data.List.Basic
import Mathlib.Order.Basic
import Mathlib.Data.Nat.Basic

/-! The first of the largest elements of a list, by a measure and among those with a property.
Nothing here is about any particular program. -/

variable {α : Type}

/-- `a` has the property, is larger than those before it that have it and not smaller than those
behind. -/
def FirstMax (p : α → Prop) (f : α → Nat) (l : List α) (a : α) : Prop :=
  ∃ before behind, l = before ++ a :: behind ∧ p a ∧ (∀ x ∈ before, p x → f x < f a) ∧
    ∀ x ∈ behind, p x → f x ≤ f a

namespace FirstMax

variable {p : α → Prop} {f : α → Nat} {l : List α} {a b x : α}

theorem prop (h : FirstMax p f l a) : p a := by
  obtain ⟨_, _, _, hp, _⟩ := h
  exact hp

theorem mem (h : FirstMax p f l a) : a ∈ l := by
  obtain ⟨before, behind, rfl, _⟩ := h
  simp

theorem le (h : FirstMax p f l a) (hx : x ∈ l) (hp : p x) : f x ≤ f a := by
  obtain ⟨before, behind, rfl, _, hlt, hle⟩ := h
  rcases List.mem_append.mp hx with hx | hx
  · exact (hlt x hx hp).le
  · rcases List.mem_cons.mp hx with rfl | hx
    · exact le_rfl
    · exact hle x hx hp

theorem head (hp : p a) (h : ∀ x ∈ l, p x → f x ≤ f a) : FirstMax p f (a :: l) a :=
  ⟨[], l, rfl, hp, nofun, h⟩

theorem cons (h : FirstMax p f l a) (hx : p x → f x < f a) : FirstMax p f (x :: l) a := by
  obtain ⟨before, behind, rfl, hp, hlt, hle⟩ := h
  refine ⟨x :: before, behind, rfl, hp, fun y hy hpy => ?_, hle⟩
  rcases List.mem_cons.mp hy with rfl | hy
  · exact hx hpy
  · exact hlt y hy hpy

theorem unique (ha : FirstMax p f l a) (hb : FirstMax p f l b) : a = b := by
  induction l with
  | nil => exact absurd ha.mem List.not_mem_nil
  | cons x l ih =>
    obtain ⟨before, behind, heq, hpa, hlt, hle⟩ := ha
    obtain ⟨before', behind', heq', hpb, hlt', hle'⟩ := hb
    cases before with
    | nil =>
      cases before' with
      | nil =>
        cases heq
        cases heq'
        rfl
      | cons y before' =>
        cases heq
        cases heq'
        have h1 := hlt' a List.mem_cons_self hpa
        have h2 := hle b (by simp) hpb
        omega
    | cons y before =>
      cases before' with
      | nil =>
        cases heq
        cases heq'
        have h1 := hlt b List.mem_cons_self hpb
        have h2 := hle' a (by simp) hpa
        omega
      | cons z before' =>
        cases heq
        exact ih ⟨before, behind, rfl, hpa, fun x hx => hlt x (List.mem_cons_of_mem _ hx), hle⟩
          ⟨before', behind', (List.cons.inj heq').2, hpb,
            fun x hx => hlt' x (List.mem_cons_of_mem _ hx), hle'⟩

theorem exists_of_mem (hx : x ∈ l) (hp : p x) : ∃ a, FirstMax p f l a := by
  classical
  induction l generalizing x with
  | nil => cases hx
  | cons y l ih =>
    by_cases hl : ∃ z ∈ l, p z
    · obtain ⟨z, hz, hpz⟩ := hl
      obtain ⟨a, ha⟩ := ih hz hpz
      by_cases hy : p y ∧ f a ≤ f y
      · exact ⟨y, head hy.1 fun w hw hpw => (ha.le hw hpw).trans hy.2⟩
      · exact ⟨a, ha.cons fun hpy => lt_of_not_ge fun hle => hy ⟨hpy, hle⟩⟩
    · have hnone : ∀ z ∈ l, ¬p z := fun z hz hpz => hl ⟨z, hz, hpz⟩
      have hxy : x = y := (List.mem_cons.mp hx).resolve_right fun hx => hnone x hx hp
      subst hxy
      exact ⟨x, head hp fun z hz hpz => absurd hpz (hnone z hz)⟩

/-- The loop that remembers the largest so far, from a bound on. -/
theorem foldl_spec [DecidablePred p] (start : Option α) (n : Nat) :
    ((∀ x ∈ l, p x → f x ≤ n) ∧ l.foldl (fun best x =>
        if p x then if best.2 < f x then (some x, f x) else best else best) (start, n) =
          (start, n)) ∨
      ∃ a, FirstMax (fun x => p x ∧ n < f x) f l a ∧ l.foldl (fun best x =>
        if p x then if best.2 < f x then (some x, f x) else best else best) (start, n) =
          (some a, f a) := by
  induction l generalizing start n with
  | nil => exact Or.inl ⟨nofun, rfl⟩
  | cons x l ih =>
    rw [List.foldl_cons]
    by_cases hx : p x ∧ n < f x
    · rw [if_pos hx.1, if_pos hx.2]
      refine Or.inr ?_
      rcases ih (some x) (f x) with ⟨hle, hfold⟩ | ⟨a, ha, hfold⟩
      · exact ⟨x, head hx fun y hy hpy => hle y hy hpy.1, hfold⟩
      · obtain ⟨before, behind, rfl, hp, hlt, hle⟩ := ha
        refine ⟨a, ⟨x :: before, behind, rfl, ⟨hp.1, hx.2.trans hp.2⟩, ?_, ?_⟩, hfold⟩
        · intro y hy hpy
          rcases List.mem_cons.mp hy with rfl | hy
          · exact hp.2
          · by_cases hyx : f x < f y
            · exact hlt y hy ⟨hpy.1, hyx⟩
            · exact (Nat.le_of_not_lt hyx).trans_lt hp.2
        · intro y hy hpy
          by_cases hyx : f x < f y
          · exact hle y hy ⟨hpy.1, hyx⟩
          · exact (Nat.le_of_not_lt hyx).trans hp.2.le
    · have hsame : (if p x then if (start, n).2 < f x then (some x, f x) else (start, n)
          else (start, n)) = (start, n) := by
        by_cases hp : p x
        · rw [if_pos hp, if_neg fun hlt => hx ⟨hp, hlt⟩]
        · rw [if_neg hp]
      rw [hsame]
      rcases ih start n with ⟨hle, hfold⟩ | ⟨a, ha, hfold⟩
      · refine Or.inl ⟨fun y hy hpy => ?_, hfold⟩
        rcases List.mem_cons.mp hy with rfl | hy
        · exact Nat.le_of_not_lt fun hlt => hx ⟨hpy, hlt⟩
        · exact hle y hy hpy
      · exact Or.inr ⟨a, ha.cons fun hpx => absurd hpx hx, hfold⟩

end FirstMax
