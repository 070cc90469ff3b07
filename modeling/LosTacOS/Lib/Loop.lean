import Mathlib.Data.Fintype.Pigeonhole
import Mathlib.Data.Set.Finite.Basic
import Mathlib.Logic.Relation

/-! Loops whose body goes on with a new state or is done with a result. Nothing here is about any
particular program. -/

inductive Turn (σ ρ : Type*) where
  | again (s : σ)
  | done (r : ρ)

/-- The result of a loop, when it has one after at most `n` rounds. -/
def loopFor {σ ρ : Type*} (body : σ → Turn σ ρ) : Nat → σ → Option ρ
  | 0, _ => none
  | n + 1, s =>
    match body s with
    | .again s => loopFor body n s
    | .done r => some r

namespace Turn

variable {σ ρ κ : Type*} {body : σ → Turn σ ρ} {n m : Nat} {s t u : σ} {r r' : ρ}

theorem loopFor_again (h : body s = .again t) : loopFor body (n + 1) s = loopFor body n t := by
  rw [loopFor, h]

theorem loopFor_done (h : body s = .done r) : loopFor body (n + 1) s = some r := by
  rw [loopFor, h]

theorem loopFor_le (h : loopFor body n s = some r) (hle : n ≤ m) : loopFor body m s = some r := by
  induction n generalizing s m with
  | zero => cases h
  | succ n ih =>
    obtain ⟨m, rfl⟩ : ∃ k, m = k + 1 := ⟨m - 1, by omega⟩
    cases hb : body s with
    | done r' =>
      rw [loopFor_done hb] at h ⊢
      exact h
    | again t =>
      rw [loopFor_again hb] at h ⊢
      exact ih h (by omega)

def Returns (body : σ → Turn σ ρ) (s : σ) (r : ρ) : Prop := ∃ n, loopFor body n s = some r

def Ends (body : σ → Turn σ ρ) (s : σ) : Prop := ∃ r, Returns body s r

theorem Returns.unique (h : Returns body s r) (h' : Returns body s r') : r = r' := by
  obtain ⟨n, hn⟩ := h
  obtain ⟨m, hm⟩ := h'
  have hn' := loopFor_le hn (Nat.le_max_left n m)
  have hm' := loopFor_le hm (Nat.le_max_right n m)
  exact Option.some.inj (hn'.symm.trans hm')

theorem returns_done (h : body s = .done r) : Returns body s r := ⟨1, loopFor_done h⟩

theorem returns_again (h : body s = .again t) : Returns body s r ↔ Returns body t r := by
  constructor
  · rintro ⟨n, hn⟩
    cases n with
    | zero => cases hn
    | succ n =>
      rw [loopFor_again h] at hn
      exact ⟨n, hn⟩
  · rintro ⟨n, hn⟩
    refine ⟨n + 1, ?_⟩
    rw [loopFor_again h]
    exact hn

theorem ends_again (h : body s = .again t) : Ends body s ↔ Ends body t :=
  exists_congr fun _ => returns_again h

theorem Returns.rec_on {P : σ → Prop} (h : Returns body s r)
    (hdone : ∀ s, body s = .done r → P s)
    (hagain : ∀ s t, body s = .again t → Returns body t r → P t → P s) : P s := by
  obtain ⟨n, hn⟩ := h
  induction n generalizing s with
  | zero => cases hn
  | succ n ih =>
    cases hb : body s with
    | done r' =>
      rw [loopFor_done hb] at hn
      cases hn
      exact hdone s hb
    | again t =>
      rw [loopFor_again hb] at hn
      exact hagain s t hb ⟨n, hn⟩ (ih hn)

/-- What every round keeps holds of the round that leaves the loop. -/
theorem Returns.last {I : σ → Prop} (h : Returns body s r) (hs : I s)
    (hstep : ∀ s t, I s → body s = .again t → I t) : ∃ t, I t ∧ body t = .done r := by
  refine h.rec_on (P := fun s => I s → ∃ t, I t ∧ body t = .done r) (fun s hb hs => ⟨s, hs, hb⟩) ?_ hs
  intro s t hb _ ih hs
  exact ih (hstep s t hs hb)

/-- A loop is left when something decreases in every round. -/
theorem loopFor_isSome (I : σ → Prop) (μ : σ → Nat)
    (hstep : ∀ s t, I s → body s = .again t → I t ∧ μ t < μ s) (hs : I s) (hn : μ s < n) :
    (loopFor body n s).isSome := by
  induction n generalizing s with
  | zero => cases hn
  | succ n ih =>
    cases hb : body s with
    | done r =>
      rw [loopFor_done hb]
      rfl
    | again t =>
      obtain ⟨ht, hlt⟩ := hstep s t hs hb
      rw [loopFor_again hb]
      exact ih ht (by omega)

/-- The round that leaves such a loop, which has kept the invariant. -/
theorem loopFor_last (I : σ → Prop) (μ : σ → Nat)
    (hstep : ∀ s t, I s → body s = .again t → I t ∧ μ t < μ s) (hs : I s) (hn : μ s < n) :
    ∃ r t, loopFor body n s = some r ∧ I t ∧ body t = .done r := by
  obtain ⟨r, hr⟩ := Option.isSome_iff_exists.mp (loopFor_isSome I μ hstep hs hn)
  obtain ⟨t, ht, hdone⟩ := Returns.last ⟨n, hr⟩ hs fun s t hs hb => (hstep s t hs hb).1
  exact ⟨r, t, hr, ht, hdone⟩

theorem ends_of_isSome (h : (loopFor body n s).isSome) : Ends body s := by
  obtain ⟨r, hr⟩ := Option.isSome_iff_exists.mp h
  exact ⟨r, n, hr⟩

section circles

def Circles (R : κ → κ → Prop) (q : κ) : Prop :=
  ∃ p, Relation.ReflTransGen R q p ∧ Relation.TransGen R p p

def Hop (body : σ → Turn σ ρ) (s t : σ) : Prop := body s = .again t

theorem Hop.unique (h : Hop body s t) (h' : Hop body s u) : u = t := by
  cases h.symm.trans h'
  rfl

/-- The state after a circle's first round is on the way of a circle too. -/
theorem Hop.circles (h : Hop body s t) (hc : Circles (Hop body) s) : Circles (Hop body) t := by
  obtain ⟨u, hu, hback⟩ := hc
  cases Relation.ReflTransGen.cases_head hu with
  | inr hfar =>
    obtain ⟨w, hw, hwu⟩ := hfar
    rw [h.unique hw] at hwu
    exact ⟨u, hwu, hback⟩
  | inl he =>
    subst he
    obtain ⟨w, hw, hback⟩ := Relation.TransGen.head'_iff.mp hback
    rw [h.unique hw] at hback
    exact ⟨t, .refl, Relation.TransGen.tail' hback h⟩

theorem Returns.not_circles (h : Returns body s r) : ¬ Circles (Hop body) s := by
  apply h.rec_on (P := fun s => ¬ Circles (Hop body) s)
  · rintro s hb ⟨t, ht, hback⟩
    have hstuck : ∀ {u}, ¬ Hop body s u := fun hu => by cases hb.symm.trans hu
    cases Relation.ReflTransGen.cases_head ht with
    | inr hfar =>
      obtain ⟨w, hw, -⟩ := hfar
      exact hstuck hw
    | inl he =>
      subst he
      obtain ⟨w, hw, -⟩ := Relation.TransGen.head'_iff.mp hback
      exact hstuck hw
  · intro s t hb _ ih hc
    exact ih (Hop.circles hb hc)

/-- The state after `n` rounds, as long as the loop goes on. -/
def after (body : σ → Turn σ ρ) (s : σ) : Nat → σ
  | 0 => s
  | n + 1 =>
    match body (after body s n) with
    | .again t => t
    | .done _ => after body s n

theorem after_hop (h : ¬ Ends body s) (n : Nat) :
    ¬ Ends body (after body s n) ∧ Hop body (after body s n) (after body s (n + 1)) := by
  have hgo : ∀ u, ¬ Ends body u → ∃ t, body u = .again t := by
    intro u hu
    cases hb : body u with
    | done r => exact absurd ⟨r, returns_done hb⟩ hu
    | again t => exact ⟨t, rfl⟩
  have hnever : ¬ Ends body (after body s n) := by
    induction n with
    | zero => exact h
    | succ n ih =>
      obtain ⟨t, ht⟩ := hgo _ ih
      rw [after, ht]
      rwa [ends_again ht] at ih
  obtain ⟨t, ht⟩ := hgo _ hnever
  refine ⟨hnever, ?_⟩
  rw [Hop, after, ht]

theorem after_reach (h : ¬ Ends body s) (n k : Nat) :
    Relation.ReflTransGen (Hop body) (after body s n) (after body s (n + k)) := by
  induction k with
  | zero => exact .refl
  | succ k ih => exact ih.tail (after_hop h (n + k)).2

/-- The rounds of a loop as they are seen by a key of its states. A run has no two states of the
same key, and only finitely many keys have a way on. -/
structure Keyed (body : σ → Turn σ ρ) (key : σ → κ) (R : κ → κ → Prop) : Prop where
  forth : ∀ {s t}, Hop body s t → R (key s) (key t)
  back : ∀ {s q}, R (key s) q → ∃ t, Hop body s t ∧ key t = q
  inj : ∀ {s t}, Relation.TransGen (Hop body) s t → key s = key t → s = t
  finite : {p | ∃ q, R p q}.Finite

variable {key : σ → κ} {R : κ → κ → Prop} {q : κ}

theorem Keyed.lift (h : Keyed body key R) (hq : Relation.ReflTransGen R (key s) q) :
    ∃ t, Relation.ReflTransGen (Hop body) s t ∧ key t = q := by
  induction hq with
  | refl => exact ⟨s, .refl, rfl⟩
  | tail _ hstep ih =>
    obtain ⟨t, ht, rfl⟩ := ih
    obtain ⟨u, hu, hkey⟩ := h.back hstep
    exact ⟨u, ht.tail hu, hkey⟩

theorem Keyed.circles (h : Keyed body key R) (hc : Circles R (key s)) : Circles (Hop body) s := by
  obtain ⟨p, hp, hback⟩ := hc
  obtain ⟨t, ht, rfl⟩ := h.lift hp
  obtain ⟨q, hq, hqt⟩ := Relation.TransGen.head'_iff.mp hback
  obtain ⟨u, hu, rfl⟩ := h.back hq
  obtain ⟨w, hw, hkey⟩ := h.lift hqt
  have hround : Relation.TransGen (Hop body) t w := .head' hu hw
  have hsame := h.inj hround hkey.symm
  exact ⟨t, ht, hsame ▸ hround⟩

/-- A loop is left unless the keys of its states run in a circle. -/
theorem Keyed.ends_iff (h : Keyed body key R) : Ends body s ↔ ¬ Circles R (key s) := by
  constructor
  · rintro ⟨r, hr⟩ hc
    exact hr.not_circles (h.circles hc)
  · intro hc
    by_contra hend
    have hmem : ∀ n, key (after body s n) ∈ {p | ∃ q, R p q} :=
      fun n => ⟨_, h.forth (after_hop hend n).2⟩
    have : Finite {p | ∃ q, R p q} := h.finite
    obtain ⟨i, j, hne, heq⟩ := Finite.exists_ne_map_eq_of_infinite
      fun n => (⟨key (after body s n), hmem n⟩ : {p | ∃ q, R p q})
    have hkeys : ∀ {s t}, Relation.ReflTransGen (Hop body) s t →
        Relation.ReflTransGen R (key s) (key t) := fun hst => hst.lift key fun _ _ => h.forth
    have hdiff : ∀ i j, i < j → key (after body s i) ≠ key (after body s j) := by
      intro i j hlt he
      obtain ⟨k, rfl⟩ : ∃ k, j = i + 1 + k := ⟨j - (i + 1), by omega⟩
      have hround := Relation.TransGen.head' (h.forth (after_hop hend i).2)
        (hkeys (after_reach hend (i + 1) k))
      rw [← he] at hround
      have hstart := hkeys (after_reach hend 0 i)
      rw [Nat.zero_add] at hstart
      exact hc ⟨_, hstart, hround⟩
    have he : key (after body s i) = key (after body s j) := congrArg Subtype.val heq
    rcases Nat.lt_or_gt_of_ne hne with hlt | hlt
    · exact hdiff i j hlt he
    · exact hdiff j i hlt he.symm

end circles

end Turn
