import Mathlib.Data.List.Nodup
import Mathlib.Logic.Function.Basic

/-! Singly linked lists in memory: `next` gives the successor of a cell. Nothing here is about any
particular program. -/

/-- From `a` the pointers run through the cells of `l` and arrive at `b`. -/
def Chain (next : Nat → Option Nat) : Option Nat → List Nat → Option Nat → Prop
  | a, [], b => a = b
  | a, x :: l, b => a = some x ∧ Chain next (next x) l b

namespace Chain

variable {next next' : Nat → Option Nat} {a b : Option Nat} {l pre post : List Nat} {x p : Nat}

@[simp] theorem nil_iff : Chain next a [] b ↔ a = b := Iff.rfl

@[simp] theorem cons_iff : Chain next a (x :: l) b ↔ a = some x ∧ Chain next (next x) l b := Iff.rfl

theorem congr (h : Chain next a l b) (hn : ∀ x ∈ l, next' x = next x) : Chain next' a l b := by
  induction l generalizing a with
  | nil => exact h
  | cons x l ih =>
    refine ⟨h.1, ?_⟩
    rw [hn x List.mem_cons_self]
    exact ih h.2 fun y hy => hn y (List.mem_cons_of_mem x hy)

theorem update (h : Chain next a l b) (hp : p ∉ l) (v : Option Nat) :
    Chain (Function.update next p v) a l b := by
  refine h.congr fun y hy => Function.update_of_ne ?_ _ _
  intro he
  rw [he] at hy
  exact hp hy

theorem append_iff : Chain next a (pre ++ post) b ↔
    ∃ c, Chain next a pre c ∧ Chain next c post b := by
  induction pre generalizing a with
  | nil => simp
  | cons x pre ih => simp [ih, and_assoc]

theorem snoc_iff : Chain next a (pre ++ [p]) b ↔ Chain next a pre (some p) ∧ next p = b := by
  rw [append_iff]
  constructor
  · intro ⟨c, hpre, hc, hb⟩
    rw [hc] at hpre
    exact ⟨hpre, hb⟩
  · intro ⟨hpre, hb⟩
    exact ⟨some p, hpre, rfl, hb⟩

theorem middle_iff : Chain next a (pre ++ x :: post) b ↔
    Chain next a pre (some x) ∧ Chain next (next x) post b := by
  rw [append_iff]
  constructor
  · intro ⟨c, hpre, hc, hpost⟩
    rw [hc] at hpre
    exact ⟨hpre, hpost⟩
  · intro ⟨hpre, hpost⟩
    exact ⟨some x, hpre, rfl, hpost⟩

/-- What lies in a chain is determined by where it starts. -/
theorem unique {l' : List Nat} (h : Chain next a l none) (h' : Chain next a l' none) : l = l' := by
  induction l generalizing a l' with
  | nil =>
    cases l' with
    | nil => rfl
    | cons y l' => cases h.symm.trans h'.1
  | cons x l ih =>
    cases l' with
    | nil => cases h'.symm.trans h.1
    | cons y l' =>
      have hxy : x = y := Option.some.inj (h.1.symm.trans h'.1)
      subst hxy
      rw [ih h.2 h'.2]

/-- The successor of a cell of a chain is a cell of it or its end. -/
theorem next_mem (h : Chain next a l b) (hx : x ∈ l) : next x = b ∨ ∃ y ∈ l, next x = some y := by
  induction l generalizing a with
  | nil => cases hx
  | cons z l ih =>
    cases hx with
    | head =>
      cases l with
      | nil => exact Or.inl h.2
      | cons y l => exact Or.inr ⟨y, by simp, h.2.1⟩
    | tail _ hx =>
      cases ih h.2 hx with
      | inl hb => exact Or.inl hb
      | inr hy =>
        obtain ⟨y, hy, hn⟩ := hy
        exact Or.inr ⟨y, List.mem_cons_of_mem z hy, hn⟩

theorem drop {i : Nat} (h : Chain next a l none) (hx : l[i]? = some x) :
    Chain next (next x) (l.drop (i + 1)) none := by
  induction l generalizing a i with
  | nil => cases hx
  | cons y l ih =>
    cases i with
    | zero =>
      cases hx
      exact h.2
    | succ i => exact ih h.2 hx

theorem next_getElem? {i : Nat} (h : Chain next a l none) (hx : l[i]? = some x) :
    next x = l[i + 1]? := by
  have hd := h.drop hx
  cases hl : l[i + 1]? with
  | none =>
    rw [List.drop_eq_nil_of_le (List.getElem?_eq_none_iff.mp hl)] at hd
    exact hd
  | some y =>
    obtain ⟨hlt, rfl⟩ := List.getElem?_eq_some_iff.mp hl
    rw [List.drop_eq_getElem_cons hlt] at hd
    exact hd.1

theorem index_unique {i j : Nat} (h : Chain next a l none) (hi : l[i]? = some x)
    (hj : l[j]? = some x) : i = j := by
  have hlen := congrArg List.length ((h.drop hi).unique (h.drop hj))
  have hi' := (List.getElem?_eq_some_iff.mp hi).1
  have hj' := (List.getElem?_eq_some_iff.mp hj).1
  simp only [List.length_drop] at hlen
  omega

/-- Redirecting a cell past its successor takes that one out. -/
theorem unlink (h : Chain next a (pre ++ p :: x :: post) b) (hd : (pre ++ p :: x :: post).Nodup) :
    Chain (Function.update next p (next x)) a (pre ++ p :: post) b := by
  have hsplit := middle_iff.mp h
  have hp : p ∉ pre := fun hp => (List.nodup_append.mp hd).2.2 p hp p (by simp) rfl
  have hpost : p ∉ post := by
    have := (List.nodup_cons.mp (List.nodup_append.mp hd).2.1).1
    simp only [List.mem_cons, not_or] at this
    exact this.2
  refine middle_iff.mpr ⟨hsplit.1.update hp _, ?_⟩
  rw [Function.update_self]
  exact hsplit.2.2.update hpost _

theorem push (h : Chain next a (pre ++ [p]) none) (hx : x ∉ pre ++ [p]) (hn : next x = none)
    (hd : (pre ++ [p]).Nodup) :
    Chain (Function.update next p (some x)) a (pre ++ [p] ++ [x]) none := by
  have hp : p ∉ pre := fun hp => (List.nodup_append.mp hd).2.2 p hp p (by simp) rfl
  have hxp : x ≠ p := fun he => hx (by simp [he])
  refine snoc_iff.mpr ⟨snoc_iff.mpr ⟨?_, Function.update_self ..⟩, ?_⟩
  · exact (snoc_iff.mp h).1.update hp _
  · rw [Function.update_of_ne hxp, hn]

end Chain
