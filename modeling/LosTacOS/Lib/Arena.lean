import Mathlib.Algebra.BigOperators.Group.Finset.Basic
import Mathlib.Algebra.Order.BigOperators.Group.Finset
import Mathlib.Data.Fintype.BigOperators

/-! Heap records of one kind, by address. A freed record keeps its contents until its address is
used again. Nothing here is about any particular program. -/

open scoped BigOperators

structure Arena (α : Type) where
  cell : Nat → α
  used : Finset Nat

namespace Arena

variable {α : Type} (A : Arena α) (a b : Nat) (x : α)

def set : Arena α := { A with cell := Function.update A.cell a x }

def alloc : Arena α := ⟨Function.update A.cell a x, insert a A.used⟩

def free : Arena α := { A with used := A.used.erase a }

@[simp] theorem set_used : (A.set a x).used = A.used := rfl

@[simp] theorem free_cell : (A.free a).cell = A.cell := rfl

@[simp] theorem free_used : (A.free a).used = A.used.erase a := rfl

@[simp] theorem alloc_used : (A.alloc a x).used = insert a A.used := rfl

theorem set_cell : (A.set a x).cell b = if b = a then x else A.cell b := by
  simp only [set, Function.update_apply]

theorem alloc_cell : (A.alloc a x).cell b = if b = a then x else A.cell b := by
  simp only [alloc, Function.update_apply]

@[simp] theorem set_cell_self : (A.set a x).cell a = x := by simp [set]

@[simp] theorem alloc_cell_self : (A.alloc a x).cell a = x := by simp [alloc]

theorem alloc_set (y : α) : (A.alloc a x).set a y = A.alloc a y := by
  simp only [alloc, set, Function.update_idem]

variable {a b}

theorem set_cell_ne (h : b ≠ a) : (A.set a x).cell b = A.cell b := by simp [set, h]

theorem alloc_cell_ne (h : b ≠ a) : (A.alloc a x).cell b = A.cell b := by simp [alloc, h]

def total (w : α → Nat) : Nat := ∑ c ∈ A.used, w (A.cell c)

variable (w : α → Nat)

theorem total_set (ha : a ∈ A.used) : (A.set a x).total w + w (A.cell a) = A.total w + w x := by
  have hrest : ∑ c ∈ A.used.erase a, w ((A.set a x).cell c) =
      ∑ c ∈ A.used.erase a, w (A.cell c) :=
    Finset.sum_congr rfl fun c hc => by rw [A.set_cell_ne x (Finset.ne_of_mem_erase hc)]
  simp only [total, set_used, ← Finset.add_sum_erase _ _ ha, hrest, set_cell_self]
  omega

theorem total_alloc (ha : a ∉ A.used) : (A.alloc a x).total w = A.total w + w x := by
  have hrest : ∑ c ∈ A.used, w ((A.alloc a x).cell c) = ∑ c ∈ A.used, w (A.cell c) := by
    refine Finset.sum_congr rfl fun c hc => ?_
    rw [A.alloc_cell_ne x]
    intro he
    rw [he] at hc
    exact ha hc
  simp only [total, alloc_used, Finset.sum_insert ha, hrest, alloc_cell_self]
  omega

theorem total_free (ha : a ∈ A.used) : (A.free a).total w + w (A.cell a) = A.total w := by
  simp only [total, free_used, free_cell, ← Finset.add_sum_erase _ _ ha]
  omega

end Arena

def tableTotal {n : Nat} {β : Type} (w : β → Nat) (f : Fin n → β) : Nat := ∑ i, w (f i)

theorem tableTotal_update {n : Nat} {β : Type} (w : β → Nat) (f : Fin n → β) (i : Fin n) (x : β) :
    tableTotal w (Function.update f i x) + w (f i) = tableTotal w f + w x := by
  have hrest : ∑ j ∈ Finset.univ.erase i, w (Function.update f i x j) =
      ∑ j ∈ Finset.univ.erase i, w (f j) :=
    Finset.sum_congr rfl fun j hj => by rw [Function.update_of_ne (Finset.ne_of_mem_erase hj)]
  simp only [tableTotal, ← Finset.add_sum_erase _ _ (Finset.mem_univ i), hrest,
    Function.update_self]
  omega

