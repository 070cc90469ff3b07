import Mathlib

/-! Words on a stack that grows downwards, and registers that are pushed on it and popped off again.
Nothing here is about any particular processor. -/
namespace StackMachine

abbrev Mem := UInt64 → UInt64

section words

variable {m m' : Mem} {a b x : UInt64} {w : UInt64} {xs ys ws : List UInt64} {n : Nat}

/-- The words stand one behind the other, from `a` on. -/
def Holds (m : Mem) (a : UInt64) (ws : List UInt64) : Prop :=
  ∀ i < ws.length, m (a + 8 * UInt64.ofNat i) = ws.getD i 0

def Among (a : UInt64) (n : Nat) (x : UInt64) : Prop := ∃ i < n, x = a + 8 * UInt64.ofNat i

instance : Decidable (Among a n x) :=
  inferInstanceAs (Decidable (∃ i < n, x = a + 8 * UInt64.ofNat i))

theorem Holds.congr (h : Holds m a ws) (hm : ∀ x, Among a ws.length x → m' x = m x) :
    Holds m' a ws := by
  intro i hi
  rw [hm _ ⟨i, hi, rfl⟩, h i hi]

theorem offset_add (a : UInt64) (i j : Nat) :
    a + 8 * UInt64.ofNat i + 8 * UInt64.ofNat j = a + 8 * UInt64.ofNat (i + j) := by
  apply UInt64.toNat_inj.mp
  simp only [UInt64.toNat_add, UInt64.toNat_mul, UInt64.toNat_ofNat', UInt64.reduceToNat]
  omega

theorem holds_append :
    Holds m a (xs ++ ys) ↔ Holds m a xs ∧ Holds m (a + 8 * UInt64.ofNat xs.length) ys := by
  unfold Holds
  rw [List.length_append]
  constructor
  · intro h
    constructor
    · intro i hi
      rw [h i (by omega), List.getD_append _ _ _ _ hi]
    · intro i hi
      rw [offset_add, h _ (by omega), List.getD_append_right _ _ _ _ (by omega),
        Nat.add_sub_cancel_left]
  · rintro ⟨hxs, hys⟩ i hi
    by_cases hlt : i < xs.length
    · rw [hxs i hlt, List.getD_append _ _ _ _ hlt]
    · have hrest := hys (i - xs.length) (by omega)
      rw [offset_add, Nat.add_sub_cancel' (Nat.le_of_not_lt hlt)] at hrest
      rw [List.getD_append_right _ _ _ _ (by omega), hrest]

theorem holds_cons : Holds m a (w :: ws) ↔ m a = w ∧ Holds m (a + 8) ws := by
  have happend := @holds_append m a [w] ws
  have hone : Holds m a [w] ↔ m a = w := by
    simp [Holds]
  rw [hone] at happend
  exact happend

theorem offset_inj {i j : Nat} (hi : i < 2 ^ 60) (hj : j < 2 ^ 60)
    (h : a + 8 * UInt64.ofNat i = a + 8 * UInt64.ofNat j) : i = j := by
  have hnat := congrArg UInt64.toNat h
  have ha := a.toNat_lt
  simp only [UInt64.toNat_add, UInt64.toNat_mul, UInt64.toNat_ofNat', UInt64.reduceToNat] at hnat
  omega

theorem Holds.set {i : Nat} (h : Holds m a ws) (hlen : ws.length < 2 ^ 60) (hi : i < ws.length) :
    Holds (Function.update m (a + 8 * UInt64.ofNat i) w) a (ws.set i w) := by
  intro j hj
  rw [List.length_set] at hj
  by_cases hij : j = i
  · subst hij
    rw [Function.update_self, List.getD_eq_getElem _ _ (by simpa using hj), List.getElem_set_self]
  · have hne : a + 8 * UInt64.ofNat j ≠ a + 8 * UInt64.ofNat i := fun he =>
      hij (offset_inj (by omega) (by omega) he)
    rw [Function.update_of_ne hne, h j hj, List.getD_eq_getElem?_getD, List.getD_eq_getElem?_getD,
      List.getElem?_set_ne (Ne.symm hij)]

theorem not_among_below (hn : n < 2 ^ 60) : ¬ Among a n (a - 8) := by
  rintro ⟨i, hi, he⟩
  have hnat := congrArg UInt64.toNat he
  have ha := a.toNat_lt
  simp only [UInt64.toNat_sub, UInt64.toNat_add, UInt64.toNat_mul, UInt64.toNat_ofNat',
    UInt64.reduceToNat] at hnat
  omega

end words

/-- A processor with registers `ρ` beside its stack pointer. -/
structure Cpu (ρ : Type) where
  reg : ρ → UInt64
  sp : UInt64
  mem : Mem

namespace Cpu

variable {ρ : Type} [DecidableEq ρ] {c : Cpu ρ} {r : ρ} {rs : List ρ} {w x : UInt64}
  {ws : List UInt64} {f : ρ → UInt64}

def push (c : Cpu ρ) (w : UInt64) : Cpu ρ :=
  { c with sp := c.sp - 8, mem := Function.update c.mem (c.sp - 8) w }

def pop (c : Cpu ρ) (r : ρ) : Cpu ρ :=
  { c with reg := Function.update c.reg r (c.mem c.sp), sp := c.sp + 8 }

def pushWords (c : Cpu ρ) (ws : List UInt64) : Cpu ρ := ws.foldl push c

def pushAll (c : Cpu ρ) (rs : List ρ) : Cpu ρ := rs.foldl (fun c r => c.push (c.reg r)) c

def popAll (c : Cpu ρ) (rs : List ρ) : Cpu ρ := rs.foldl pop c

omit [DecidableEq ρ] in
theorem pushWords_append (c : Cpu ρ) (ws vs : List UInt64) :
    c.pushWords (ws ++ vs) = (c.pushWords ws).pushWords vs :=
  List.foldl_append

omit [DecidableEq ρ] in
theorem pushWords_reg (c : Cpu ρ) (ws : List UInt64) : (c.pushWords ws).reg = c.reg := by
  induction ws generalizing c with
  | nil => rfl
  | cons w ws ih => exact ih (c.push w)

omit [DecidableEq ρ] in
theorem pushAll_eq (c : Cpu ρ) (rs : List ρ) : c.pushAll rs = c.pushWords (rs.map c.reg) := by
  induction rs generalizing c with
  | nil => rfl
  | cons r rs ih => exact ih (c.push (c.reg r))

omit [DecidableEq ρ] in
theorem pushWords_sp (c : Cpu ρ) (ws : List UInt64) :
    c.sp = (c.pushWords ws).sp + 8 * UInt64.ofNat ws.length := by
  induction ws generalizing c with
  | nil => exact (UInt64.add_zero c.sp).symm
  | cons w ws ih =>
    have hstep : c.sp = (c.push w).sp + 8 * UInt64.ofNat 1 := (UInt64.sub_add_cancel c.sp 8).symm
    rw [hstep, ih (c.push w), offset_add]
    rfl

omit [DecidableEq ρ] in
theorem push_holds (hlen : ws.length < 2 ^ 60) (h : Holds c.mem c.sp ws) :
    Holds (c.push w).mem (c.push w).sp (w :: ws) := by
  rw [holds_cons]
  refine ⟨Function.update_self _ _ _, ?_⟩
  unfold push
  dsimp only
  rw [UInt64.sub_add_cancel]
  apply h.congr
  intro x hx
  apply Function.update_of_ne
  rintro rfl
  exact not_among_below hlen hx

omit [DecidableEq ρ] in
theorem pushWords_holds {vs : List UInt64} (hlen : ws.length + vs.length < 2 ^ 60)
    (h : Holds c.mem c.sp vs) :
    Holds (c.pushWords ws).mem (c.pushWords ws).sp (ws.reverse ++ vs) := by
  induction ws generalizing c vs with
  | nil => exact h
  | cons w ws ih =>
    rw [List.length_cons] at hlen
    have hnext : Holds (c.push w).mem (c.push w).sp (w :: vs) := push_holds (by omega) h
    have hall := ih (by rw [List.length_cons]; omega) hnext
    rw [List.reverse_cons, List.append_assoc]
    exact hall

omit [DecidableEq ρ] in
theorem pushWords_frame (h : ¬ Among (c.pushWords ws).sp ws.length x) :
    (c.pushWords ws).mem x = c.mem x := by
  induction ws generalizing c with
  | nil => rfl
  | cons w ws ih =>
    have hrest : (c.pushWords (w :: ws)).mem x = (c.push w).mem x := by
      apply @ih (c.push w)
      rintro ⟨i, hi, he⟩
      exact h ⟨i, Nat.lt_succ_of_lt hi, he⟩
    have htop : (c.push w).sp = ((c.push w).pushWords ws).sp + 8 * UInt64.ofNat ws.length :=
      pushWords_sp _ _
    rw [hrest]
    apply Function.update_of_ne
    rintro rfl
    exact h ⟨ws.length, Nat.lt_succ_self _, htop⟩

theorem popAll_mem (c : Cpu ρ) (rs : List ρ) : (c.popAll rs).mem = c.mem := by
  induction rs generalizing c with
  | nil => rfl
  | cons r rs ih => exact ih (c.pop r)

theorem popAll_sp (c : Cpu ρ) (rs : List ρ) :
    (c.popAll rs).sp = c.sp + 8 * UInt64.ofNat rs.length := by
  induction rs generalizing c with
  | nil => simp [popAll]
  | cons r rs ih =>
    have hstep : (c.pop r).sp = c.sp + 8 * UInt64.ofNat 1 := rfl
    have hall := ih (c.pop r)
    rw [hstep, offset_add, Nat.add_comm] at hall
    exact hall

theorem popAll_other (hr : r ∉ rs) : (c.popAll rs).reg r = c.reg r := by
  induction rs generalizing c with
  | nil => rfl
  | cons q rs ih =>
    rw [List.mem_cons, not_or] at hr
    have hall := @ih (c.pop q) hr.2
    exact hall.trans (Function.update_of_ne hr.1 _ _)

theorem popAll_reg (hd : rs.Nodup) (h : Holds c.mem c.sp (rs.map f)) (hr : r ∈ rs) :
    (c.popAll rs).reg r = f r := by
  induction rs generalizing c with
  | nil => cases hr
  | cons q rs ih =>
    rw [List.map_cons, holds_cons] at h
    rw [List.nodup_cons] at hd
    by_cases hin : r ∈ rs
    · exact @ih (c.pop q) hd.2 h.2 hin
    · obtain rfl := (List.mem_cons.mp hr).resolve_right hin
      have hall := @popAll_other _ _ (c.pop r) r rs hin
      exact hall.trans ((Function.update_self _ _ _).trans h.1)

end Cpu

end StackMachine
