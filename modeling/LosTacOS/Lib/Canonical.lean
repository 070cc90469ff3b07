import LosTacOS.Lib.BitStream
import Mathlib.Data.List.Count
import Mathlib.Data.List.Induction

/-! Canonical prefix codes, given by the lengths of their words. The words of one length follow each
other in the order of their symbols, and a length 0 stands for a symbol without a word. Nothing here
is about any particular program. -/
namespace Canonical

open BitStream

variable {ls : List Nat} {bits : Nat → Bool} {c i l m : Nat}

def uses (ls : List Nat) (l : Nat) : Nat := if l = 0 then 0 else ls.count l

def firstCode (ls : List Nat) : Nat → Nat
  | 0 => 0
  | l + 1 => 2 * (firstCode ls l + uses ls l)

def firstIndex (ls : List Nat) : Nat → Nat
  | 0 => 0
  | l + 1 => firstIndex ls l + uses ls l

def ranked (ls : List Nat) (l : Nat) : List Nat :=
  (List.range ls.length).filter fun i => ls.getD i 0 = l

def Hits (ls : List Nat) (bits : Nat → Bool) (c l : Nat) : Prop :=
  firstCode ls l ≤ highFirst bits c l ∧ highFirst bits c l < firstCode ls l + uses ls l

/-- The bits from `c` on start with the word of symbol `i`, which is the next `l` bits, and with no
shorter word. -/
structure Decodes (ls : List Nat) (bits : Nat → Bool) (c i l : Nat) : Prop where
  hits : Hits ls bits c l
  shortest : ∀ m < l, ¬ Hits ls bits c m
  symbol : (ranked ls l)[highFirst bits c l - firstCode ls l]? = some i

theorem ranked_snoc (ls : List Nat) (x l : Nat) :
    ranked (ls ++ [x]) l = if x = l then ranked ls l ++ [ls.length] else ranked ls l := by
  have hold : (List.range ls.length).filter (fun i => decide ((ls ++ [x]).getD i 0 = l)) =
      ranked ls l := by
    apply List.filter_congr
    intro i hi
    rw [List.getD_append _ _ _ _ (List.mem_range.mp hi)]
  have hnew : (ls ++ [x]).getD ls.length 0 = x := by
    rw [List.getD_append_right _ _ _ _ (Nat.le_refl _), Nat.sub_self]
    rfl
  unfold ranked
  rw [List.length_append, List.length_singleton, List.range_succ, List.filter_append, hold]
  by_cases hx : x = l
  · rw [if_pos hx, List.filter_cons_of_pos (by rw [hnew]; exact decide_eq_true hx)]
    rfl
  · rw [if_neg hx, List.filter_cons_of_neg (by rw [hnew]; simpa using hx)]
    exact List.append_nil _

theorem ranked_length (ls : List Nat) (l : Nat) : (ranked ls l).length = ls.count l := by
  induction ls using List.reverseRecOn with
  | nil => rfl
  | append_singleton ls x ih =>
    rw [ranked_snoc, List.count_append, List.count_singleton]
    by_cases hx : x = l
    · rw [if_pos hx, List.length_append, ih, if_pos (by simpa using hx)]
      rfl
    · rw [if_neg hx, ih, if_neg (by simpa using hx), Nat.add_zero]

theorem mem_ranked (h : i ∈ ranked ls l) : i < ls.length ∧ ls.getD i 0 = l := by
  obtain ⟨hi, hl⟩ := List.mem_filter.mp h
  exact ⟨List.mem_range.mp hi, of_decide_eq_true hl⟩

theorem uses_pos (hl : l ≠ 0) : uses ls l = ls.count l := if_neg hl

theorem firstIndex_mono (h : l < m) : firstIndex ls l + uses ls l ≤ firstIndex ls m := by
  induction m with
  | zero => cases h
  | succ m ih =>
    rw [firstIndex]
    rcases Nat.lt_succ_iff_lt_or_eq.mp h with hlt | rfl
    · exact Nat.le_trans (ih hlt) (Nat.le_add_right _ _)
    · exact Nat.le_refl _

theorem firstIndex_le (ls : List Nat) (l : Nat) : firstIndex ls l ≤ ls.length := by
  have hcount : firstIndex ls l = ls.countP fun x => decide (0 < x ∧ x < l) := by
    induction l with
    | zero =>
      rw [firstIndex, eq_comm, List.countP_eq_zero]
      intro x _
      simp
    | succ l ih =>
      rw [firstIndex, ih]
      unfold uses
      clear ih
      induction ls with
      | nil =>
        rw [List.count_nil, ite_self]
        rfl
      | cons x xs ih =>
        rw [List.countP_cons, List.countP_cons, List.count_cons, ← ih]
        by_cases hl : l = 0
        · simp only [if_pos hl, decide_eq_true_eq]
          rw [if_neg (by omega), if_neg (by omega)]
        · simp only [if_neg hl, decide_eq_true_eq, beq_iff_eq]
          by_cases hx : x = l
          · rw [if_neg (by omega), if_pos hx, if_pos (by omega)]
            omega
          · rw [if_neg hx]
            by_cases hlt : 0 < x ∧ x < l
            · rw [if_pos hlt, if_pos (by omega)]
              omega
            · rw [if_neg hlt, if_neg (by omega)]
              omega
  rw [hcount]
  exact List.countP_le_length

theorem Hits.pos (h : Hits ls bits c l) : l ≠ 0 := by
  rintro rfl
  exact absurd h.2 (Nat.not_lt_zero _)

theorem Hits.symbol (h : Hits ls bits c l) :
    ∃ i, (ranked ls l)[highFirst bits c l - firstCode ls l]? = some i ∧ i < ls.length := by
  have hlt : highFirst bits c l - firstCode ls l < (ranked ls l).length := by
    have h1 := h.1
    have h2 := h.2
    rw [uses_pos h.pos] at h2
    rw [ranked_length]
    omega
  exact ⟨_, List.getElem?_eq_getElem hlt, (mem_ranked (List.getElem_mem hlt)).1⟩

/-- The symbol that bits start with, and the length of its word, are determined. -/
theorem Decodes.unique {j : Nat} (h : Decodes ls bits c i l) (h' : Decodes ls bits c j m) :
    i = j ∧ l = m := by
  have hl : l = m := by
    rcases Nat.lt_trichotomy l m with hlt | heq | hgt
    · exact absurd h.hits (h'.shortest l hlt)
    · exact heq
    · exact absurd h'.hits (h.shortest m hgt)
  refine ⟨?_, hl⟩
  have hi := h.symbol
  rw [hl, h'.symbol] at hi
  exact (Option.some.inj hi).symm

/-- Bits that are not below the words of one length are not below those of the next. -/
theorem firstCode_le_succ (h : firstCode ls l + uses ls l ≤ highFirst bits c l) :
    firstCode ls (l + 1) ≤ highFirst bits c (l + 1) := by
  rw [firstCode, highFirst]
  omega

/-- The first bits are not below the words of a length when they start with no shorter word. -/
theorem firstCode_le (h : ∀ m < l, ¬ Hits ls bits c m) : firstCode ls l ≤ highFirst bits c l := by
  induction l with
  | zero => exact Nat.le_refl _
  | succ l ih =>
    have hle := ih fun m hm => h m (by omega)
    have hno := h l (Nat.lt_succ_self l)
    exact firstCode_le_succ (Nat.le_of_not_lt fun hlt => hno ⟨hle, hlt⟩)

section decode

instance (ls : List Nat) (bits : Nat → Bool) (c l : Nat) : Decidable (Hits ls bits c l) :=
  inferInstanceAs (Decidable (_ ∧ _))

/-- The symbol whose word comes next, and the length of the word, when it has at most `top` bits. -/
def decode (ls : List Nat) (bits : Nat → Bool) (top c : Nat) : Option (Nat × Nat) := do
  let l ← (List.range (top + 1)).find? fun l => Hits ls bits c l
  let i ← (ranked ls l)[highFirst bits c l - firstCode ls l]?
  some (i, l)

variable {top : Nat}

theorem Decodes.decode (h : Decodes ls bits c i l) (hl : l ≤ top) :
    decode ls bits top c = some (i, l) := by
  have hfind : ((List.range (top + 1)).find? fun l => Hits ls bits c l) = some l := by
    rw [List.find?_range_eq_some]
    refine ⟨decide_eq_true h.hits, List.mem_range.mpr (by omega), fun m hm => ?_⟩
    rw [decide_eq_false (h.shortest m hm)]
    rfl
  unfold Canonical.decode
  rw [hfind, Option.bind_eq_bind, Option.bind_some, h.symbol]
  rfl

theorem decode_none (h : ∀ m ≤ top, ¬ Hits ls bits c m) : decode ls bits top c = none := by
  have hfind : ((List.range (top + 1)).find? fun l => Hits ls bits c l) = none := by
    rw [List.find?_eq_none]
    intro m hm
    have hlt := List.mem_range.mp hm
    rw [decide_eq_true_eq]
    exact h m (by omega)
  unfold decode
  rw [hfind]
  rfl

/-- A word that is read has bits, and is one for a symbol. -/
theorem decode_some (h : decode ls bits top c = some (i, l)) : 0 < l ∧ i < ls.length := by
  unfold decode at h
  cases hf : (List.range (top + 1)).find? fun l => Hits ls bits c l with
  | none =>
    rw [hf] at h
    cases h
  | some m =>
    rw [hf, Option.bind_eq_bind, Option.bind_some] at h
    have hhit : Hits ls bits c m := by simpa only [decide_eq_true_eq] using List.find?_some hf
    obtain ⟨j, hj, hlt⟩ := hhit.symbol
    rw [hj] at h
    cases h
    exact ⟨Nat.pos_of_ne_zero hhit.pos, hlt⟩

end decode

end Canonical
