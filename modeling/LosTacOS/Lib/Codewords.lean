import LosTacOS.Lib.Canonical
import Mathlib.Algebra.Order.BigOperators.Group.List
import Mathlib.Data.List.Nodup
import Mathlib.Tactic.Ring

/-! The words of a canonical code as lists of bits, given out symbol after symbol, and when there is
room for all of them. Nothing here is about any particular program. -/
namespace Canonical

open BitStream

variable {ls : List Nat} {bits : Nat → Bool} {c i l n x top : Nat} {next : Nat → Nat}

/-- The numbers of the words, symbol after symbol. `next` is the next number of each length, and a
symbol of length 0 takes none. -/
def assign : (Nat → Nat) → List Nat → List Nat
  | _, [] => []
  | next, l :: ls =>
    if l = 0 then 0 :: assign next ls
    else next l :: assign (fun m => if m = l then next m + 1 else next m) ls

/-- The low `l` bits of a number, the highest first. -/
def highBits (x l : Nat) : List Bool := (List.range l).map fun j => x.testBit (l - 1 - j)

def codeword (ls : List Nat) (i : Nat) : List Bool :=
  highBits ((assign (firstCode ls) ls).getD i 0) (ls.getD i 0)

def Begins (bits : Nat → Bool) (c : Nat) (w : List Bool) : Prop :=
  (List.range w.length).map (fun j => bits (c + j)) = w

/-- The part of all words of `top` bits that a word of length `x` is the start of. -/
def share (top x : Nat) : Nat := if x = 0 then 0 else 2 ^ (top - x)

def Fits (top : Nat) (ls : List Nat) : Prop := (ls.map (share top)).sum ≤ 2 ^ top

section words

theorem highBits_length (x l : Nat) : (highBits x l).length = l := by
  rw [highBits, List.length_map, List.length_range]

theorem highBits_succ (x l : Nat) : highBits x (l + 1) = highBits (x / 2) l ++ [x.testBit 0] := by
  unfold highBits
  rw [List.range_succ, List.map_append, List.map_singleton, Nat.add_sub_cancel, Nat.sub_self]
  refine congrArg (· ++ [x.testBit 0]) (List.map_congr_left fun j hj => ?_)
  have hlt := List.mem_range.mp hj
  rw [← Nat.testBit_succ]
  congr 1
  omega

theorem begins_nil : Begins bits c [] := rfl

theorem begins_snoc {w : List Bool} {b : Bool} :
    Begins bits c (w ++ [b]) ↔ Begins bits c w ∧ bits (c + w.length) = b := by
  unfold Begins
  rw [List.length_append, List.length_singleton, List.range_succ, List.map_append,
    List.map_singleton]
  constructor
  · intro h
    obtain ⟨hw, hb⟩ := List.append_inj h (by rw [List.length_map, List.length_range])
    exact ⟨hw, List.singleton_inj.mp hb⟩
  · rintro ⟨hw, hb⟩
    rw [hw, hb]

/-- Bits start with the word of a number when they make the number. -/
theorem begins_highBits_iff :
    Begins bits c (highBits x l) ↔ highFirst bits c l = x % 2 ^ l := by
  induction l generalizing x with
  | zero =>
    simp only [highFirst, Nat.pow_zero, Nat.mod_one, iff_true]
    exact begins_nil
  | succ l ih =>
    have hdiv : x % 2 ^ (l + 1) = 2 * (x / 2 % 2 ^ l) + x % 2 := by
      rw [Nat.pow_succ', Nat.mod_mul]
      omega
    have hbit : (x.testBit 0).toNat = x % 2 := by
      rw [Nat.toNat_testBit, Nat.pow_zero, Nat.div_one]
    rw [highBits_succ, begins_snoc, ih, highBits_length, highFirst, hdiv, ← hbit]
    constructor
    · rintro ⟨hhigh, hlow⟩
      rw [hhigh, hlow]
    · intro h
      have h1 := Bool.toNat_le (bits (c + l))
      have h2 := Bool.toNat_le (x.testBit 0)
      have hlow : (bits (c + l)).toNat = (x.testBit 0).toNat := by omega
      refine ⟨by omega, ?_⟩
      revert hlow
      cases bits (c + l) <;> cases x.testBit 0 <;> decide

end words

section numbers

/-- The number of a word comes after those of the symbols before it with the same length. -/
theorem assign_getD (hi : i < ls.length) (hl : ls.getD i 0 ≠ 0) :
    (assign next ls).getD i 0 = next (ls.getD i 0) + (ls.take i).count (ls.getD i 0) := by
  induction ls generalizing next i with
  | nil => cases hi
  | cons m ls ih =>
    cases i with
    | zero =>
      rw [List.getD_cons_zero] at hl
      rw [assign, if_neg hl, List.getD_cons_zero, List.getD_cons_zero, List.take_zero,
        List.count_nil, Nat.add_zero]
    | succ i =>
      rw [List.getD_cons_succ] at hl ⊢
      have hi' : i < ls.length := Nat.lt_of_succ_lt_succ hi
      rw [assign, List.take_succ_cons, List.count_cons]
      by_cases hm : m = 0
      · rw [if_pos hm, List.getD_cons_succ, ih hi' hl, hm, if_neg (by simpa using Ne.symm hl)]
        rfl
      · rw [if_neg hm, List.getD_cons_succ, ih hi' hl]
        by_cases heq : ls.getD i 0 = m
        · rw [if_pos heq, if_pos (by simpa using heq.symm)]
          omega
        · rw [if_neg heq, if_neg (by simpa using Ne.symm heq)]
          rfl

/-- The place of a symbol among those with words of its length. -/
theorem ranked_getElem? (hi : i < ls.length) :
    (ranked ls (ls.getD i 0))[(ls.take i).count (ls.getD i 0)]? = some i := by
  induction ls using List.reverseRecOn with
  | nil => cases hi
  | append_singleton ls x ih =>
    rw [List.length_append, List.length_singleton] at hi
    rcases Nat.lt_succ_iff_lt_or_eq.mp hi with hlt | rfl
    · rw [List.getD_append _ _ _ _ hlt, List.take_append_of_le_length (Nat.le_of_lt hlt)]
      have hold := ih hlt
      rw [ranked_snoc]
      split
      · rwa [List.getElem?_append_left (List.getElem?_eq_some_iff.mp hold).1]
      · exact hold
    · have hlast : (ls ++ [x]).getD ls.length 0 = x := by
        rw [List.getD_append_right _ _ _ _ (Nat.le_refl _), Nat.sub_self]
        rfl
      rw [hlast, List.take_left, ranked_snoc, if_pos rfl, ← ranked_length,
        List.getElem?_concat_length]

/-- The next `l` bits make the number of a symbol's word. -/
theorem hits_of_number (hi : i < ls.length) (hl : ls.getD i 0 = l) (hl0 : l ≠ 0)
    (hn : highFirst bits c l = firstCode ls l + (ls.take i).count l) :
    Hits ls bits c l ∧ (ranked ls l)[highFirst bits c l - firstCode ls l]? = some i := by
  have hplace := ranked_getElem? hi
  rw [hl] at hplace
  have hlt := (List.getElem?_eq_some_iff.mp hplace).1
  rw [ranked_length] at hlt
  have hrank : highFirst bits c l - firstCode ls l = (ls.take i).count l := by omega
  refine ⟨⟨by omega, ?_⟩, by rwa [hrank]⟩
  rw [uses_pos hl0]
  omega

theorem no_shorter (h : firstCode ls l ≤ highFirst bits c l) : ∀ m < l, ¬ Hits ls bits c m := by
  induction l with
  | zero => exact fun m hm => absurd hm (Nat.not_lt_zero m)
  | succ l ih =>
    rw [firstCode, highFirst] at h
    have hbit := Bool.toNat_le (bits (c + l))
    intro m hm hhits
    rcases Nat.lt_succ_iff_lt_or_eq.mp hm with hlt | rfl
    · exact ih (by omega) m hlt hhits
    · have := hhits.2
      omega

end numbers

section room

theorem shares_succ (top l : Nat) (ls : List Nat) :
    (ls.map fun x => if x ≤ l + 1 then share top x else 0).sum =
      (ls.map fun x => if x ≤ l then share top x else 0).sum +
        ls.count (l + 1) * 2 ^ (top - (l + 1)) := by
  induction ls with
  | nil => simp
  | cons x ls ih =>
    have hone : (if x ≤ l + 1 then share top x else 0) = (if x ≤ l then share top x else 0) +
        (if x = l + 1 then 1 else 0) * 2 ^ (top - (l + 1)) := by
      by_cases hx : x = l + 1
      · rw [if_pos (by omega), if_neg (by omega), if_pos hx, share, if_neg (by omega), hx]
        omega
      · by_cases hle : x ≤ l
        · rw [if_pos (by omega), if_pos hle, if_neg hx]
          omega
        · rw [if_neg (by omega), if_neg hle, if_neg hx]
          omega
    have hcount : (x :: ls).count (l + 1) = (if x = l + 1 then 1 else 0) + ls.count (l + 1) := by
      rw [List.count_cons, Nat.add_comm]
      simp only [beq_iff_eq]
    rw [List.map_cons, List.sum_cons, ih, List.map_cons, List.sum_cons, hone, hcount]
    ring

/-- The part of the words of `top` bits that those up to length `l` are the starts of. -/
theorem firstCode_share (hl : l ≤ top) :
    (firstCode ls l + uses ls l) * 2 ^ (top - l) =
      (ls.map fun x => if x ≤ l then share top x else 0).sum := by
  induction l with
  | zero =>
    have hzero : ∀ y ∈ ls.map fun x => if x ≤ 0 then share top x else 0, y = 0 := by
      intro y hy
      obtain ⟨x, -, rfl⟩ := List.mem_map.mp hy
      split
      · rename_i hx
        rw [share, if_pos (Nat.le_zero.mp hx)]
      · rfl
    rw [List.sum_eq_zero hzero, firstCode, uses, if_pos rfl, Nat.zero_add, Nat.zero_mul]
  | succ l ih =>
    have hpow : 2 ^ (top - l) = 2 * 2 ^ (top - (l + 1)) := by
      rw [← Nat.pow_succ']
      congr 1
      omega
    rw [shares_succ, ← ih (by omega), hpow, uses_pos (Nat.succ_ne_zero l), firstCode]
    ring

/-- A code that is not over-subscribed has its words of a length below the power of two. -/
theorem Fits.firstCode_le (h : Fits top ls) (hl : l ≤ top) :
    firstCode ls l + uses ls l ≤ 2 ^ l := by
  have hle : (ls.map fun x => if x ≤ l then share top x else 0).sum ≤ (ls.map (share top)).sum := by
    apply List.sum_le_sum
    intro x _
    split
    · exact Nat.le_refl _
    · exact Nat.zero_le _
  rw [← firstCode_share hl] at hle
  have hpow : 2 ^ top = 2 ^ l * 2 ^ (top - l) := by
    rw [← Nat.pow_add]
    congr 1
    omega
  have hall := hle.trans h
  rw [hpow] at hall
  exact Nat.le_of_mul_le_mul_right hall (Nat.two_pow_pos _)

variable (h : Fits top ls) (hi : i < ls.length) (hl : ls.getD i 0 = l) (hl0 : l ≠ 0) (hle : l ≤ top)

include h hi hl hl0 hle

/-- The word of a symbol has the symbol's length, and comes next when its number does. -/
theorem Fits.begins_iff :
    Begins bits c (codeword ls i) ↔ highFirst bits c l = firstCode ls l + (ls.take i).count l := by
  have hrank := (List.getElem?_eq_some_iff.mp (ranked_getElem? hi)).1
  rw [hl, ranked_length] at hrank
  have huses := @uses_pos ls _ hl0
  have hroom := h.firstCode_le hle
  rw [codeword, assign_getD hi (by rw [hl]; exact hl0), hl, begins_highBits_iff,
    Nat.mod_eq_of_lt (by omega)]

/-- Bits that start with the word of a symbol are read as the symbol. -/
theorem Fits.decodes (hbegins : Begins bits c (codeword ls i)) : Decodes ls bits c i l := by
  have hnumber := (h.begins_iff hi hl hl0 hle).mp hbegins
  obtain ⟨hhits, hsymbol⟩ := hits_of_number hi hl hl0 hnumber
  exact ⟨hhits, no_shorter hhits.1, hsymbol⟩

end room

theorem Fits.begins_of_hits (h : Fits top ls) (hle : l ≤ top) (hhits : Hits ls bits c l) :
    ∃ i, i < ls.length ∧ ls.getD i 0 = l ∧ Begins bits c (codeword ls i) := by
  obtain ⟨i, hi, -⟩ := hhits.symbol
  obtain ⟨hlt, hl⟩ := mem_ranked (List.mem_of_getElem? hi)
  have hplace := ranked_getElem? hlt
  rw [hl] at hplace
  have hrank : highFirst bits c l - firstCode ls l = (ls.take i).count l := by
    have hnodup : (ranked ls l).Nodup := List.nodup_range.filter _
    have h1 := (List.getElem?_eq_some_iff.mp hi)
    have h2 := (List.getElem?_eq_some_iff.mp hplace)
    obtain ⟨h1lt, h1⟩ := h1
    obtain ⟨h2lt, h2⟩ := h2
    exact (List.Nodup.getElem_inj_iff hnodup).mp (h1.trans h2.symm)
  refine ⟨i, hlt, hl, (h.begins_iff hlt hl hhits.pos hle).mpr ?_⟩
  have := hhits.1
  omega

end Canonical
