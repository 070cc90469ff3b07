import Mathlib

/-! Rings of `n` places, of which one always stays empty. Who stores into a full one drops the oldest.
Nothing here is about any particular program. -/

structure RingBuffer (α : Type) where
  cells : Nat → α
  head : Nat
  tail : Nat

namespace RingBuffer

variable {α : Type} {r : RingBuffer α} {n k : Nat} {q : List α} {c x : α}

def push (n : Nat) (r : RingBuffer α) (x : α) : RingBuffer α :=
  let head := (r.head + 1) % n
  { cells := Function.update r.cells r.head x
    head := head
    tail := if head = r.tail then (r.tail + 1) % n else r.tail }

/-- Up to `k` elements, oldest first. -/
def take (n : Nat) : Nat → RingBuffer α → List α × RingBuffer α
  | 0, r => ([], r)
  | k + 1, r =>
    if r.tail = r.head then ([], r)
    else
      let p := take n k { r with tail := (r.tail + 1) % n }
      (r.cells r.tail :: p.1, p.2)

structure Holds (n : Nat) (r : RingBuffer α) (q : List α) : Prop where
  tail : r.tail < n
  room : q.length < n
  head : r.head = (r.tail + q.length) % n
  cells : ∀ (i : Nat) (h : i < q.length), r.cells ((r.tail + i) % n) = q[i]

def newest (k : Nat) (q : List α) : List α := q.drop (q.length - k)

theorem place_inj {t i j : Nat} (hi : i < n) (hj : j < n) (h : (t + i) % n = (t + j) % n) :
    i = j := by
  have hmod : i ≡ j [MOD n] := Nat.ModEq.add_left_cancel' t h
  exact Nat.ModEq.eq_of_lt_of_lt hmod hi hj

theorem place_next {t i : Nat} : ((t + 1) % n + i) % n = (t + (i + 1)) % n := by
  rw [Nat.mod_add_mod, Nat.add_assoc, Nat.add_comm 1 i]

theorem Holds.nil_iff (h : Holds n r q) : r.tail = r.head ↔ q = [] := by
  rw [h.head]
  constructor
  · intro he
    have hz : (r.tail + 0) % n = (r.tail + q.length) % n := by
      rw [Nat.add_zero, Nat.mod_eq_of_lt h.tail]
      exact he
    exact List.length_eq_zero_iff.mp (place_inj (Nat.zero_lt_of_lt h.room) h.room hz).symm
  · rintro rfl
    exact (Nat.mod_eq_of_lt h.tail).symm

theorem Holds.pop (h : Holds n r (c :: q)) :
    r.cells r.tail = c ∧ Holds n { r with tail := (r.tail + 1) % n } q := by
  have hroom := h.room
  rw [List.length_cons] at hroom
  refine ⟨?_, Nat.mod_lt _ (by omega), by omega, ?_, ?_⟩
  · have hfirst := h.cells 0 (by simp)
    rw [Nat.add_zero, Nat.mod_eq_of_lt h.tail] at hfirst
    exact hfirst
  · rw [place_next]
    exact h.head
  · intro i hi
    have hcell := h.cells (i + 1) (by simpa using hi)
    rw [place_next]
    exact hcell

theorem Holds.take (h : Holds n r q) (k : Nat) :
    (r.take n k).1 = q.take k ∧ Holds n (r.take n k).2 (q.drop k) := by
  induction k generalizing r q with
  | zero => exact ⟨rfl, h⟩
  | succ k ih =>
    unfold RingBuffer.take
    cases q with
    | nil =>
      rw [if_pos (h.nil_iff.mpr rfl)]
      exact ⟨rfl, h⟩
    | cons c q =>
      have hne : r.tail ≠ r.head := fun he => List.cons_ne_nil c q (h.nil_iff.mp he)
      obtain ⟨hc, hrest⟩ := h.pop
      obtain ⟨htake, hdrop⟩ := ih hrest
      rw [if_neg hne]
      refine ⟨?_, hdrop⟩
      dsimp only
      rw [hc, htake, List.take_succ_cons]

theorem Holds.cells_push (h : Holds n r q) (x : α) (i : Nat) (hi : i < (q ++ [x]).length) :
    (r.push n x).cells ((r.tail + i) % n) = (q ++ [x])[i] := by
  have hroom := h.room
  rw [List.length_append, List.length_singleton] at hi
  by_cases hlt : i < q.length
  · rw [List.getElem_append_left hlt, ← h.cells i hlt]
    apply Function.update_of_ne
    rw [h.head]
    intro he
    exact absurd (place_inj (by omega) h.room he) (by omega)
  · have hi' : i = q.length := by omega
    subst hi'
    rw [List.getElem_concat_length rfl]
    rw [← h.head]
    exact Function.update_self _ _ _

/-- Whatever the ring holds, afterwards it holds the newest `n - 1` elements. -/
theorem Holds.push (h : Holds n r q) (hn : 1 < n) (x : α) :
    Holds n (r.push n x) (newest (n - 1) (q ++ [x])) := by
  have hroom := h.room
  have hhead : (r.push n x).head = (r.tail + (q.length + 1)) % n := by
    rw [RingBuffer.push]
    dsimp only
    rw [h.head, Nat.mod_add_mod, Nat.add_assoc]
  have hlen : (q ++ [x]).length = q.length + 1 := by simp
  by_cases hfull : q.length + 1 < n
  · -- there is room
    have hkeep : newest (n - 1) (q ++ [x]) = q ++ [x] := by
      rw [newest, hlen, show q.length + 1 - (n - 1) = 0 by omega, List.drop_zero]
    have htail : (r.push n x).tail = r.tail := by
      apply if_neg
      intro he
      have hwrap : (r.tail + (q.length + 1)) % n = (r.tail + 0) % n := by
        rw [← hhead, Nat.add_zero, Nat.mod_eq_of_lt h.tail]
        exact he
      exact absurd (place_inj hfull (by omega) hwrap) (by omega)
    rw [hkeep]
    refine ⟨htail ▸ h.tail, hlen ▸ hfull, ?_, ?_⟩
    · rw [hhead, htail, hlen]
    · intro i hi
      rw [htail]
      exact h.cells_push x i hi
  · -- the oldest goes
    have hq : q.length + 1 = n := by omega
    have hdrop : newest (n - 1) (q ++ [x]) = (q ++ [x]).drop 1 := by
      rw [newest, hlen, show q.length + 1 - (n - 1) = 1 by omega]
    have htail : (r.push n x).tail = (r.tail + 1) % n := by
      apply if_pos
      have hwrap : (r.push n x).head = r.tail := by
        rw [hhead, hq, Nat.add_mod_right, Nat.mod_eq_of_lt h.tail]
      exact hwrap
    rw [hdrop]
    refine ⟨htail ▸ Nat.mod_lt _ (by omega), ?_, ?_, ?_⟩
    · rw [List.length_drop, hlen]
      omega
    · rw [hhead, htail, place_next, List.length_drop, hlen, show q.length + 1 - 1 + 1 = q.length + 1
        by omega]
    · intro i hi
      rw [List.length_drop, hlen] at hi
      rw [htail, place_next, h.cells_push x (i + 1) (by rw [hlen]; omega), List.getElem_drop]
      congr 1
      omega

theorem newest_append (k : Nat) (q xs : List α) :
    newest k (newest k q ++ xs) = newest k (q ++ xs) := by
  have hsplit : newest k q ++ xs = (q ++ xs).drop (q.length - k) := by
    rw [newest, List.drop_append_of_le_length (Nat.sub_le _ _)]
  rw [hsplit, newest, newest, List.drop_drop, List.length_drop, List.length_append]
  congr 1
  omega

theorem newest_of_le (h : q.length ≤ k) : newest k q = q := by
  rw [newest, Nat.sub_eq_zero_of_le h, List.drop_zero]

theorem Holds.pushAll (h : Holds n r q) (hn : 1 < n) (xs : List α) :
    Holds n (xs.foldl (RingBuffer.push n) r) (newest (n - 1) (q ++ xs)) := by
  have hroom := h.room
  induction xs generalizing r q with
  | nil =>
    rw [List.append_nil, newest_of_le (by omega)]
    exact h
  | cons x xs ih =>
    have hone := h.push hn x
    have hall := ih hone hone.room
    rw [newest_append, List.append_assoc, List.singleton_append] at hall
    exact hall

end RingBuffer
