import Mathlib.Data.List.Forall2

/-! Code that hands over characters one at a time, to whatever takes them, and formats: text with
directives behind an escape character. Nothing here is about any particular formatter. -/

namespace Emit

variable {α δ σ : Type*}

section put

variable (put : σ → α → σ)

def putAll (s : σ) (cs : List α) : σ := cs.foldl put s

/-- One character as often as a count says, a negative one meaning never. -/
def putTimes (s : σ) (n : Int) (c : α) : σ := (List.replicate n.toNat c).foldl put s

theorem putAll_append (s : σ) (cs ds : List α) :
    putAll put s (cs ++ ds) = putAll put (putAll put s cs) ds := by
  simp [putAll]

@[simp] theorem putAll_nil (s : σ) : putAll put s [] = s := rfl

theorem put_eq (s : σ) (c : α) : put s c = putAll put s [c] := rfl

theorem putTimes_eq (s : σ) (n : Int) (c : α) :
    putTimes put s n c = putAll put s (List.replicate n.toNat c) := rfl

end put

def snoc (cs : List α) (c : α) : List α := cs ++ [c]

@[simp] theorem putAll_snoc (cs ds : List α) : putAll snoc cs ds = cs ++ ds := by
  induction ds generalizing cs with
  | nil => simp
  | cons d ds ih =>
    calc
      putAll snoc cs (d :: ds) = putAll snoc (cs ++ [d]) ds := rfl
      _ = cs ++ d :: ds := by simp [ih]

section rounds

variable {ν : Type*} {put : σ → α → σ} (text : ν → δ → List α) (rest : ν → δ → ν)

/-- The texts of items that use up a supply `a` one after the other. -/
def texts (a : ν) : List δ → List (List α)
  | [] => []
  | d :: ds => text a d :: texts (rest a d) ds

def Along (P : ν → δ → Prop) (a : ν) : List δ → Prop
  | [] => True
  | d :: ds => P a d ∧ Along P (rest a d) ds

variable {text rest}

@[simp] theorem texts_nil (a : ν) : texts text rest a [] = [] := rfl

@[simp] theorem texts_cons (a : ν) (d : δ) (ds : List δ) :
    texts text rest a (d :: ds) = text a d :: texts text rest (rest a d) ds := rfl

/-- Rounds that hand over the texts of their items hand over the whole text. -/
theorem foldl_emits {round : σ × ν → δ → σ × ν}
    (h : ∀ s a d, round (s, a) d = (putAll put s (text a d), rest a d)) (s : σ) (a : ν)
    (ds : List δ) :
    (ds.foldl round (s, a)).1 = putAll put s (texts text rest a ds).flatten := by
  induction ds generalizing s a with
  | nil => simp
  | cons d ds ih => simp [h, ih, putAll_append]

/-- The same where a round may fail: the run fails when one round does. -/
theorem foldlM_emits {round : σ × ν → δ → Option (σ × ν)} {P : ν → δ → Prop}
    (h : ∀ s a d, P a d → round (s, a) d = some (putAll put s (text a d), rest a d))
    (hfail : ∀ s a d, ¬ P a d → round (s, a) d = none) (s : σ) (a : ν) (ds : List δ) :
    (Along rest P a ds → (ds.foldlM round (s, a)).map Prod.fst =
      some (putAll put s (texts text rest a ds).flatten)) ∧
    (¬ Along rest P a ds → ds.foldlM round (s, a) = none) := by
  induction ds generalizing s a with
  | nil => simp [Along]
  | cons d ds ih =>
    by_cases hd : P a d
    · have hds := ih (putAll put s (text a d)) (rest a d)
      simpa [Along, hd, h s a d hd, putAll_append] using hds
    · simp [Along, hd, hfail s a d hd]

end rounds

section fields

/-- Of each field the second version has no fewer characters of one kind and no more of the other. -/
def Ordered (p : α → Bool) (l l' : List α) : Prop :=
  l.countP p ≤ l'.countP p ∧ l'.countP (fun a => ¬p a) ≤ l.countP (fun a => ¬p a)

variable {p : α → Bool} {L L' : List (List α)}

theorem Ordered.append_left {l l' : List α} (h : Ordered p l l') (m : List α) :
    Ordered p (m ++ l) (m ++ l') := by
  obtain ⟨h1, h2⟩ := h
  constructor
  · simp only [List.countP_append]
    omega
  · simp only [List.countP_append]
    omega

theorem Ordered.flatten (h : List.Forall₂ (Ordered p) L L') : Ordered p L.flatten L'.flatten := by
  induction h with
  | nil => exact ⟨Nat.le_refl _, Nat.le_refl _⟩
  | cons h _ ih =>
    obtain ⟨h1, h2⟩ := h
    obtain ⟨i1, i2⟩ := ih
    constructor
    · simp only [List.flatten_cons, List.countP_append]
      omega
    · simp only [List.flatten_cons, List.countP_append]
      omega

/-- No difference between two fields is made up for by another one. -/
theorem flatten_eq_iff (h : List.Forall₂ (Ordered p) L L') : L.flatten = L'.flatten ↔ L = L' := by
  refine ⟨fun he => ?_, fun he => congrArg List.flatten he⟩
  induction h with
  | nil => rfl
  | cons h hs ih =>
    rename_i l l' M M'
    obtain ⟨h1, h2⟩ := h
    obtain ⟨i1, i2⟩ := Ordered.flatten hs
    simp only [List.flatten_cons] at he
    have hp : l.countP p + M.flatten.countP p = l'.countP p + M'.flatten.countP p := by
      rw [← List.countP_append, ← List.countP_append, he]
    have hn : l.countP (fun a => ¬p a) + M.flatten.countP (fun a => ¬p a) =
        l'.countP (fun a => ¬p a) + M'.flatten.countP (fun a => ¬p a) := by
      rw [← List.countP_append, ← List.countP_append, he]
    have hlen : l.length = l'.length := by
      rw [List.length_eq_countP_add_countP p, List.length_eq_countP_add_countP p (l := l')]
      omega
    obtain ⟨rfl, hM⟩ := List.append_inj he hlen
    rw [ih hM]

variable {ν : Type*} {text text' : ν → δ → List α} {rest : ν → δ → ν}

theorem texts_ordered (h : ∀ a d, Ordered p (text a d) (text' a d)) (a : ν) (ds : List δ) :
    List.Forall₂ (Ordered p) (texts text rest a ds) (texts text' rest a ds) := by
  induction ds generalizing a with
  | nil => exact .nil
  | cons d ds ih => exact .cons (h a d) (ih _)

theorem texts_eq_iff (a : ν) (ds : List δ) :
    texts text rest a ds = texts text' rest a ds ↔
      Along rest (fun a d => text a d = text' a d) a ds := by
  induction ds generalizing a with
  | nil => simp [Along]
  | cons d ds ih => simp [Along, ih]

theorem texts_flatten_iff (h : ∀ a d, Ordered p (text a d) (text' a d)) (a : ν) (ds : List δ) :
    (texts text rest a ds).flatten = (texts text' rest a ds).flatten ↔
      Along rest (fun a d => text a d = text' a d) a ds :=
  (flatten_eq_iff (texts_ordered h a ds)).trans (texts_eq_iff a ds)

theorem along_congr {P Q : ν → δ → Prop} (h : ∀ a d, P a d ↔ Q a d) (a : ν) (ds : List δ) :
    Along rest P a ds ↔ Along rest Q a ds := by
  induction ds generalizing a with
  | nil => exact Iff.rfl
  | cons d ds ih => exact and_congr (h a d) (ih _)

end fields

end Emit

structure Scanner (α δ : Type*) where
  escape : α
  scan : List α → δ × List α
  shrinks : ∀ cs, (scan cs).2.length ≤ cs.length

namespace Scanner

variable {α δ : Type*} [DecidableEq α] (S : Scanner α δ)

def pieces (fmt : List α) : List (α ⊕ δ) :=
  match fmt with
  | [] => []
  | c :: cs =>
    if c ≠ S.escape then .inl c :: pieces cs
    else .inr (S.scan cs).1 :: pieces (S.scan cs).2
termination_by fmt.length
decreasing_by
  · simp
  · have := S.shrinks cs
    simp
    omega

theorem pieces_text {c : α} (h : c ≠ S.escape) (cs : List α) :
    S.pieces (c :: cs) = .inl c :: S.pieces cs := by
  rw [pieces, if_pos h]

theorem pieces_directive (cs : List α) :
    S.pieces (S.escape :: cs) = .inr (S.scan cs).1 :: S.pieces (S.scan cs).2 := by
  rw [pieces, if_neg (by simp)]

/-- A format written piece by piece is read piece by piece. -/
theorem pieces_render {κ : Type*} (render : κ → List α) (piece : κ → α ⊕ δ) (ks : List κ)
    (h : ∀ k ∈ ks, ∀ cs, S.pieces (render k ++ cs) = piece k :: S.pieces cs) :
    S.pieces (ks.flatMap render) = ks.map piece := by
  induction ks with
  | nil => simp [pieces]
  | cons k ks ih =>
    have hk := h k List.mem_cons_self (ks.flatMap render)
    have hks := ih fun k' hk' => h k' (List.mem_cons_of_mem k hk')
    simp [hk, hks]

end Scanner
