import Mathlib.Data.List.Basic

/-! Reading from a source until it is at its end. A step gives an item and the source after it, or
the end, or nothing at all. Nothing here is about any particular program. -/

variable {σ α : Type}

def drain (step : σ → Option (Option (α × σ))) : Nat → σ → Option (List α)
  | 0, _ => none
  | n + 1, s => do
    match ← step s with
    | none => some []
    | some (x, s) => (drain step n s).map (x :: ·)

namespace Drain

variable {step : σ → Option (Option (α × σ))} {n : Nat} {s s' : σ} {x : α} {xs : List α}

theorem at_end (h : step s = some none) : drain step (n + 1) s = some [] := by
  rw [drain, h]
  rfl

theorem item (h : step s = some (some (x, s'))) :
    drain step (n + 1) s = (drain step n s').map (x :: ·) := by
  rw [drain, h]
  rfl

/-- A source that gives the same item again and again is never at its end. -/
theorem never_ends (h : step s = some (some (x, s))) : drain step n s = none := by
  induction n with
  | zero => rfl
  | succ n ih =>
    rw [item h, ih]
    rfl

theorem end_of_nil (h : drain step n s = some []) : step s = some none := by
  cases n with
  | zero => cases h
  | succ n =>
    obtain ⟨y, hy, hrest⟩ := Option.bind_eq_some_iff.mp h
    cases y with
    | none => exact hy
    | some y =>
      obtain ⟨ys, -, hys⟩ := Option.map_eq_some_iff.mp hrest
      cases hys

/-- A source that gives the items of a list, one after the other: `source i` is what is left after `i`
of them. -/
def Gives (step : σ → Option (Option (α × σ))) (source : Nat → σ) (items : List α) : Prop :=
  ∀ i (hi : i < items.length), step (source i) = some (some (items[i], source (i + 1)))

/-- What is read from such a source begins with the list. -/
theorem prefix_of_gives {source : Nat → σ} {items : List α} (h : Gives step source items)
    (hxs : drain step n (source 0) = some xs) :
    ∃ m rest, drain step m (source items.length) = some rest ∧ xs = items ++ rest := by
  induction items generalizing source n xs with
  | nil => exact ⟨n, xs, hxs, rfl⟩
  | cons x items ih =>
    have hfirst : step (source 0) = some (some (x, source 1)) := h 0 (by simp)
    cases n with
    | zero => cases hxs
    | succ n =>
      rw [item hfirst] at hxs
      obtain ⟨ys, hys, rfl⟩ := Option.map_eq_some_iff.mp hxs
      have hrest : Gives step (fun i => source (i + 1)) items := fun i hi =>
        h (i + 1) (Nat.succ_lt_succ hi)
      obtain ⟨m, rest, hm, rfl⟩ := ih hrest hys
      exact ⟨m, rest, hm, rfl⟩

/-- A source that gives a list and is then at its end gives that list. -/
theorem of_gives {source : Nat → σ} {items : List α} (h : Gives step source items)
    (hend : step (source items.length) = some none) :
    drain step (items.length + 1) (source 0) = some items := by
  induction items generalizing source with
  | nil => exact at_end hend
  | cons x items ih =>
    have hfirst : step (source 0) = some (some (x, source 1)) := h 0 (by simp)
    have hrest : Gives step (fun i => source (i + 1)) items := fun i hi =>
      h (i + 1) (Nat.succ_lt_succ hi)
    rw [List.length_cons, item hfirst, ih hrest hend]
    rfl

end Drain
