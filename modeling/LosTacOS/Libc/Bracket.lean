import Mathlib.Data.List.TakeWhile
import Mathlib.Tactic.Common
import Mathlib.Tactic.SplitIfs

/-! The bracket expressions of the C library's matchers. Patterns and strings are the lists of their
bytes up to the NUL. -/
namespace LosTacOS.Libc

abbrev closing : UInt8 := ']'.toUInt8
abbrev dash : UInt8 := '-'.toUInt8

/-- The order of `char`, which is signed. -/
def charLe (a b : UInt8) : Bool := a.toInt8 ≤ b.toInt8

/-- The loop of both `match_class` over the items: whether one of them is `c`, and the pattern behind
the bracket. A range that the end of the pattern cuts short takes the scan past the end. -/
def scanClass (c : UInt8) (found : Bool) : List UInt8 → Option (Bool × List UInt8)
  | [] => some (found, [])
  | x :: p =>
    if x = closing then some (found, p)
    else
      match p with
      | [] => some (found || x = c, [])
      | [d] => if d = dash then none else scanClass c (found || x = c) [d]
      | d :: y :: q =>
        if d = dash ∧ y ≠ closing then scanClass c (found || (charLe x c && charLe c y)) q
        else scanClass c (found || x = c) (d :: y :: q)

/-- `match_class` behind the opening bracket: whether the character matches, and the pattern behind.
The two functions differ in the characters that negate. -/
def scanNegated (negators p : List UInt8) (c : UInt8) : Option (Bool × List UInt8) :=
  if p.head?.any (· ∈ negators) then (scanClass c false p.tail).map fun r => (!r.1, r.2)
  else scanClass c false p

/-- `c` is one of the characters and ranges between the brackets. -/
def inBody (c : UInt8) : List UInt8 → Bool
  | [] => false
  | x :: body =>
    match body with
    | [] => x = c
    | [d] => x = c || d = c
    | d :: y :: rest =>
      if d = dash then (charLe x c && charLe c y) || inBody c rest
      else x = c || inBody c (d :: y :: rest)

def cutShort : List UInt8 → Bool
  | [] => false
  | x :: p =>
    if x = closing then false
    else
      match p with
      | [] => false
      | [d] => d = dash
      | d :: y :: q => if d = dash ∧ y ≠ closing then cutShort q else cutShort (d :: y :: q)

def behindNegator (negators p : List UInt8) : List UInt8 :=
  if p.head?.any (· ∈ negators) then p.tail else p

section scan

variable {c x y : UInt8} {found ok : Bool} {p q : List UInt8}

theorem closing_ne_dash : closing ≠ dash := by decide

@[simp] theorem scanClass_closing (c : UInt8) (found : Bool) (p : List UInt8) :
    scanClass c found (closing :: p) = some (found, p) := by
  match p with
  | [] => rfl
  | [_] => rfl
  | _ :: _ :: _ => rfl

theorem scanClass_plain (hx : x ≠ closing) (hp : p.head? ≠ some dash) :
    scanClass c found (x :: p) = scanClass c (found || x = c) p := by
  match p with
  | [] => simp [scanClass, hx]
  | [d] =>
    have hd : d ≠ dash := by simpa using hp
    simp [scanClass, hx, hd]
  | d :: y :: q =>
    have hd : d ≠ dash := by simpa using hp
    simp [scanClass, hx, hd]

theorem scanClass_last (hx : x ≠ closing) : scanClass c found (x :: dash :: closing :: p) =
    scanClass c (found || x = c) (dash :: closing :: p) := by
  simp [scanClass, hx]

theorem scanClass_range (hx : x ≠ closing) (hy : y ≠ closing) :
    scanClass c found (x :: dash :: y :: p) =
      scanClass c (found || (charLe x c && charLe c y)) p := by
  simp [scanClass, hx, hy]

theorem scanClass_cut (hx : x ≠ closing) : scanClass c found [x, dash] = none := by
  simp [scanClass, hx]

/-- The scan reads a bracket expression that is closed up to its end. -/
theorem scanClass_body (c : UInt8) (found : Bool) {body : List UInt8} (hbody : closing ∉ body)
    (p : List UInt8) :
    scanClass c found (body ++ closing :: p) = some (found || inBody c body, p) := by
  have hclose : (closing :: p).head? ≠ some dash := by
    simpa using closing_ne_dash
  induction body using inBody.induct generalizing found with
  | case1 => simp [inBody]
  | case2 x =>
    have hx : x ≠ closing := by simpa [eq_comm] using hbody
    rw [List.singleton_append, scanClass_plain hx hclose, scanClass_closing, inBody]
  | case3 x d =>
    simp only [List.mem_cons, List.not_mem_nil, or_false, not_or] at hbody
    have hstep : scanClass c found ([x, d] ++ closing :: p) =
        scanClass c (found || x = c) ([d] ++ closing :: p) := by
      by_cases hd : d = dash
      · rw [hd]
        exact scanClass_last (Ne.symm hbody.1)
      · exact scanClass_plain (Ne.symm hbody.1) (by simpa using hd)
    rw [hstep, List.singleton_append, scanClass_plain (Ne.symm hbody.2) hclose, scanClass_closing,
      inBody, Bool.or_assoc]
  | case4 x y rest ih =>
    simp only [List.mem_cons, not_or] at hbody
    obtain ⟨hx, -, hy, hrest⟩ := hbody
    simp only [List.cons_append]
    rw [scanClass_range (Ne.symm hx) (Ne.symm hy), ih _ hrest, inBody, if_pos rfl, Bool.or_assoc]
  | case5 x d y rest hd ih =>
    obtain ⟨hx, hrest⟩ := not_or.mp (mt List.mem_cons.mpr hbody)
    rw [List.cons_append, scanClass_plain (Ne.symm hx) (by simpa using hd), ih _ hrest, inBody,
      if_neg hd, Bool.or_assoc]

theorem scanClass_length (h : scanClass c found p = some (ok, q)) : q.length ≤ p.length := by
  induction found, p using scanClass.induct c with
  | case1 found =>
    cases h
    exact Nat.le_refl 0
  | case2 found p =>
    rw [scanClass_closing] at h
    cases h
    exact Nat.le_succ _
  | case3 found x hx =>
    rw [scanClass_plain hx (by simp)] at h
    cases h
    exact Nat.zero_le _
  | case4 found x hx =>
    rw [scanClass_cut hx] at h
    cases h
  | case5 found x hx d hd ih =>
    rw [scanClass_plain hx (by simpa using hd)] at h
    exact (ih h).trans (Nat.le_succ _)
  | case6 found x hx d y p hd ih =>
    rw [hd.1, scanClass_range hx hd.2] at h
    have hle := ih h
    simp only [List.length_cons]
    omega
  | case7 found x hx d y p hd ih =>
    have hstep : scanClass c found (x :: d :: y :: p) =
        scanClass c (found || x = c) (d :: y :: p) := by
      by_cases hdash : d = dash
      · have hy : y = closing := not_not.mp fun hne => hd ⟨hdash, hne⟩
        rw [hdash, hy]
        exact scanClass_last hx
      · exact scanClass_plain hx (by simpa using hdash)
    rw [hstep] at h
    exact (ih h).trans (Nat.le_succ _)

theorem scanNegated_length {negators : List UInt8} (h : scanNegated negators p c = some (ok, q)) :
    q.length ≤ p.length := by
  unfold scanNegated at h
  split at h
  · obtain ⟨r, hr, heq⟩ := Option.map_eq_some_iff.mp h
    cases heq
    exact (scanClass_length hr).trans (by simp)
  · exact scanClass_length h

/-- The scan is past the end of the pattern where a range is cut short, and nowhere else. -/
theorem scanClass_eq_none_iff : scanClass c found p = none ↔ cutShort p := by
  induction found, p using scanClass.induct c with
  | case1 found => simp [scanClass, cutShort]
  | case2 found p => simp [cutShort.eq_def]
  | case3 found x hx =>
    rw [scanClass_plain hx (by simp)]
    simp [scanClass, cutShort, hx]
  | case4 found x hx =>
    rw [scanClass_cut hx]
    simp [cutShort, hx]
  | case5 found x hx d hd ih =>
    rw [scanClass_plain hx (by simpa using hd), ih]
    simp [cutShort, hx, hd]
  | case6 found x hx d y p hd ih =>
    rw [hd.1, scanClass_range hx hd.2, ih, cutShort, if_neg hx, if_pos ⟨rfl, hd.2⟩]
  | case7 found x hx d y p hd ih =>
    have hstep : scanClass c found (x :: d :: y :: p) =
        scanClass c (found || x = c) (d :: y :: p) := by
      rw [scanClass, if_neg hx]
      exact if_neg hd
    rw [hstep, ih, cutShort, if_neg hx, if_neg hd]

theorem scanNegated_eq_none_iff {negators : List UInt8} :
    scanNegated negators p c = none ↔ cutShort (behindNegator negators p) := by
  unfold scanNegated behindNegator
  split
  · rw [Option.map_eq_none_iff, scanClass_eq_none_iff]
  · rw [scanClass_eq_none_iff]

end scan

end LosTacOS.Libc
