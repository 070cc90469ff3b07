import LosTacOS.Gzip.Verdicts

/-! Which files `decompress` takes without an access out of range. -/
namespace LosTacOS.Gzip

open BitStream Canonical Deflate

variable {src : Source} {k c : Cursor} {wild : Wild} {capacity n : Nat} {r : Result} {v : Verdict}
  {s t : State}

section header

theorem skipText_over (n : Nat) (c : Cursor) : (skipText src n c).overread = c.overread := by
  induction n generalizing c with
  | zero => rfl
  | succ n ih =>
    unfold skipText
    by_cases hin : c.offset < src.size
    · have hover : (c.overread || decide (src.size ≤ c.offset)) = c.overread := by
        rw [decide_eq_false (by omega), Bool.or_false]
      rw [if_pos hin]
      dsimp only
      rw [hover]
      split
      · exact ih _
      · rfl
    · rw [if_neg hin]

theorem skipHeader_over (hgzip : isGzip src = true) (hk : skipHeader src = some k) :
    k.overread = false := by
  have hsize : 10 ≤ src.size := by
    unfold isGzip at hgzip
    by_contra hlt
    rw [decide_eq_true (by omega : src.size < 10), Bool.not_true, Bool.false_and] at hgzip
    cases hgzip
  unfold skipHeader at hk
  dsimp only at hk
  rw [decide_eq_false (by omega : ¬ src.size ≤ 3)] at hk
  obtain ⟨c, hc, rfl⟩ := Option.map_eq_some_iff.mp hk
  have hover : c.overread = false := by
    by_cases hextra : src.bytes 3 &&& 0x04 ≠ 0
    · rw [if_pos hextra] at hc
      by_cases hcut : 10 + 2 > src.size
      · rw [if_pos hcut] at hc
        cases hc
      · rw [if_neg hcut] at hc
        cases hc
        dsimp only
        rw [decide_eq_false (by omega), Bool.or_false]
    · rw [if_neg hextra] at hc
      cases hc
      rfl
  have hskip : ∀ (b : Prop) [Decidable b] (d : Cursor), d.overread = false →
      (if b then (⟨(skipText src src.size d).offset + 1, (skipText src src.size d).overread⟩ : Cursor)
        else d).overread = false := by
    intro b _ d hd
    split
    · rw [skipText_over, hd]
    · exact hd
  have hfinal : ∀ (b : Prop) [Decidable b] (d : Cursor), d.overread = false →
      (if b then (⟨d.offset + 2, d.overread⟩ : Cursor) else d).overread = false := by
    intro b _ d hd
    split <;> exact hd
  exact hfinal _ _ (hskip _ _ (hskip _ _ hover))

end header

section runs

def Comes (src : Source) (capacity : Nat) (v : Verdict) : Prop :=
  ∃ k, isGzip src = true ∧ skipHeader src = some k ∧ k.offset < src.size ∧
    Turn.Returns (turn (body src k.offset capacity) false) (.head 0 []) v

/-- `decompress` returns, and all its accesses were within the source, the output and the tables. -/
def InRange (wild : Wild) (src : Source) (capacity : Nat) : Prop :=
  ∃ n r, decompress wild src capacity n = some r ∧ r.overread = false ∧ r.stray = false ∧
    r.out.length ≤ capacity

theorem Run.unique {src : Input} {u : State} (h : Run src wild s t) (h' : Run src wild s u) : t = u := by
  obtain ⟨n, hn⟩ := h
  obtain ⟨m, hm⟩ := h'
  have hn' := blocks_le hn (Nat.le_max_left n m) (Nat.le_max_left n m)
  have hm' := blocks_le hm (Nat.le_max_right n m) (Nat.le_max_right n m)
  exact Option.some.inj (hn'.symm.trans hm')

def begun : State := ⟨0, 0, 0, [], false, false⟩

theorem decompress_begun (hgzip : isGzip src = true) (hk : skipHeader src = some k)
    (hlt : k.offset < src.size) :
    (∃ n, decompress wild src capacity n = some r) ↔
      ∃ s', Run (body src k.offset capacity) wild begun s' ∧
        r = ⟨0 < s'.out.length, s'.out, s'.overread, s'.stray⟩ := by
  have hover := skipHeader_over hgzip hk
  constructor
  · rintro ⟨n, hn⟩
    obtain ⟨s', hs', hr⟩ := (decompress_run hgzip hk hlt).mp hn
    rw [hover] at hs'
    exact ⟨s', ⟨n, hs'⟩, hr⟩
  · rintro ⟨s', ⟨n, hn⟩, hr⟩
    refine ⟨n, (decompress_run hgzip hk hlt).mpr ⟨s', ?_, hr⟩⟩
    rwa [hover]

theorem body_given (src : Source) (k : Cursor) (capacity : Nat) :
    (body src k.offset capacity).given < 2 ^ 63 :=
  Nat.lt_of_le_of_lt (Nat.sub_le _ _) src.small

/-- The length of the compressed data is either right or far too large. -/
theorem body_gap (src : Source) (k : Cursor) (capacity : Nat)
    (h : (body src k.offset capacity).given < (body src k.offset capacity).inLen) :
    (body src k.offset capacity).given + 2 < (body src k.offset capacity).inLen := by
  have hsmall := src.small
  have hword : word = 2 ^ 64 := rfl
  unfold body at h ⊢
  dsimp only at h ⊢
  rw [hword] at h ⊢
  omega

theorem begun_matches (src : Input) : Matches src (.head 0 []) (.head begun) :=
  .head (s := begun) ⟨at_start src false, Nat.zero_le _, rfl, rfl, fun _ => .inl (Nat.zero_le _)⟩

theorem outcome (wild : Wild) (h : Turn.Returns (turn (body src k.offset capacity) false) (.head 0 []) v) :
    Outcome (body src k.offset capacity) wild (.head begun) v :=
  run_follows h (begun_matches _) (body_given src k capacity) (body_gap src k capacity)

theorem inRange_run (hgzip : isGzip src = true) (hk : skipHeader src = some k)
    (hlt : k.offset < src.size) (h : ∃ s', Run (body src k.offset capacity) wild begun s' ∧ Clean s') :
    InRange wild src capacity := by
  obtain ⟨s', hrun, hclean⟩ := h
  obtain ⟨n, hn⟩ := (decompress_begun hgzip hk hlt).mpr ⟨s', hrun, rfl⟩
  exact ⟨n, _, hn, hclean.overrun, hclean.stray, (Rest.head_extends hrun).room (Nat.zero_le _)⟩

/-- No access is out of range unless the reader finds one. -/
theorem inRange_of_not_comes (wild : Wild) (hundefined : ¬ Comes src capacity .undefined)
    (houtside : ¬ Comes src capacity .outside) : InRange wild src capacity := by
  by_cases hgzip : isGzip src = true
  · cases hk : skipHeader src with
    | none =>
      refine ⟨0, ⟨false, [], false, false⟩, ?_, rfl, rfl, Nat.zero_le _⟩
      unfold decompress
      rw [if_neg (by rw [hgzip]; nofun), hk]
    | some k =>
      by_cases hlt : k.offset < src.size
      · obtain ⟨v, hv⟩ := turn_ends (body src k.offset capacity) false (.head 0 [])
          (Nat.zero_le _)
        have hout := outcome wild hv
        cases v with
        | complete c out =>
          obtain ⟨s', hrun, hclean, -⟩ := hout
          exact inRange_run hgzip hk hlt ⟨s', hrun, hclean⟩
        | refused out =>
          obtain ⟨s', hrun, hclean, -⟩ := hout
          exact inRange_run hgzip hk hlt ⟨s', hrun, hclean⟩
        | overfull =>
          obtain ⟨s', hrun, hclean, -⟩ := hout
          exact inRange_run hgzip hk hlt ⟨s', hrun, hclean⟩
        | undefined => exact absurd ⟨k, hgzip, hk, hlt, hv⟩ hundefined
        | outside => exact absurd ⟨k, hgzip, hk, hlt, hv⟩ houtside
      · refine ⟨0, ⟨false, [], k.overread, false⟩, ?_, skipHeader_over hgzip hk, rfl, Nat.zero_le _⟩
        unfold decompress
        rw [if_neg (by rw [hgzip]; nofun), hk]
        dsimp only
        rw [if_pos (Nat.le_of_not_lt hlt)]
  · refine ⟨0, ⟨false, [], false, false⟩, ?_, rfl, rfl, Nat.zero_le _⟩
    unfold decompress
    rw [if_pos (Bool.eq_false_of_not_eq_true hgzip)]

theorem not_inRange_of_comes (h : Comes src capacity v) (hv : v = .undefined ∨ v = .outside) :
    ¬ InRange wild src capacity := by
  obtain ⟨k, hgzip, hk, hlt, hreturns⟩ := h
  rintro ⟨n, r, hn, hover, hstray, -⟩
  obtain ⟨s', hrun, rfl⟩ := (decompress_begun hgzip hk hlt).mp ⟨n, hn⟩
  have hout := outcome wild hreturns
  rcases hv with rfl | rfl
  · cases hstray.symm.trans (hout s' hrun).1
  · cases hover.symm.trans (hout s' hrun)

/-- `decompress` stays in range exactly when no dynamic block that it comes to has code lengths that
do not exist, or more of them than there is room for, and no byte behind the source is needed. -/
theorem decompress_inRange_iff (wild : Wild) (src : Source) (capacity : Nat) :
    InRange wild src capacity ↔
      ¬ Comes src capacity .undefined ∧ ¬ Comes src capacity .outside := by
  constructor
  · intro h
    exact ⟨fun hc => not_inRange_of_comes hc (.inl rfl) h,
      fun hc => not_inRange_of_comes hc (.inr rfl) h⟩
  · rintro ⟨hundefined, houtside⟩
    exact inRange_of_not_comes wild hundefined houtside

/-- A byte behind the source is needed only when fewer than 8 of its bytes follow the header. -/
theorem outside_short (h : Comes src capacity .outside) :
    ∃ k, skipHeader src = some k ∧ src.size < k.offset + 8 := by
  obtain ⟨k, hgzip, hk, hlt, hreturns⟩ := h
  refine ⟨k, hk, Nat.lt_of_not_le fun htrailer => ?_⟩
  have hlen := Framed.inLen ⟨hk, htrailer⟩ capacity
  have hgiven : (body src k.offset capacity).given = src.size - k.offset := rfl
  obtain ⟨cfg, -, hdone⟩ := hreturns.last (I := fun _ => True) trivial fun _ _ _ _ => trivial
  refine turn_ne_outside (fun c => ?_) hdone
  rw [← Bool.not_eq_true, beyond_iff]
  omega

def codelessFile : Source where
  bytes i := [0x1f, 0x8b, 8, 0, 0, 0, 0, 0, 0, 3, 5].getD i 0
  size := 30
  small := by decide

theorem codelessFile_comes : Comes codelessFile 10 .undefined := by
  refine ⟨⟨10, false⟩, by decide, rfl, by decide, 1, ?_⟩
  decide +kernel

/-- Its code lengths are all stored as 255. -/
theorem codelessFile_outOfRange : ¬ ∀ wild src capacity, InRange wild src capacity :=
  fun h => not_inRange_of_comes codelessFile_comes (.inl rfl) (h eager codelessFile 10)

end runs

end LosTacOS.Gzip
