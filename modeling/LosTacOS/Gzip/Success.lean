import LosTacOS.Gzip.Bounds
import Mathlib

/-! What the success that `decompress` reports means. It is that something was written, whatever
error ended the run. -/
namespace LosTacOS.Gzip

open BitStream Canonical Deflate

variable {src : Source} {k : Cursor} {wild : Wild} {capacity n : Nat} {r : Result} {v : Verdict}
  {s' : State} {out : List UInt8}

/-- The data behind the header is complete and free of errors, and `out` is all of it. -/
def Whole (src : Source) (k : Cursor) (capacity : Nat) (out : List UInt8) : Prop :=
  ∃ c, Turn.Returns (turn (body src k.offset capacity) true) (.head 0 []) (.complete c out)

def Silent (src : Source) (k : Cursor) (capacity : Nat) : Prop :=
  ∃ v, Turn.Returns (turn (body src k.offset capacity) false) (.head 0 []) v ∧
    (v = .refused [] ∨ ∃ c, v = .complete c [])

/-- Whatever the tables of blocks out of range, success means that the output is the whole data. -/
def SuccessMeansWhole (src : Source) (k : Cursor) (capacity : Nat) : Prop :=
  ∀ wild n r, decompress wild src capacity n = some r → r.success = true →
    Whole src k capacity r.out

section runs

theorem Framed.lt (h : Framed src k) : k.offset < src.size := by
  have := h.trailer
  omega

theorem result_out (hgzip : isGzip src = true) (h : Framed src k)
    (hrun : Run (body src k.offset capacity) wild begun s')
    (hr : decompress wild src capacity n = some r) :
    r.out = s'.out ∧ (r.success = true ↔ s'.out ≠ []) := by
  obtain ⟨t, ht, rfl⟩ := (decompress_begun hgzip h.header h.lt).mp ⟨n, hr⟩
  rw [hrun.unique ht]
  refine ⟨rfl, ?_⟩
  rw [decide_eq_true_eq, List.length_pos_iff]

theorem whole_of_run (hgzip : isGzip src = true) (h : Framed src k)
    (hmeans : SuccessMeansWhole src k capacity)
    (hrun : Run (body src k.offset capacity) wild begun s') (hne : s'.out ≠ []) :
    Whole src k capacity s'.out := by
  obtain ⟨n, hn⟩ := (decompress_begun hgzip h.header h.lt).mpr ⟨s', hrun, rfl⟩
  exact hmeans wild n _ hn (decide_eq_true (List.length_pos_of_ne_nil hne))

theorem Framed.passed (h : Framed src k) (capacity c : Nat) :
    beyond (body src k.offset capacity) c = false := by
  have hlen := h.inLen capacity
  have hgiven : (body src k.offset capacity).given = src.size - k.offset := rfl
  rw [← Bool.not_eq_true, beyond_iff]
  omega

end runs

theorem whole_result (hgzip : isGzip src = true) (h : Framed src k)
    (hwhole : Whole src k capacity out) (hr : decompress wild src capacity n = some r) :
    r.out = out := by
  obtain ⟨c, hc⟩ := hwhole
  obtain ⟨s', hrun, -, rfl⟩ := outcome wild (complete_strict hc)
  exact (result_out hgzip h hrun hr).1

theorem silent_result (hgzip : isGzip src = true) (h : Framed src k) (hsilent : Silent src k capacity)
    (hr : decompress wild src capacity n = some r) : r.success = false := by
  obtain ⟨v, hv, hcases⟩ := hsilent
  have hout := outcome wild hv
  obtain ⟨s', hrun, hnil⟩ :
      ∃ s', Run (body src k.offset capacity) wild begun s' ∧ s'.out = [] := by
    rcases hcases with rfl | ⟨c, rfl⟩
    · obtain ⟨s', hrun, -, hs'⟩ := hout
      exact ⟨s', hrun, hs'⟩
    · obtain ⟨s', hrun, -, hs'⟩ := hout
      exact ⟨s', hrun, hs'⟩
  rw [← Bool.not_eq_true, (result_out hgzip h hrun hr).2]
  exact fun hne => hne hnil

/-- Success means that the data was decompressed whole exactly when it is whole, or there is no room
for output, or the first error comes before any output. -/
theorem success_means_whole_iff (hgzip : isGzip src = true) (h : Framed src k) :
    SuccessMeansWhole src k capacity ↔
      capacity = 0 ∨ (∃ out, Whole src k capacity out) ∨ Silent src k capacity := by
  constructor
  · intro hmeans
    by_cases hroom : capacity = 0
    · exact .inl hroom
    right
    obtain ⟨v, hv⟩ := turn_ends (body src k.offset capacity) false (.head 0 [])
      (Nat.zero_le _)
    have hout := outcome eager hv
    cases v with
    | complete c out =>
      obtain ⟨s', hrun, -, rfl⟩ := hout
      by_cases hnil : s'.out = []
      · exact .inr ⟨_, hv, .inr ⟨c, by rw [hnil]⟩⟩
      · exact .inl ⟨_, whole_of_run hgzip h hmeans hrun hnil⟩
    | refused out =>
      obtain ⟨s', hrun, -, rfl⟩ := hout
      by_cases hnil : s'.out = []
      · exact .inr ⟨_, hv, .inl (by rw [hnil])⟩
      · exact .inl ⟨_, whole_of_run hgzip h hmeans hrun hnil⟩
    | overfull =>
      obtain ⟨s', hrun, -, hfull⟩ := hout
      have hne : s'.out ≠ [] := List.ne_nil_of_length_pos (hfull ▸ Nat.pos_of_ne_zero hroom)
      exact .inl ⟨_, whole_of_run hgzip h hmeans hrun hne⟩
    | undefined =>
      have hsmall := src.small
      have hlen := h.inLen capacity
      have hword : word = 2 ^ 64 := rfl
      obtain ⟨s', hrun⟩ := run_ends eager (by omega)
        (at_start (body src k.offset capacity) false) (Nat.zero_le _)
      have hne := (hout s' hrun).2 rfl (Nat.pos_of_ne_zero hroom)
      exact .inl ⟨_, whole_of_run hgzip h hmeans hrun hne⟩
    | outside =>
      obtain ⟨cfg, -, hdone⟩ := hv.last (I := fun _ => True) trivial fun _ _ _ _ => trivial
      exact absurd hdone (turn_ne_outside (h.passed capacity))
  · rintro (rfl | ⟨out, hwhole⟩ | hsilent) wild n r hr hsuccess
    · obtain ⟨t, ht, rfl⟩ := (decompress_begun hgzip h.header h.lt).mp ⟨n, hr⟩
      have hnone := (Rest.head_extends ht).room (Nat.zero_le _)
      have hsome := of_decide_eq_true hsuccess
      exact absurd hsome (Nat.not_lt.mpr hnone)
    · rw [whole_result hgzip h hwhole hr]
      exact hwhole
    · cases (silent_result hgzip h hsilent hr).symm.trans hsuccess

theorem thirty_small : 30 < 2 ^ 63 := by decide

def brokenFile : Source where
  bytes i := [0x1f, 0x8b, 8, 0, 0, 0, 0, 0, 0, 3, 0x4a, 0x04, 0x18].getD i 0
  size := 30
  small := thirty_small

theorem brokenFile_framed : Framed brokenFile ⟨10, false⟩ := ⟨rfl, by decide⟩

theorem brokenFile_refused (strict : Bool) :
    Turn.Returns (turn (body brokenFile 10 10) strict) (.head 0 []) (.refused [97]) := by
  refine ⟨5, ?_⟩
  cases strict <;> decide +kernel

def wholeFile : Source where
  bytes i := [0x1f, 0x8b, 8, 0, 0, 0, 0, 0, 0, 3, 0x4b, 0x04, 0x00].getD i 0
  size := 21
  small := by decide

theorem wholeFile_complete :
    ∃ c, Turn.Returns (turn (body wholeFile 10 10) true) (.head 0 []) (.complete c [97]) :=
  ⟨18, 5, by decide +kernel⟩

theorem success_means_whole_iff_files : SuccessMeansWhole wholeFile ⟨10, false⟩ 10 ∧
    ¬ SuccessMeansWhole brokenFile ⟨10, false⟩ 10 := by
  refine ⟨(success_means_whole_iff (by decide) ⟨rfl, by decide⟩).mpr
    (.inr (.inl ⟨[97], wholeFile_complete⟩)), fun h => ?_⟩
  rcases (success_means_whole_iff (by decide) brokenFile_framed).mp h with h0 | ⟨out, c, hc⟩ | ⟨v, hv, h0⟩
  · cases h0
  · cases hc.unique (brokenFile_refused true)
  · cases hv.unique (brokenFile_refused false)
    rcases h0 with h0 | ⟨c, h0⟩
    · cases h0
    · cases h0

/-- It is a success, since the byte was written. -/
theorem brokenFile_succeeds : ¬ ∀ src k capacity, isGzip src = true → Framed src k →
    SuccessMeansWhole src k capacity := by
  intro h
  have hmeans := h brokenFile ⟨10, false⟩ 10 (by decide) brokenFile_framed
  obtain ⟨s', hrun, -, hs'⟩ := outcome eager (k := ⟨10, false⟩) (brokenFile_refused false)
  have hne : s'.out ≠ [] := by
    rw [hs']
    nofun
  obtain ⟨c, hc⟩ := whole_of_run (by decide) brokenFile_framed hmeans hrun hne
  cases hc.unique (brokenFile_refused true)

end LosTacOS.Gzip
