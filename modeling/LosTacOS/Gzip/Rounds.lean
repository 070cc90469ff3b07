import LosTacOS.Gzip.Dynamic

/-! What one round of each loop can do: a symbol of a block, a match, a stored block. -/
namespace LosTacOS.Gzip

open BitStream Canonical

variable {src : Input} {s s' : State} {lh dh : Huffman}

section copies

theorem put_inside {b : UInt8} (h : s.out.length < src.outLen) :
    s.put src b = { s with out := s.out ++ [b] } := by
  unfold State.put
  rw [touch_inside (Int.natCast_nonneg _) (Int.ofNat_lt.mpr h)]

theorem copied_length (dist len : Nat) (out : List UInt8) :
    (copied dist len out).length = out.length + len := by
  induction len generalizing out with
  | zero => rfl
  | succ len ih =>
    rw [copied, ih, List.length_append, List.length_singleton]
    omega

/-- A match is copied whole unless the output is full, with all accesses in range. -/
theorem copyMatch_eq {dist : Nat} (len : Nat) (hout : s.out.length ≤ src.outLen) :
    copyMatch src dist len s = (decide (s.out.length + len ≤ src.outLen),
      { s with out := copied dist (min len (src.outLen - s.out.length)) s.out }) := by
  induction len generalizing s with
  | zero =>
    rw [copyMatch, Nat.zero_min, Nat.add_zero, decide_eq_true hout]
    rfl
  | succ len ih =>
    rw [copyMatch]
    by_cases hfull : s.out.length ≥ src.outLen
    · have hroom : src.outLen - s.out.length = 0 := by omega
      rw [if_pos hfull, decide_eq_false (by omega), hroom, Nat.min_zero]
      rfl
    · have hlen : (s.out ++ [s.out.getD (s.out.length - dist) 0]).length = s.out.length + 1 :=
        List.length_append
      have hroom : min (len + 1) (src.outLen - s.out.length) =
          min len (src.outLen - (s.out.length + 1)) + 1 := by omega
      have hfits : s.out.length + 1 + len = s.out.length + (len + 1) := by omega
      rw [if_neg hfull]
      dsimp only
      rw [touch_inside (Int.natCast_nonneg _) (by omega), put_inside (by omega),
        ih (by dsimp only; omega)]
      dsimp only
      rw [hlen, hroom, copied, hfits]

end copies

section block

/-- A length symbol with the bits that belong to it: a match of `len` bytes. -/
def LengthRead (src : Input) (lh : Huffman) (s : State) (len : Nat) (s' : State) : Prop :=
  ∃ (i : Nat) (s1 : State), i < 29 ∧ decodeSymbol src lh s = (((257 + i : Nat) : Int), s1) ∧
    len = lens.getD i 0 + (getBits src (lext.getD i 0) s1).1 ∧
    s' = (getBits src (lext.getD i 0) s1).2

def DistanceRead (src : Input) (dh : Huffman) (s : State) (dist : Nat) (s' : State) : Prop :=
  ∃ (j : Nat) (s1 : State), j < 30 ∧ decodeSymbol src dh s = ((j : Int), s1) ∧
    dist = dists.getD j 0 + (getBits src (dext.getD j 0) s1).1 ∧
    s' = (getBits src (dext.getD j 0) s1).2

inductive Inflates (src : Input) (lh dh : Huffman) (s : State) : Turn State (Bool × State) → Prop
  | bad {sym : Int} {s1 : State} (h : decodeSymbol src lh s = (sym, s1))
    (hs : sym < 0 ∨ sym > 285) : Inflates src lh dh s (.done (false, s1))
  | full {b : Nat} {s1 : State} (h : decodeSymbol src lh s = ((b : Int), s1)) (hb : b < 256)
    (hf : src.outLen ≤ s1.out.length) : Inflates src lh dh s (.done (false, s1))
  | literal {b : Nat} {s1 : State} (h : decodeSymbol src lh s = ((b : Int), s1)) (hb : b < 256)
    (hf : s1.out.length < src.outLen) :
    Inflates src lh dh s (.again { s1 with out := s1.out ++ [UInt8.ofNat b] })
  | last {s1 : State} (h : decodeSymbol src lh s = (((256 : Nat) : Int), s1)) :
    Inflates src lh dh s (.done (true, s1))
  | unknown {len : Nat} {s1 s2 : State} {dsym : Int} (hl : LengthRead src lh s len s1)
    (h : decodeSymbol src dh s1 = (dsym, s2)) (hs : dsym < 0 ∨ dsym > 29) :
    Inflates src lh dh s (.done (false, s2))
  | far {len dist : Nat} {s1 s2 : State} (hl : LengthRead src lh s len s1)
    (hd : DistanceRead src dh s1 dist s2) (hfar : s2.out.length < dist) :
    Inflates src lh dh s (.done (false, s2))
  | copied {len dist : Nat} {s1 s2 s3 : State} (hl : LengthRead src lh s len s1)
    (hd : DistanceRead src dh s1 dist s2) (hnear : dist ≤ s2.out.length)
    (hc : copyMatch src dist len s2 = (true, s3)) : Inflates src lh dh s (.again s3)
  | cut {len dist : Nat} {s1 s2 s3 : State} (hl : LengthRead src lh s len s1)
    (hd : DistanceRead src dh s1 dist s2) (hnear : dist ≤ s2.out.length)
    (hc : copyMatch src dist len s2 = (false, s3)) : Inflates src lh dh s (.done (false, s3))

theorem inflateTurn_inflates (src : Input) (lh dh : Huffman) (s : State) :
    Inflates src lh dh s (inflateTurn src lh dh s) := by
  unfold inflateTurn
  cases hsym : decodeSymbol src lh s with
  | mk sym s1 =>
    dsimp only
    by_cases hbad : sym < 0 ∨ sym > 285
    · rw [if_pos hbad]
      exact .bad hsym hbad
    rw [if_neg hbad]
    obtain ⟨b, rfl⟩ : ∃ b : Nat, sym = b := ⟨sym.toNat, by omega⟩
    by_cases hlit : (b : Int) < 256
    · rw [if_pos hlit]
      by_cases hfull : s1.out.length ≥ src.outLen
      · rw [if_pos hfull]
        exact .full hsym (by omega) hfull
      · rw [if_neg hfull, put_inside (by omega), ofInt_natCast]
        exact .literal hsym (by omega) (by omega)
    rw [if_neg hlit]
    by_cases hend : (b : Int) = 256
    · rw [if_pos hend]
      obtain rfl : b = 256 := by omega
      exact .last hsym
    rw [if_neg hend]
    obtain ⟨i, rfl⟩ : ∃ i, b = 257 + i := ⟨b - 257, by omega⟩
    have hi : ((257 + i : Nat) - 257 : Int).toNat = i := by omega
    have hlt : i < 29 := by omega
    have hin : ∀ t : State, (t.touch i lens.length).touch i lext.length = t := by
      intro t
      have hlen : (i : Int) < lens.length := Int.ofNat_lt.mpr hlt
      have hext : (i : Int) < lext.length := Int.ofNat_lt.mpr hlt
      rw [touch_inside (Int.natCast_nonneg _) hlen, touch_inside (Int.natCast_nonneg _) hext]
    rw [hi, hin]
    have hl : LengthRead src lh s (lens.getD i 0 + (getBits src (lext.getD i 0) s1).1)
        (getBits src (lext.getD i 0) s1).2 := ⟨i, s1, hlt, hsym, rfl, rfl⟩
    generalize getBits src (lext.getD i 0) s1 = x at hl
    obtain ⟨extra, s2⟩ := x
    dsimp only at hl ⊢
    cases hd : decodeSymbol src dh s2 with
    | mk dsym s3 =>
      dsimp only
      by_cases hunknown : dsym < 0 ∨ dsym > 29
      · rw [if_pos hunknown]
        exact .unknown hl hd hunknown
      rw [if_neg hunknown]
      obtain ⟨j, rfl⟩ : ∃ j : Nat, dsym = j := ⟨dsym.toNat, by omega⟩
      have hj : j < 30 := by omega
      have hin : ∀ t : State, (t.touch j dists.length).touch j dext.length = t := by
        intro t
        have hlen : (j : Int) < dists.length := Int.ofNat_lt.mpr hj
        have hext : (j : Int) < dext.length := Int.ofNat_lt.mpr hj
        rw [touch_inside (Int.natCast_nonneg _) hlen, touch_inside (Int.natCast_nonneg _) hext]
      rw [Int.toNat_natCast, hin]
      have hdist : DistanceRead src dh s2 (dists.getD j 0 + (getBits src (dext.getD j 0) s3).1)
          (getBits src (dext.getD j 0) s3).2 := ⟨j, s3, hj, hd, rfl, rfl⟩
      generalize getBits src (dext.getD j 0) s3 = x at hdist
      obtain ⟨more, s4⟩ := x
      dsimp only at hdist ⊢
      by_cases hfar : dists.getD j 0 + more > s4.out.length
      · rw [if_pos hfar]
        exact .far hl hdist hfar
      rw [if_neg hfar]
      cases hc : copyMatch src (dists.getD j 0 + more) (lens.getD i 0 + extra) s4 with
      | mk ok s5 =>
        cases ok with
        | true => exact .copied hl hdist (by omega) hc
        | false => exact .cut hl hdist (by omega) hc

theorem length_tables : ∀ i < 29, lext.getD i 0 ≤ 16 ∧ 0 < lens.getD i 0 := by decide

theorem distance_tables : ∀ j < 30, dext.getD j 0 ≤ 16 := by decide

end block

section stored

def taken (src : Input) (s : State) (n : Nat) : State :=
  { s with
    inPos := s.inPos + n
    out := s.out ++ (List.range n).map fun i => src.input (s.inPos + i)
    overread := s.overread || decide (0 < n ∧ src.given < s.inPos + n) }

theorem taken_zero (src : Input) (s : State) : taken src s 0 = s := by
  unfold taken
  rw [decide_eq_false (by omega), Bool.or_false, List.range_zero, List.map_nil, List.append_nil]
  rfl

theorem taken_taken (src : Input) (s : State) (m n : Nat) :
    taken src (taken src s m) n = taken src s (m + n) := by
  unfold taken
  rw [State.mk.injEq]
  refine ⟨Nat.add_assoc .., rfl, rfl, ?_, ?_, rfl⟩
  · dsimp only
    rw [List.append_assoc, List.range_add, List.map_append, List.map_map]
    congr 2
    apply List.map_congr_left
    intro i _
    rw [Function.comp_apply, Nat.add_assoc]
  · dsimp only
    rw [Bool.or_assoc, ← Bool.decide_or]
    congr 1
    exact decide_eq_decide.mpr (by omega)

theorem copyStored_succ {len : Nat} (hroom : s.out.length < src.outLen) :
    copyStored src (len + 1) s = copyStored src len (taken src s 1) := by
  rw [copyStored, if_pos hroom]
  unfold State.put
  have hout : (s.peek src s.inPos).out = s.out := rfl
  rw [hout, touch_inside (Int.natCast_nonneg _) (Int.ofNat_lt.mpr hroom)]
  congr 1
  unfold taken State.peek
  rw [State.mk.injEq]
  refine ⟨rfl, rfl, rfl, rfl, ?_, rfl⟩
  dsimp only
  congr 1
  exact decide_eq_decide.mpr (by omega)

theorem copyStored_eq (len : Nat) (s : State) :
    copyStored src len s = taken src s (min len (src.outLen - s.out.length)) := by
  induction len generalizing s with
  | zero =>
    rw [Nat.zero_min, taken_zero]
    rfl
  | succ len ih =>
    by_cases hroom : s.out.length < src.outLen
    · have hlen : (taken src s 1).out.length = s.out.length + 1 := List.length_append
      have hmin : 1 + min len (src.outLen - (s.out.length + 1)) =
          min (len + 1) (src.outLen - s.out.length) := by omega
      rw [copyStored_succ hroom, ih, taken_taken, hlen, hmin]
    · have hmin : min (len + 1) (src.outLen - s.out.length) = 0 := by omega
      rw [copyStored, if_neg hroom, hmin, taken_zero]

def storedLen (src : Input) (p : Nat) : Nat :=
  (src.input p).toNat + 256 * (src.input (p + 1)).toNat

theorem storedLen_eq (src : Input) (p : Nat) :
    (src.input p).toNat ||| (src.input (p + 1)).toNat <<< 8 = storedLen src p := by
  have hlt : (src.input p).toNat < 2 ^ 8 := (src.input p).toNat_lt
  rw [Nat.or_comm, ← Nat.shiftLeft_add_eq_or_of_lt hlt, Nat.shiftLeft_eq, storedLen, Nat.add_comm,
    Nat.mul_comm]

theorem storedLen_lt (src : Input) (p : Nat) : storedLen src p < 2 ^ 16 := by
  have h1 : (src.input p).toNat < 2 ^ 8 := (src.input p).toNat_lt
  have h2 : (src.input (p + 1)).toNat < 2 ^ 8 := (src.input (p + 1)).toNat_lt
  unfold storedLen
  omega

def measured (src : Input) (s : State) : State :=
  { s with
    inPos := s.inPos + 4
    bitbuf := 0
    bitcnt := 0
    overread := s.overread || decide (src.given < s.inPos + 2) }

inductive Copies (src : Input) (s : State) : Bool × State → Prop
  | short (h : src.inLen < s.inPos + 4) :
    Copies src s (false, { s with bitbuf := 0, bitcnt := 0 })
  | long (h : s.inPos + 4 ≤ src.inLen) (hl : src.inLen < s.inPos + 4 + storedLen src s.inPos) :
    Copies src s (false, measured src s)
  | copied (h : s.inPos + 4 + storedLen src s.inPos ≤ src.inLen) :
    Copies src s (true, taken src (measured src s)
      (min (storedLen src s.inPos) (src.outLen - s.out.length)))

theorem storedBlock_copies (hwrap : s.inPos + 2 ^ 16 + 4 < word) :
    Copies src s (storedBlock src s) := by
  have hlen := storedLen_lt src s.inPos
  have h4 : (s.inPos + 4) % word = s.inPos + 4 := Nat.mod_eq_of_lt (by omega)
  have hend : (s.inPos + 4 + storedLen src s.inPos) % word = s.inPos + 4 + storedLen src s.inPos :=
    Nat.mod_eq_of_lt (by omega)
  unfold storedBlock
  dsimp only
  rw [h4, storedLen_eq]
  by_cases hshort : s.inPos + 4 > src.inLen
  · rw [if_pos hshort]
    exact .short hshort
  · have hstate : (({ s with bitbuf := 0, bitcnt := 0 } : State).peek src s.inPos).peek src
        (s.inPos + 1) = { measured src s with inPos := s.inPos } := by
      unfold State.peek measured
      rw [State.mk.injEq]
      refine ⟨rfl, rfl, rfl, rfl, ?_, rfl⟩
      dsimp only
      rw [Bool.or_assoc, ← Bool.decide_or]
      congr 1
      exact decide_eq_decide.mpr (by omega)
    rw [if_neg hshort, hstate]
    dsimp only
    rw [h4, hend]
    by_cases hlong : s.inPos + 4 + storedLen src s.inPos > src.inLen
    · rw [if_pos hlong]
      exact .long (Nat.le_of_not_lt hshort) hlong
    · rw [if_neg hlong, copyStored_eq]
      exact .copied (Nat.le_of_not_lt hlong)

end stored

end LosTacOS.Gzip
