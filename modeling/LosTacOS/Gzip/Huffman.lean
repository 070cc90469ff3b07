import LosTacOS.Gzip.Reader

/-! The decoding tables: what `build_huffman` makes of code lengths below 16, and that
`decode_symbol` reads the canonical code with these lengths. -/
namespace LosTacOS.Gzip

open BitStream Canonical

variable {src : Input} {s : State} {h : Huffman} {c i l m r : Nat} {lengths done : List UInt8}

section build

/-- What the table holds of a canonical code with words of at most 15 bits. -/
structure Holds (ls : List Nat) (h : Huffman) : Prop where
  counts : ∀ l, 0 < l → l < 16 → h.counts.getD l 0 = ls.count l
  symbols : ∀ l r i : Nat, 0 < l → l < 16 → (ranked ls l)[r]? = some i →
    h.symbols.getD (firstIndex ls l + r) 0 = (i : Int)
  room : ls.length ≤ 288

theorem widths_snoc (done : List UInt8) (x : UInt8) : widths (done ++ [x]) = widths done ++ [x.toNat] :=
  List.map_append

theorem widths_length (lengths : List UInt8) : (widths lengths).length = lengths.length :=
  List.length_map _

theorem tally_getD (hl : 0 < l) (hlt : l < 16) : ∀ done : List UInt8,
    (tally done).length = 16 ∧ (tally done).getD l 0 = (widths done).count l := by
  intro done
  induction done using List.reverseRecOn with
  | nil =>
    refine ⟨rfl, ?_⟩
    unfold tally
    rw [List.foldl_nil, List.getD_replicate _ hlt]
    rfl
  | append_singleton done x ih =>
    obtain ⟨hlen, ih⟩ := ih
    unfold tally at hlen ih ⊢
    rw [List.foldl_append, List.foldl_cons, List.foldl_nil, widths_snoc, List.count_append,
      List.count_singleton]
    by_cases hx : x ≠ 0
    · rw [if_pos hx]
      refine ⟨by rw [List.length_set, hlen], ?_⟩
      by_cases hxl : x.toNat = l
      · rw [hxl, List.getD_eq_getElem?_getD, List.getElem?_set_self (by omega), ih]
        simp
      · rw [List.getD_eq_getElem?_getD, List.getElem?_set_ne hxl, ← List.getD_eq_getElem?_getD, ih,
          if_neg (by simpa using hxl), Nat.add_zero]
    · rw [if_neg hx]
      refine ⟨hlen, ?_⟩
      have hx0 : x.toNat ≠ l := by
        rw [not_not.mp hx]
        exact Nat.ne_of_lt hl
      rw [ih, if_neg (by simpa using hx0), Nat.add_zero]

theorem offset_eq (lengths : List UInt8) (hlt : l < 16) :
    offset (tally lengths) l = firstIndex (widths lengths) l := by
  induction l with
  | zero => rfl
  | succ l ih =>
    rw [firstIndex]
    cases l with
    | zero => rfl
    | succ l =>
      rw [offset, ih (by omega), (tally_getD (by omega) (by omega) lengths).2, uses_pos (by omega)]
      exact (Int.natCast_add ..).symm

structure Placed (lengths done : List UInt8) (p : Placing) : Prop where
  size : p.offsets.length = 16 ∧ p.symbols.length = 288
  offsets : ∀ l, 0 < l → l < 16 →
    p.offsets.getD l 0 = ((firstIndex (widths lengths) l + (widths done).count l : Nat) : Int)
  symbols : ∀ l r i : Nat, 0 < l → l < 16 → (ranked (widths done) l)[r]? = some i →
    p.symbols.getD (firstIndex (widths lengths) l + r) 0 = (i : Int)
  inRange : p.inRange = true

theorem count_le_of_append {x : UInt8} {rest : List UInt8} (he : lengths = done ++ x :: rest) :
    (widths done).count x.toNat < (widths lengths).count x.toNat := by
  unfold widths
  rw [he, List.map_append, List.map_cons, List.count_append, List.count_cons_self]
  omega

theorem Placed.place {p : Placing} {x : UInt8} {rest : List UInt8} (hp : Placed lengths done p)
    (he : lengths = done ++ x :: rest) (hx : x.toNat < 16) (hroom : lengths.length ≤ 288) :
    Placed lengths (done ++ [x]) (p.place x done.length) := by
  unfold Placing.place
  by_cases h0 : x ≠ 0
  · rw [if_pos h0]
    have hpos : 0 < x.toNat := Nat.pos_of_ne_zero fun h => h0 (UInt8.toNat_inj.mp h)
    have hspot := hp.offsets x.toNat hpos hx
    have hcount := count_le_of_append he
    -- the place is one of those for this length
    have hend : firstIndex (widths lengths) x.toNat + (widths lengths).count x.toNat ≤ 288 := by
      have hle := firstIndex_le (widths lengths) (x.toNat + 1)
      rw [firstIndex, uses_pos (by omega), widths_length] at hle
      omega
    have hsize := hp.size
    dsimp only
    rw [hspot]
    refine ⟨⟨by rw [List.length_set, hsize.1], by rw [List.length_set, hsize.2]⟩,
      fun l hl hlt => ?_, fun l r i hl hlt hr => ?_, ?_⟩
    · rw [widths_snoc, List.count_append, List.count_singleton]
      by_cases hxl : x.toNat = l
      · rw [hxl, List.getD_eq_getElem?_getD, List.getElem?_set_self (by omega)]
        simp
        omega
      · rw [List.getD_eq_getElem?_getD, List.getElem?_set_ne hxl, ← List.getD_eq_getElem?_getD,
          hp.offsets l hl hlt, if_neg (by simpa using hxl), Nat.add_zero]
    · rw [Int.toNat_natCast, List.getD_eq_getElem?_getD]
      rw [widths_snoc, ranked_snoc] at hr
      by_cases hxl : x.toNat = l
      · subst hxl
        rw [if_pos rfl] at hr
        by_cases hlast : r = (widths done).count x.toNat
        · rw [hlast, ← ranked_length, List.getElem?_concat_length] at hr
          rw [hlast, List.getElem?_set_self (by omega), ← Option.some.inj hr, widths_length]
          rfl
        · have hr' : (ranked (widths done) x.toNat)[r]? = some i := by
            have hlt' := (List.getElem?_eq_some_iff.mp hr).1
            rw [List.length_append, ranked_length, List.length_singleton] at hlt'
            rwa [List.getElem?_append_left (by rw [ranked_length]; omega)] at hr
          rw [List.getElem?_set_ne (by omega), ← List.getD_eq_getElem?_getD]
          exact hp.symbols _ r i hpos hx hr'
      · rw [if_neg hxl] at hr
        have hrc : r < (widths done).count l := by
          rw [← ranked_length]
          exact (List.getElem?_eq_some_iff.mp hr).1
        have hle : (widths done).count l ≤ (widths lengths).count l := by
          unfold widths
          rw [he, List.map_append, List.count_append]
          exact Nat.le_add_right _ _
        -- the places of different lengths lie apart
        have hne : firstIndex (widths lengths) x.toNat + (widths done).count x.toNat ≠
            firstIndex (widths lengths) l + r := by
          rcases Nat.lt_or_gt_of_ne hxl with hlt' | hgt
          · have := @firstIndex_mono (widths lengths) _ _ hlt'
            rw [uses_pos (by omega)] at this
            omega
          · have := @firstIndex_mono (widths lengths) _ _ hgt
            rw [uses_pos (by omega)] at this
            omega
        rw [List.getElem?_set_ne hne, ← List.getD_eq_getElem?_getD]
        exact hp.symbols l r i hl hlt hr
    · rw [hp.inRange]
      simp
      omega
  · rw [if_neg h0]
    have hx0 : x.toNat = 0 := by
      rw [not_not.mp h0]
      rfl
    refine ⟨hp.size, fun l hl hlt => ?_, fun l r i hl hlt hr => ?_, hp.inRange⟩
    · rw [widths_snoc, List.count_append, List.count_singleton, hx0,
        if_neg (by simpa using Nat.ne_of_lt hl), Nat.add_zero]
      exact hp.offsets l hl hlt
    · rw [widths_snoc, ranked_snoc, hx0, if_neg (Nat.ne_of_lt hl)] at hr
      exact hp.symbols l r i hl hlt hr

theorem Placed.start (lengths : List UInt8) : Placed lengths []
    ⟨(List.range 16).map (offset (tally lengths)), List.replicate 288 0, true⟩ where
  size := ⟨by rw [List.length_map, List.length_range], List.length_replicate⟩
  offsets l _ hlt := by
    rw [List.getD_eq_getElem?_getD, List.getElem?_map, List.getElem?_range hlt]
    exact offset_eq lengths hlt
  symbols _ _ _ _ _ hr := by cases hr
  inRange := rfl

/-- Lengths below 16 give the table of the code, with all accesses in range. -/
theorem buildHuffman_holds (hlow : ∀ x ∈ lengths, x.toNat < 16) (hroom : lengths.length ≤ 288) :
    (buildHuffman lengths).2 = true ∧ Holds (widths lengths) (buildHuffman lengths).1 := by
  have hfold : ∀ done rest : List UInt8, lengths = done ++ rest → Placed lengths done
      (done.zipIdx.foldl (fun (p : Placing) x => p.place x.1 x.2)
        ⟨(List.range 16).map (offset (tally lengths)), List.replicate 288 0, true⟩) := by
    intro done
    induction done using List.reverseRecOn with
    | nil => exact fun _ _ => Placed.start lengths
    | append_singleton done x ih =>
      intro rest he
      rw [List.append_assoc, List.singleton_append] at he
      have hx := hlow x (by rw [he]; exact List.mem_append_right _ List.mem_cons_self)
      rw [List.zipIdx_append, List.foldl_append]
      have hstep := (ih _ he).place he hx hroom
      rw [← Nat.zero_add done.length] at hstep
      exact hstep
  have hp := hfold lengths [] (List.append_nil _).symm
  refine ⟨hp.inRange, fun l hl hlt => (tally_getD hl hlt lengths).2, hp.symbols, ?_⟩
  rw [widths_length]
  exact hroom

/-- A length that is too large is an access out of range. -/
theorem inRange_low (h : (buildHuffman lengths).2 = true) : ∀ x ∈ lengths, x.toNat < 16 := by
  have hfold : ∀ (done : List (UInt8 × Nat)) (p : Placing),
      (done.foldl (fun (p : Placing) x => p.place x.1 x.2) p).inRange = true →
      p.inRange = true ∧ ∀ x ∈ done, x.1.toNat < 16 := by
    intro done
    induction done with
    | nil => exact fun p hp => ⟨hp, nofun⟩
    | cons x done ih =>
      intro p hp
      obtain ⟨h1, h2⟩ := ih _ hp
      replace h1 : (p.place x.1 x.2).inRange = true := h1
      unfold Placing.place at h1
      by_cases h0 : x.1 ≠ 0
      · rw [if_pos h0] at h1
        simp only [Bool.and_eq_true, decide_eq_true_eq] at h1
        refine ⟨h1.1.1.1, fun y hy => ?_⟩
        rcases List.mem_cons.mp hy with rfl | hy
        · exact h1.1.1.2
        · exact h2 y hy
      · rw [if_neg h0] at h1
        refine ⟨h1, fun y hy => ?_⟩
        rcases List.mem_cons.mp hy with rfl | hy
        · rw [not_not.mp h0]
          decide
        · exact h2 y hy
  intro x hx
  obtain ⟨i, hi, rfl⟩ := List.mem_iff_getElem.mp hx
  refine (hfold _ _ h).2 (lengths[i], i) ?_
  rw [List.mem_zipIdx_iff_getElem?]
  exact List.getElem?_eq_getElem hi

theorem inRange_iff (hroom : lengths.length ≤ 288) :
    (buildHuffman lengths).2 = true ↔ ∀ x ∈ lengths, x.toNat < 16 :=
  ⟨inRange_low, fun h => (buildHuffman_holds h hroom).1⟩

end build

section decode

/-- What `decode_symbol` comes to: the symbol of the next word, or -1 after 15 bits without one. -/
inductive Decoded (src : Input) (ls : List Nat) (c : Nat) (s : State) : Int × State → Prop
  | symbol {i w : Nat} {s' : State} (hd : decode ls (bitsOf src) 15 c = some (i, w))
    (hat : At src s' (c + w)) (hr : Reads src s s') : Decoded src ls c s ((i : Int), s')
  | unknown {s' : State} (hno : decode ls (bitsOf src) 15 c = none) (hat : At src s' (c + 15))
    (hr : Reads src s s') : Decoded src ls c s (-1, s')

theorem Decoded.of_reads {ls : List Nat} {s1 : State} {x : Int × State} (h : Decoded src ls c s1 x)
    (hr : Reads src s s1) : Decoded src ls c s x := by
  cases h with
  | symbol hd hat hr' => exact .symbol hd hat (hr.trans hr')
  | unknown hno hat hr' => exact .unknown hno hat (hr.trans hr')

/-- The rest of the loop, after `l` bits that no word is a part of. -/
theorem Holds.decodeFrom {ls : List Nat} (hh : Holds ls h) (rest : Nat) (hl : l + rest = 15)
    (hat : At src s (c + l)) (hno : ∀ m ≤ l, ¬ Hits ls (bitsOf src) c m) :
    Decoded src ls c s (decodeFrom src h rest (l + 1) (highFirst (bitsOf src) c l)
      (firstCode ls (l + 1)) (firstIndex ls (l + 1)) s) := by
  induction rest generalizing l s with
  | zero =>
    have hl15 : l = 15 := by omega
    subst hl15
    exact .unknown (decode_none hno) hat (.refl src s)
  | succ rest ih =>
    obtain ⟨hbit, hat1, hr1⟩ := hat.getBits (n := 1) (by decide)
    rw [Gzip.decodeFrom]
    generalize Gzip.getBits src 1 s = x at hbit hat1 hr1
    obtain ⟨bit, s1⟩ := x
    dsimp only at hbit hat1 hr1 ⊢
    have hcode : 2 * (highFirst (bitsOf src) c l : Int) + bit =
        (highFirst (bitsOf src) c (l + 1) : Nat) := by
      rw [highFirst, hbit, lowFirst_one]
      push_cast
      rfl
    have hle : firstCode ls (l + 1) ≤ highFirst (bitsOf src) c (l + 1) :=
      firstCode_le fun m hm => hno m (by omega)
    rw [hcode, hh.counts (l + 1) (by omega) (by omega)]
    have huses : uses ls (l + 1) = ls.count (l + 1) := uses_pos (by omega)
    by_cases hlt : highFirst (bitsOf src) c (l + 1) < firstCode ls (l + 1) + uses ls (l + 1)
    · rw [if_pos (by omega)]
      obtain ⟨i, hi, -⟩ := Hits.symbol ⟨hle, hlt⟩
      have hr := (List.getElem?_eq_some_iff.mp hi).1
      rw [ranked_length] at hr
      have hplace : (firstIndex ls (l + 1) : Int) +
          ((highFirst (bitsOf src) c (l + 1) : Int) - firstCode ls (l + 1)) =
          (firstIndex ls (l + 1) + (highFirst (bitsOf src) c (l + 1) - firstCode ls (l + 1)) :
            Nat) := by omega
      have hroom := hh.room
      have hall := firstIndex_le ls (l + 2)
      rw [firstIndex, huses] at hall
      rw [hplace, Int.toNat_natCast, hh.symbols _ _ i (by omega) (by omega) hi,
        touch_inside (by omega) (by omega)]
      have hd : Decodes ls (bitsOf src) c i (l + 1) :=
        ⟨⟨hle, hlt⟩, fun m hm => hno m (by omega), hi⟩
      exact .symbol (hd.decode (by omega)) hat1 hr1
    · rw [if_neg (by omega)]
      have hfirst : 2 * ((firstCode ls (l + 1) : Int) + (ls.count (l + 1) : Nat)) =
          (firstCode ls (l + 2) : Nat) := by
        change _ = ((2 * (firstCode ls (l + 1) + uses ls (l + 1)) : Nat) : Int)
        rw [huses]
        push_cast
        rfl
      have hindex : (firstIndex ls (l + 1) : Int) + (ls.count (l + 1) : Nat) =
          (firstIndex ls (l + 2) : Nat) := by
        change _ = ((firstIndex ls (l + 1) + uses ls (l + 1) : Nat) : Int)
        rw [huses]
        push_cast
        rfl
      rw [hfirst, hindex]
      refine (ih (by omega) hat1 fun m hm => ?_).of_reads hr1
      rcases Nat.lt_or_eq_of_le hm with hm | rfl
      · exact hno m (by omega)
      · exact fun hhit => hlt hhit.2

/-- `decode_symbol` reads the next word of the code. -/
theorem Holds.decodeSymbol {ls : List Nat} (hh : Holds ls h) (hat : At src s c) :
    Decoded src ls c s (decodeSymbol src h s) := by
  refine hh.decodeFrom 15 rfl hat fun m hm => ?_
  rw [Nat.le_zero.mp hm]
  exact fun hhit => hhit.pos rfl

end decode

end LosTacOS.Gzip
