import LosTacOS.Gzip.Huffman

/-! The code lengths of a dynamic block. The loop that reads them ends whatever the bits are, and
where they describe codes it stores the lengths of these. -/
namespace LosTacOS.Gzip

open BitStream Canonical Deflate

variable {src : Input} {s s' s'' : State} {ch : Huffman} {cl ws : List Nat} {c c' c'' i n r num : Nat}
  {lengths lengths' lengths'' clens : List UInt8}

section clens

/-- `clorder` has every symbol once. -/
theorem clorder_getD : ∀ i < 19, clorder.getD i 0 < 19 ∧ clorder.idxOf (clorder.getD i 0) = i := by
  decide

theorem clorder_idxOf : ∀ x < 19, clorder.getD (clorder.idxOf x) 0 = x := by decide

/-- The loop that reads `clens`, from entry `i` of `clorder` on. -/
theorem At.readClens (hat : At src s c) (hlen : clens.length = 19) (hi : i + n ≤ 19) :
    At src (readClens src n i clens s).2 (c + 3 * n) ∧ Reads src s (readClens src n i clens s).2 ∧
      (readClens src n i clens s).1.length = 19 ∧
      ∀ x < 19, ((readClens src n i clens s).1.getD x 0).toNat =
        if i ≤ clorder.idxOf x ∧ clorder.idxOf x < i + n then
          lowFirst (bitsOf src) (c + 3 * (clorder.idxOf x - i)) 3
        else (clens.getD x 0).toNat := by
  induction n generalizing i c clens s with
  | zero =>
    refine ⟨hat, .refl src s, hlen, fun x _ => ?_⟩
    rw [if_neg (by omega)]
    rfl
  | succ n ih =>
    obtain ⟨hval, hat1, hr1⟩ := hat.getBits (n := 3) (by decide)
    obtain ⟨hplace, hidx⟩ := clorder_getD i (by omega)
    rw [Gzip.readClens]
    generalize Gzip.getBits src 3 s = y at hval hat1 hr1
    obtain ⟨l, s1⟩ := y
    dsimp only at hval hat1 hr1 ⊢
    have hin : (s1.touch i clorder.length).touch (clorder.getD i 0 : Nat) 19 = s1 := by
      have hlt : (i : Int) < clorder.length := Int.ofNat_lt.mpr (by omega : i < 19)
      rw [touch_inside (Int.natCast_nonneg _) hlt,
        touch_inside (Int.natCast_nonneg _) (Int.ofNat_lt.mpr hplace)]
    rw [hin]
    obtain ⟨hat2, hr2, hlen2, hget⟩ := ih (i := i + 1) hat1
      (by rw [List.length_set, hlen] : (clens.set (clorder.getD i 0) (UInt8.ofNat l)).length = 19)
      (by omega)
    refine ⟨?_, hr1.trans hr2, hlen2, fun x hx => ?_⟩
    · have hc : c + 3 + 3 * n = c + 3 * (n + 1) := by omega
      rwa [hc] at hat2
    rw [hget x hx]
    by_cases hxi : clorder.idxOf x = i
    · -- the entry that this round has set
      have hx' : clorder.getD i 0 = x := by rw [← hxi, clorder_idxOf x hx]
      rw [if_neg (by omega), if_pos (by omega), hx', hxi, Nat.sub_self, hval,
        List.getD_eq_getElem?_getD, List.getElem?_set_self (by omega), Option.getD_some,
        UInt8.toNat_ofNat', Nat.mul_zero, Nat.add_zero]
      exact Nat.mod_eq_of_lt (Nat.lt_trans (lowFirst_lt ..) (by decide))
    · have hne : clorder.getD i 0 ≠ x := by
        intro h
        rw [h] at hidx
        exact hxi hidx
      by_cases hin : i + 1 ≤ clorder.idxOf x ∧ clorder.idxOf x < i + 1 + n
      · have hc : c + 3 + 3 * (clorder.idxOf x - (i + 1)) = c + 3 * (clorder.idxOf x - i) := by omega
        rw [if_pos hin, if_pos (by omega), hc]
      · rw [if_neg hin, if_neg (by omega), List.getD_eq_getElem?_getD, List.getElem?_set_ne hne,
          ← List.getD_eq_getElem?_getD]

/-- `clens` holds the lengths of the code for code lengths. -/
theorem readClens_widths (hat : At src s c) (hn : n ≤ 19) :
    widths (readClens src n 0 (List.replicate 19 0) s).1 = codeWidths (bitsOf src) c n := by
  obtain ⟨-, -, hlen, hget⟩ :=
    hat.readClens (i := 0) (List.length_replicate : (List.replicate 19 (0 : UInt8)).length = 19)
      (by omega : 0 + n ≤ 19)
  unfold widths codeWidths
  apply List.ext_getElem
  · rw [List.length_map, hlen, List.length_map, List.length_range]
  intro x hx hx'
  have hlt : x < 19 := by rwa [List.length_map, hlen] at hx
  have h := hget x hlt
  rw [List.getD_eq_getElem?_getD, List.getElem?_eq_getElem (by omega), Option.getD_some] at h
  rw [List.getElem_map, h, List.getElem_map, List.getElem_range, Nat.sub_zero, Nat.zero_add,
    List.getD_replicate _ hlt]
  refine if_congr ?_ rfl rfl
  simp

theorem codeWidths_lt {w : Nat} {bits : Nat → Bool} (h : w ∈ codeWidths bits c n) : w < 16 := by
  obtain ⟨x, -, rfl⟩ := List.mem_map.mp h
  split
  · exact Nat.lt_trans (lowFirst_lt ..) (by decide)
  · decide

end clens

section extend

variable {bits : Nat → Bool} {sym w : Nat}

theorem extend_gains (bits : Nat → Bool) (sym c : Nat) (ws : List Nat) :
    ∃ copy val, (extend bits sym c ws).2 = ws ++ List.replicate (copy + 1) val ∧
      c ≤ (extend bits sym c ws).1 := by
  unfold extend
  by_cases hlow : sym < 16
  · rw [if_pos hlow]
    exact ⟨0, sym, rfl, Nat.le_refl _⟩
  rw [if_neg hlow]
  by_cases h16 : sym = 16
  · rw [if_pos h16]
    exact ⟨lowFirst bits c 2 + 2, _, rfl, Nat.le_add_right _ _⟩
  rw [if_neg h16]
  by_cases h17 : sym = 17
  · rw [if_pos h17]
    exact ⟨lowFirst bits c 3 + 2, _, rfl, Nat.le_add_right _ _⟩
  · rw [if_neg h17]
    exact ⟨lowFirst bits c 7 + 10, _, rfl, Nat.le_add_right _ _⟩

theorem extend_lt (hws : ∀ w ∈ ws, w < 16) : ∀ w ∈ (extend bits sym c ws).2, w < 16 := by
  have hadd : ∀ (k v : Nat), v < 16 → ∀ w ∈ ws ++ List.replicate k v, w < 16 := by
    intro k v hv w hw
    rcases List.mem_append.mp hw with hw | hw
    · exact hws w hw
    · rwa [List.eq_of_mem_replicate hw]
  unfold extend
  by_cases hlow : sym < 16
  · rw [if_pos hlow]
    exact hadd 1 sym hlow
  rw [if_neg hlow]
  by_cases h16 : sym = 16
  · rw [if_pos h16]
    refine hadd _ _ ?_
    cases hlast : ws.getLast? with
    | none => decide
    | some w => exact hws w (List.mem_of_getLast? hlast)
  rw [if_neg h16]
  by_cases h17 : sym = 17
  · rw [if_pos h17]
    exact hadd _ 0 (by decide)
  · rw [if_neg h17]
    exact hadd _ 0 (by decide)

theorem readWidths_lt (hws : ∀ w ∈ ws, w < 16) {p : Nat} {ws' : List Nat}
    (h : readWidths bits cl num r c ws = some (p, ws')) : ∀ w ∈ ws', w < 16 := by
  induction r generalizing c ws with
  | zero =>
    cases h
    exact hws
  | succ r ih =>
    rw [readWidths] at h
    by_cases hlt : ws.length < num
    · rw [if_pos hlt] at h
      cases hd : decode cl bits 15 c with
      | none =>
        rw [hd] at h
        cases h
      | some x =>
        rw [hd] at h
        exact ih (extend_lt hws) h
    · rw [if_neg hlt] at h
      cases h
      exact hws

end extend

section loop

structure Gains (src : Input) (c : Nat) (s : State) (lengths : List UInt8) (c' : Nat) (s' : State)
    (lengths' : List UInt8) : Prop where
  forth : c ≤ c'
  here : At src s' c'
  advances : Advances src s s'
  stray : s'.stray = (s.stray || decide (320 < lengths'.length))
  grows : lengths <+: lengths'

theorem Gains.trans (h : Gains src c s lengths c' s' lengths')
    (h' : Gains src c' s' lengths' c'' s'' lengths'') : Gains src c s lengths c'' s'' lengths'' where
  forth := Nat.le_trans h.forth h'.forth
  here := h'.here
  advances := h.advances.trans h'.advances
  stray := by
    have hle := h'.grows.length_le
    rw [h'.stray, h.stray, Bool.or_assoc]
    congr 1
    rw [← Bool.decide_or]
    exact decide_eq_decide.mpr (by omega)
  grows := h.grows.trans h'.grows

theorem pushLengths_gains (lengths : List UInt8) (copy : Nat) (val : UInt8) (hle : c ≤ c') (hat : At src s' c')
    (hr : Reads src s s') :
    ∃ s'', pushLengths s' lengths (copy + 1) val =
        (s'', lengths ++ List.replicate (copy + 1) val) ∧
      Gains src c s lengths c' s'' (lengths ++ List.replicate (copy + 1) val) := by
  refine ⟨_, rfl, hle, hat.touch 320, ⟨hr.out, hr.forth, hr.overrun⟩, ?_, List.prefix_append ..⟩
  rw [List.length_append, List.length_replicate, ← hr.stray]
  unfold State.touch
  dsimp only
  congr 1
  rw [Bool.eq_iff_iff]
  simp only [Bool.not_eq_true', Bool.and_eq_false_iff, decide_eq_false_iff_not, decide_eq_true_eq]
  omega

theorem widths_append (lengths lengths' : List UInt8) :
    widths (lengths ++ lengths') = widths lengths ++ widths lengths' :=
  List.map_append

theorem widths_replicate (val : UInt8) (k : Nat) :
    widths (List.replicate k val) = List.replicate k val.toNat :=
  List.map_replicate

theorem ofInt_natCast (b : Nat) : UInt8.ofInt (b : Int) = UInt8.ofNat b := by
  unfold UInt8.ofInt
  rw [← UInt8.toNat_inj, UInt8.toNat_ofNat', UInt8.toNat_ofNat']
  omega

theorem widths_getLast (lengths : List UInt8) :
    (widths lengths).getLast?.getD 0 = (lengths.getLast?.getD 0).toNat := by
  unfold widths
  rw [List.getLast?_map]
  cases lengths.getLast? <;> rfl

/-- A round of the loop: it adds lengths, those that the next symbol stands for if there is one. -/
theorem lengthsTurn_gains (hh : Holds cl ch) (hcl : cl.length = 19) (hat : At src s c)
    (hnum : lengths.length < num) :
    ∃ c' s' lengths', lengthsTurn src ch num (s, lengths) = .again (s', lengths') ∧
      Gains src c s lengths c' s' lengths' ∧ lengths.length < lengths'.length ∧
      match decode cl (bitsOf src) 15 c with
      | some (sym, w) => extend (bitsOf src) sym (c + w) (widths lengths) = (c', widths lengths')
      | none => lengths' = lengths ++ [255] := by
  have hmore : ∀ copy (val : UInt8),
      lengths.length < (lengths ++ List.replicate (copy + 1) val).length := by
    intro copy val
    rw [List.length_append, List.length_replicate]
    omega
  have hdec := hh.decodeSymbol hat
  unfold lengthsTurn
  dsimp only
  rw [if_pos hnum]
  generalize decodeSymbol src ch s = x at hdec
  cases hdec with
  | unknown hno hat1 hr1 =>
    rw [hno]
    obtain ⟨s2, hpush, hg⟩ := pushLengths_gains lengths 0 255
      (Nat.le_add_right _ _) hat1 hr1
    exact ⟨_, s2, _, congrArg Turn.again hpush, hg, hmore 0 255, rfl⟩
  | @symbol sym w s1 hd hat1 hr1 =>
    rw [hd]
    have hsym := (decode_some hd).2
    unfold extend
    by_cases hlow : sym < 16
    · have hlow' : (sym : Int) < 16 := by omega
      dsimp only
      rw [if_pos hlow, if_pos hlow', ofInt_natCast]
      obtain ⟨s2, hpush, hg⟩ := pushLengths_gains lengths 0
        (UInt8.ofNat sym) (Nat.le_add_right _ _) hat1 hr1
      refine ⟨_, s2, _, congrArg Turn.again hpush, hg, hmore 0 _, ?_⟩
      rw [widths_append, widths_replicate, UInt8.toNat_ofNat', Nat.mod_eq_of_lt (by omega)]
      rfl
    have hlow' : ¬ (sym : Int) < 16 := by omega
    dsimp only
    rw [if_neg hlow, if_neg hlow']
    -- a repeated length, with `m` bits for how often
    have hcopy : ∀ (m base : Nat) (val : UInt8), m ≤ 16 →
        ∃ c' s' lengths', pushLengths (getBits src m s1).2 lengths
            ((getBits src m s1).1 + (base + 1)) val = (s', lengths') ∧
          Gains src c s lengths c' s' lengths' ∧ lengths.length < lengths'.length ∧
          (c + w + m, widths lengths ++
            List.replicate (lowFirst (bitsOf src) (c + w) m + (base + 1)) val.toNat) =
            (c', widths lengths') := by
      intro m base val hm
      obtain ⟨hval, hat2, hr2⟩ := hat1.getBits hm
      obtain ⟨s3, hpush, hg⟩ := pushLengths_gains lengths
        ((getBits src m s1).1 + base) val (by omega : c ≤ c + w + m) hat2 (hr1.trans hr2)
      refine ⟨_, s3, _, hpush, hg, hmore _ _, ?_⟩
      rw [widths_append, widths_replicate, hval]
      rfl
    by_cases h16 : sym = 16
    · have h16' : (sym : Int) = 16 := by omega
      rw [if_pos h16, if_pos h16', widths_getLast]
      obtain ⟨c2, s2, lengths2, hpush, h⟩ := hcopy 2 2 (lengths.getLast?.getD 0) (by decide)
      exact ⟨c2, s2, lengths2, congrArg Turn.again hpush, h⟩
    have h16' : ¬ (sym : Int) = 16 := by omega
    rw [if_neg h16, if_neg h16']
    by_cases h17 : sym = 17
    · have h17' : (sym : Int) = 17 := by omega
      rw [if_pos h17, if_pos h17']
      obtain ⟨c2, s2, lengths2, hpush, h⟩ := hcopy 3 2 0 (by decide)
      exact ⟨c2, s2, lengths2, congrArg Turn.again hpush, h⟩
    · have h17' : ¬ (sym : Int) = 17 := by omega
      have h18' : (sym : Int) = 18 := by omega
      rw [if_neg h17, if_neg h17', if_pos h18']
      obtain ⟨c2, s2, lengths2, hpush, h⟩ := hcopy 7 10 0 (by decide)
      exact ⟨c2, s2, lengths2, congrArg Turn.again hpush, h⟩

theorem Gains.refl (hat : At src s c) (hs : 320 < lengths.length → s.stray = true) :
    Gains src c s lengths c s lengths := by
  refine ⟨Nat.le_refl _, hat, .refl src s, ?_, List.prefix_rfl⟩
  by_cases hlen : 320 < lengths.length
  · rw [hs hlen, Bool.true_or]
  · rw [decide_eq_false hlen, Bool.or_false]

theorem lengthsTurn_full (hnum : num ≤ lengths.length) :
    lengthsTurn src ch num (s, lengths) = .done (s, lengths) := by
  unfold lengthsTurn
  dsimp only
  rw [if_neg (by omega)]

def LoopGains (src : Input) (ch : Huffman) (cl : List Nat) (num r c : Nat) (s : State)
    (lengths : List UInt8) : Prop :=
  ∃ c' s' lengths',
    (∀ n, r < n → loopFor (lengthsTurn src ch num) n (s, lengths) = some (s', lengths')) ∧
    Gains src c s lengths c' s' lengths' ∧ num ≤ lengths'.length ∧
    (∀ place ws, readWidths (bitsOf src) cl num r c (widths lengths) = some (place, ws) →
      place = c' ∧ ws = widths lengths') ∧
    (readWidths (bitsOf src) cl num r c (widths lengths) = none → 255 ∈ lengths'.take num)

theorem loopGains_full (hat : At src s c) (hnum : num ≤ lengths.length)
    (hs : 320 < lengths.length → s.stray = true) : LoopGains src ch cl num r c s lengths := by
  have hread : readWidths (bitsOf src) cl num r c (widths lengths) = some (c, widths lengths) := by
    cases r with
    | zero => rfl
    | succ r => rw [readWidths, if_neg (by rw [widths_length]; omega)]
  refine ⟨c, s, lengths, fun n hn => ?_, .refl hat hs, hnum, ?_, ?_⟩
  · obtain ⟨m, rfl⟩ : ∃ m, n = m + 1 := ⟨n - 1, by omega⟩
    exact Turn.loopFor_done (lengthsTurn_full hnum)
  · intro place ws h
    cases hread.symm.trans h
    exact ⟨rfl, rfl⟩
  · intro h
    cases hread.symm.trans h

theorem loopGains (hh : Holds cl ch) (hcl : cl.length = 19) (hat : At src s c)
    (hr : num ≤ lengths.length + r) (hs : 320 < lengths.length → s.stray = true) :
    LoopGains src ch cl num r c s lengths := by
  induction r generalizing c s lengths with
  | zero => exact loopGains_full hat hr hs
  | succ r ih =>
    by_cases hnum : num ≤ lengths.length
    · exact loopGains_full hat hnum hs
    obtain ⟨c1, s1, lengths1, hturn, hg, hlt, hsym⟩ :=
      lengthsTurn_gains hh hcl hat (Nat.lt_of_not_le hnum)
    have hs1 : 320 < lengths1.length → s1.stray = true := by
      intro hlen
      rw [hg.stray, decide_eq_true hlen, Bool.or_true]
    obtain ⟨c2, s2, lengths2, hloop, hg2, hnum2, hws⟩ := ih hg.here (by omega) hs1
    refine ⟨c2, s2, lengths2, fun n hn => ?_, hg.trans hg2, hnum2, ?_⟩
    · obtain ⟨m, rfl⟩ : ∃ m, n = m + 1 := ⟨n - 1, by omega⟩
      rw [Turn.loopFor_again hturn]
      exact hloop m (by omega)
    rw [readWidths, if_pos (by rw [widths_length]; omega)]
    cases hd : decode cl (bitsOf src) 15 c with
    | some x =>
      obtain ⟨sym, w⟩ := x
      rw [hd] at hsym
      dsimp only at hsym
      rw [Option.bind_eq_bind, Option.bind_some]
      dsimp only
      rw [hsym]
      exact hws
    | none =>
      rw [hd] at hsym
      subst hsym
      -- the length that does not exist is one of those that are wanted
      obtain ⟨rest, rfl⟩ := hg2.grows
      refine ⟨nofun, fun _ => ?_⟩
      rw [List.append_assoc, List.take_append]
      refine List.mem_append_right _ (List.mem_take_iff_getElem.mpr ⟨0, ?_, rfl⟩)
      rw [List.length_append, List.length_singleton]
      omega

end loop

section tables

variable {bits : Nat → Bool} {hlit hdist : Nat} {t : Tables}

theorem tablesFrom_some (h : tablesFrom bits hlit hdist cl c = some t) :
    ∃ ws, readWidths bits cl (hlit + hdist) (hlit + hdist) c [] = some (t.place, ws) ∧
      ws.length ≤ 320 ∧ t.lit = ws.take hlit ∧ t.dist = (ws.drop hlit).take hdist := by
  unfold tablesFrom at h
  cases hread : readWidths bits cl (hlit + hdist) (hlit + hdist) c [] with
  | none =>
    rw [hread] at h
    cases h
  | some x =>
    obtain ⟨place, ws⟩ := x
    rw [hread, Option.bind_eq_bind, Option.bind_some] at h
    dsimp only at h
    by_cases hroom : ws.length ≤ 320
    · rw [if_pos hroom] at h
      cases h
      exact ⟨ws, rfl, hroom, rfl, rfl⟩
    · rw [if_neg hroom] at h
      cases h

theorem tablesFrom_none (h : tablesFrom bits hlit hdist cl c = none) :
    readWidths bits cl (hlit + hdist) (hlit + hdist) c [] = none ∨
      ∃ place ws, readWidths bits cl (hlit + hdist) (hlit + hdist) c [] = some (place, ws) ∧
        320 < ws.length := by
  unfold tablesFrom at h
  cases hread : readWidths bits cl (hlit + hdist) (hlit + hdist) c [] with
  | none => exact .inl rfl
  | some x =>
    obtain ⟨place, ws⟩ := x
    rw [hread, Option.bind_eq_bind, Option.bind_some] at h
    dsimp only at h
    refine .inr ⟨place, ws, rfl, Nat.lt_of_not_le fun hroom => ?_⟩
    rw [if_pos hroom] at h
    cases h

end tables

structure Stores (src : Input) (c : Nat) (s : State) (hlit hdist : Nat) (lengths : List UInt8)
    (c' : Nat) (s' : State) : Prop where
  gains : Gains src c s [] c' s' lengths
  lit : hlit ≤ 288
  dist : hdist ≤ 32
  enough : hlit + hdist ≤ lengths.length
  known : ∀ t, tables (bitsOf src) c = some t →
    lengths.length ≤ 320 ∧ t.place = c' ∧ t.lit = widths (lengths.take hlit) ∧
      t.dist = widths ((lengths.drop hlit).take hdist) ∧ ∀ w ∈ widths lengths, w < 16
  unknown : tables (bitsOf src) c = none →
    320 < lengths.length ∨ 255 ∈ lengths.take hlit ++ (lengths.drop hlit).take hdist

theorem Gains.of_reads (h : Gains src c' s' lengths c'' s'' lengths') (hr : Reads src s s')
    (hle : c ≤ c') : Gains src c s lengths c'' s'' lengths' where
  forth := Nat.le_trans hle h.forth
  here := h.here
  advances := hr.toAdvances.trans h.advances
  stray := by rw [h.stray, hr.stray]
  grows := h.grows

theorem readLengths_stores (hat : At src s c) :
    ∃ hlit hdist lengths c' s',
      (∀ n, 320 < n → readLengths src n s = some (hlit, hdist, lengths, s')) ∧
      Stores src c s hlit hdist lengths c' s' := by
  obtain ⟨hlit, hat1, hr1⟩ := hat.getBits (n := 5) (by decide)
  obtain ⟨hdist, hat2, hr2⟩ := hat1.getBits (n := 5) (by decide)
  obtain ⟨hclen, hat3, hr3⟩ := hat2.getBits (n := 4) (by decide)
  unfold readLengths
  generalize getBits src 5 s = x at hlit hat1 hr1 hdist hat2 hr2 hclen hat3 hr3
  obtain ⟨a, s1⟩ := x
  dsimp only at hlit hat1 hr1 hdist hat2 hr2 hclen hat3 hr3 ⊢
  generalize getBits src 5 s1 = x at hdist hat2 hr2 hclen hat3 hr3
  obtain ⟨b, s2⟩ := x
  dsimp only at hdist hat2 hr2 hclen hat3 hr3 ⊢
  generalize getBits src 4 s2 = x at hclen hat3 hr3
  obtain ⟨d, s3⟩ := x
  dsimp only at hclen hat3 hr3 ⊢
  have ha : a < 32 := hlit.symm ▸ lowFirst_lt (bitsOf src) c 5
  have hb : b < 32 := hdist.symm ▸ lowFirst_lt (bitsOf src) (c + 5) 5
  have hd : d < 16 := hclen.symm ▸ lowFirst_lt (bitsOf src) (c + 5 + 5) 4
  -- the code for the code lengths
  have hcl := readClens_widths hat3 (n := d + 4) (by omega)
  obtain ⟨hat4, hr4, hlen4, -⟩ := hat3.readClens (i := 0) (n := d + 4)
    (List.length_replicate : (List.replicate 19 (0 : UInt8)).length = 19) (by omega)
  generalize readClens src (d + 4) 0 (List.replicate 19 0) s3 = x at hcl hat4 hr4 hlen4
  obtain ⟨clens, s4⟩ := x
  dsimp only at hcl hat4 hr4 hlen4 ⊢
  have hlow : ∀ x ∈ clens, x.toNat < 16 := by
    intro x hx
    have hmem : x.toNat ∈ widths clens := List.mem_map_of_mem hx
    rw [hcl] at hmem
    exact codeWidths_lt hmem
  obtain ⟨hin, hh⟩ := buildHuffman_holds hlow (by omega)
  generalize buildHuffman clens = x at hin hh
  obtain ⟨ch, inRange⟩ := x
  dsimp only at hin hh ⊢
  rw [hin, Bool.not_true, Bool.or_false]
  -- the loop over the code lengths
  obtain ⟨c', s', lengths, hloop, hg, hnum, hws⟩ := loopGains hh
    (by rw [widths_length, hlen4]) hat4
    (by omega : a + 257 + (b + 1) ≤ ([] : List UInt8).length + (a + 257 + (b + 1))) nofun
  have htables : tables (bitsOf src) c = tablesFrom (bitsOf src) (a + 257) (b + 1) (widths clens)
      (c + 5 + 5 + 4 + 3 * (d + 4)) := by
    rw [hcl, hlit, hdist, hclen]
    rfl
  refine ⟨a + 257, b + 1, lengths, c', s', fun n hn => ?_, ?_, by omega, by omega, hnum, ?_, ?_⟩
  · rw [hloop n (by omega)]
    rfl
  · exact hg.of_reads (hr1.trans (hr2.trans (hr3.trans hr4))) (by omega)
  · rw [htables]
    intro t ht
    obtain ⟨ws, hread, hroom, hlit, hdist⟩ := tablesFrom_some ht
    have hknown := hws.1 t.place ws hread
    rw [hknown.2, widths_length] at hroom
    have hnil : ∀ w ∈ ([] : List Nat), w < 16 := nofun
    refine ⟨hroom, hknown.1, ?_, ?_, hknown.2 ▸ readWidths_lt hnil hread⟩
    · rw [hlit, hknown.2]
      exact List.map_take.symm
    · rw [hdist, hknown.2, widths, ← List.map_drop, ← List.map_take]
      rfl
  · rw [htables]
    intro ht
    rcases tablesFrom_none ht with hread | ⟨place, ws, hread, hroom⟩
    · have hmem := hws.2 hread
      rw [List.take_add] at hmem
      exact .inr hmem
    · rw [(hws.1 place ws hread).2, widths_length] at hroom
      exact .inl hroom

end LosTacOS.Gzip
