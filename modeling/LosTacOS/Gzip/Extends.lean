import LosTacOS.Gzip.Rounds

/-! What holds of every step of the decompressor, whatever its state: it reads on, what is written
stays, and the record of an access out of range stays. -/
namespace LosTacOS.Gzip

open BitStream Canonical

variable {src : Input} {s s' s'' : State} {h lh dh : Huffman} {n : Nat} {lengths : List UInt8}

structure Extends (src : Input) (s s' : State) : Prop where
  grows : s.out.length ≤ s'.out.length
  room : s.out.length ≤ src.outLen → s'.out.length ≤ src.outLen
  stray : s.stray = true → s'.stray = true
  overrun : s.overread = true → s'.overread = true

theorem Extends.refl (src : Input) (s : State) : Extends src s s :=
  ⟨Nat.le_refl _, fun h => h, fun h => h, fun h => h⟩

theorem Extends.trans (h : Extends src s s') (h' : Extends src s' s'') : Extends src s s'' where
  grows := Nat.le_trans h.grows h'.grows
  room hs := h'.room (h.room hs)
  stray hs := h'.stray (h.stray hs)
  overrun ho := h'.overrun (h.overrun ho)

structure Goes (src : Input) (s s' : State) : Prop extends Extends src s s' where
  place : ∀ c, At src s c → ∃ c', c ≤ c' ∧ At src s' c'

theorem Goes.refl (src : Input) (s : State) : Goes src s s :=
  ⟨.refl src s, fun c hat => ⟨c, Nat.le_refl c, hat⟩⟩

theorem Goes.trans (h : Goes src s s') (h' : Goes src s' s'') : Goes src s s'' := by
  refine ⟨h.toExtends.trans h'.toExtends, fun c hat => ?_⟩
  obtain ⟨c', hle, hat'⟩ := h.place c hat
  obtain ⟨c'', hle', hat''⟩ := h'.place c' hat'
  exact ⟨c'', Nat.le_trans hle hle', hat''⟩

section bits

theorem fetch_extends (src : Input) (s : State) : Extends src s (fetch src s) := by
  unfold fetch
  by_cases hin : s.inPos < src.inLen
  · rw [if_pos hin]
    refine ⟨Nat.le_refl _, fun hs => hs, fun hs => hs, fun ho => ?_⟩
    change (s.overread || _) = true
    rw [ho, Bool.true_or]
  · rw [if_neg hin]
    exact ⟨Nat.le_refl _, fun hs => hs, fun hs => hs, fun ho => ho⟩

theorem fill_extends (src : Input) (n r : Nat) (s : State) : Extends src s (fill src n r s) := by
  induction r generalizing s with
  | zero => exact .refl src s
  | succ r ih =>
    unfold fill
    by_cases hmore : s.bitcnt < n
    · rw [if_pos hmore]
      exact (fetch_extends src s).trans (ih _)
    · rw [if_neg hmore]
      exact .refl src s

theorem getBits_goes (s : State) (hn : n ≤ 16) : Goes src s (getBits src n s).2 := by
  refine ⟨?_, fun c hat => ?_⟩
  · have h := fill_extends src n 2 s
    exact ⟨h.grows, h.room, h.stray, h.overrun⟩
  · obtain ⟨-, hat', -⟩ := hat.getBits hn
    exact ⟨_, Nat.le_add_right c n, hat'⟩

theorem stray_goes (src : Input) (s : State) (b : Bool) :
    Goes src s { s with stray := s.stray || b } where
  grows := Nat.le_refl _
  room hs := hs
  stray hs := by
    dsimp only
    rw [hs, Bool.true_or]
  overrun ho := ho
  place c hat :=
    ⟨c, Nat.le_refl c, hat.1, hat.2.imp fun _ hb => ⟨hb.place, hb.dry, hb.inside, hb.buffer⟩⟩

theorem write_goes {out : List UInt8} (hle : s.out.length ≤ out.length)
    (hroom : s.out.length ≤ src.outLen → out.length ≤ src.outLen) :
    Goes src s { s with out := out } where
  grows := hle
  room := hroom
  stray hs := hs
  overrun ho := ho
  place c hat :=
    ⟨c, Nat.le_refl c, hat.1, hat.2.imp fun _ hb => ⟨hb.place, hb.dry, hb.inside, hb.buffer⟩⟩

end bits

section block

theorem decodeFrom_goes (h : Huffman) (rest len : Nat) (code first index : Int) (s : State) :
    Goes src s (decodeFrom src h rest len code first index s).2 := by
  induction rest generalizing len code first index s with
  | zero => exact .refl src s
  | succ rest ih =>
    have hread : Goes src s (getBits src 1 s).2 := getBits_goes s (by decide)
    rw [decodeFrom]
    generalize getBits src 1 s = x at hread
    obtain ⟨bit, s1⟩ := x
    dsimp only at hread ⊢
    split
    · exact hread.trans (stray_goes src s1 _)
    · exact hread.trans (ih ..)

theorem decodeSymbol_goes (src : Input) (h : Huffman) (s : State) :
    Goes src s (decodeSymbol src h s).2 :=
  decodeFrom_goes h 15 1 0 0 0 s

theorem decodes_goes {sym : Int} (hd : decodeSymbol src h s = (sym, s')) : Goes src s s' := by
  have := decodeSymbol_goes src h s
  rwa [hd] at this

theorem LengthRead.goes {len : Nat} (hl : LengthRead src lh s len s') : Goes src s s' := by
  obtain ⟨i, s1, hi, hdec, rfl, rfl⟩ := hl
  exact (decodes_goes hdec).trans (getBits_goes s1 (length_tables i hi).1)

theorem LengthRead.pos {len : Nat} (hl : LengthRead src lh s len s') : 0 < len := by
  obtain ⟨i, s1, hi, hdec, rfl, rfl⟩ := hl
  exact Nat.lt_of_lt_of_le (length_tables i hi).2 (Nat.le_add_right ..)

theorem DistanceRead.goes {dist : Nat} (hd : DistanceRead src dh s dist s') : Goes src s s' := by
  obtain ⟨j, s1, hj, hdec, rfl, rfl⟩ := hd
  exact (decodes_goes hdec).trans (getBits_goes s1 (distance_tables j hj))

theorem copyMatch_goes (dist len : Nat) (s : State) : Goes src s (copyMatch src dist len s).2 := by
  induction len generalizing s with
  | zero => exact .refl src s
  | succ len ih =>
    rw [copyMatch]
    by_cases hfull : s.out.length ≥ src.outLen
    · rw [if_pos hfull]
      exact .refl src s
    · rw [if_neg hfull]
      dsimp only
      rw [touch_inside (Int.natCast_nonneg _) (by omega), put_inside (by omega)]
      refine (write_goes ?_ fun _ => ?_).trans (ih _)
      · exact List.length_append ▸ Nat.le_add_right _ _
      · rw [List.length_append, List.length_singleton]
        omega

theorem match_goes {len dist : Nat} {s1 s2 s3 : State} {ok : Bool}
    (hl : LengthRead src lh s len s1) (hd : DistanceRead src dh s1 dist s2)
    (hc : copyMatch src dist len s2 = (ok, s3)) : Goes src s s3 := by
  have hcopy : Goes src s2 (copyMatch src dist len s2).2 := copyMatch_goes dist len s2
  rw [hc] at hcopy
  exact hl.goes.trans (hd.goes.trans hcopy)

theorem Inflates.again_goes (hi : Inflates src lh dh s (.again s')) : Goes src s s' := by
  cases hi with
  | literal hd hb hf =>
    refine (decodes_goes hd).trans (write_goes ?_ fun _ => ?_)
    · exact List.length_append ▸ Nat.le_add_right _ _
    · rw [List.length_append]
      exact hf
  | copied hl hd hnear hc => exact match_goes hl hd hc

theorem Inflates.done_goes {ok : Bool} (hi : Inflates src lh dh s (.done (ok, s'))) :
    Goes src s s' := by
  cases hi with
  | bad hd hs => exact decodes_goes hd
  | full hd hb hf => exact decodes_goes hd
  | last hd => exact decodes_goes hd
  | unknown hl hd hs => exact hl.goes.trans (decodes_goes hd)
  | far hl hd hfar => exact hl.goes.trans hd.goes
  | cut hl hd hnear hc => exact match_goes hl hd hc

/-- The loop of `inflate_block`. -/
theorem inflate_goes {ok : Bool} (hr : Turn.Returns (inflateTurn src lh dh) s (ok, s')) :
    Goes src s s' := by
  obtain ⟨t, ht, hdone⟩ := hr.last (I := Goes src s) (.refl src s) fun t u ht hu => by
    have hinf := inflateTurn_inflates src lh dh t
    rw [hu] at hinf
    exact ht.trans hinf.again_goes
  have hinf := inflateTurn_inflates src lh dh t
  rw [hdone] at hinf
  exact ht.trans hinf.done_goes

end block

section stored

theorem overrun_extends {overrun : Bool} {p b k : Nat} (ho : s.overread = true → overrun = true) :
    Extends src s { s with overread := overrun, inPos := p, bitbuf := b, bitcnt := k } :=
  ⟨Nat.le_refl _, fun hs => hs, fun hs => hs, ho⟩

theorem taken_extends (hn : n ≤ src.outLen - s.out.length) : Extends src s (taken src s n) := by
  have hlen : (taken src s n).out.length = s.out.length + n := by
    unfold taken
    rw [List.length_append, List.length_map, List.length_range]
  refine ⟨by omega, by omega, fun hs => hs, fun ho => ?_⟩
  unfold taken
  dsimp only
  rw [ho, Bool.true_or]

theorem copyStored_extends (len : Nat) (s : State) : Extends src s (copyStored src len s) := by
  rw [copyStored_eq]
  exact taken_extends (Nat.min_le_right _ _)

theorem storedBlock_extends (src : Input) (s : State) : Extends src s (storedBlock src s).2 := by
  unfold storedBlock
  dsimp only
  by_cases hshort : (s.inPos + 4) % word > src.inLen
  · rw [if_pos hshort]
    exact overrun_extends fun ho => ho
  rw [if_neg hshort]
  have hover : s.overread = true → ((s.overread || decide (src.given ≤ s.inPos)) ||
      decide (src.given ≤ s.inPos + 1)) = true := by
    intro ho
    rw [ho, Bool.true_or, Bool.true_or]
  split
  · exact overrun_extends hover
  · exact (overrun_extends (p := (s.inPos + 4) % word) (b := 0) (k := 0) hover).trans
      (copyStored_extends ..)

end stored

section lengths

theorem readClens_extends (n i : Nat) (clens : List UInt8) (s : State) :
    Extends src s (readClens src n i clens s).2 := by
  induction n generalizing i clens s with
  | zero => exact .refl src s
  | succ n ih =>
    have hbits : Goes src s (getBits src 3 s).2 := getBits_goes s (by decide)
    have hread := hbits.toExtends
    rw [readClens]
    generalize getBits src 3 s = x at hread
    obtain ⟨l, s1⟩ := x
    dsimp only at hread ⊢
    exact hread.trans ((stray_goes ..).toExtends.trans ((stray_goes ..).toExtends.trans (ih ..)))

/-- A round of the loop that reads code lengths, whatever the table. -/
theorem lengthsTurn_extends {ch : Huffman} {num : Nat} {lengths' : List UInt8}
    (ht : lengthsTurn src ch num (s, lengths) = .again (s', lengths')) : Extends src s s' := by
  unfold lengthsTurn at ht
  dsimp only at ht
  have hdec := decodeSymbol_goes src ch s
  generalize decodeSymbol src ch s = x at ht hdec
  obtain ⟨sym, s1⟩ := x
  dsimp only at ht hdec
  have hpush : ∀ {t u : State} {copy : Nat} {val : UInt8} {ls : List UInt8}, Extends src s t →
      (.again (pushLengths t lengths copy val) : Turn (State × List UInt8) (State × List UInt8)) =
        .again (u, ls) → Extends src s u := by
    intro t u copy val ls hext he
    cases he
    exact hext.trans (stray_goes ..).toExtends
  have hbits : ∀ {k : Nat}, k ≤ 16 → Extends src s (getBits src k s1).2 :=
    fun hk => (hdec.trans (getBits_goes s1 hk)).toExtends
  by_cases hnum : lengths.length < num
  · rw [if_pos hnum] at ht
    by_cases hlow : sym < 16
    · rw [if_pos hlow] at ht
      exact hpush hdec.toExtends ht
    rw [if_neg hlow] at ht
    by_cases h16 : sym = 16
    · rw [if_pos h16] at ht
      exact hpush (hbits (by decide)) ht
    rw [if_neg h16] at ht
    by_cases h17 : sym = 17
    · rw [if_pos h17] at ht
      exact hpush (hbits (by decide)) ht
    rw [if_neg h17] at ht
    by_cases h18 : sym = 18
    · rw [if_pos h18] at ht
      exact hpush (hbits (by decide)) ht
    · rw [if_neg h18] at ht
      cases ht
      exact hdec.toExtends
  · rw [if_neg hnum] at ht
    cases ht

theorem lengthsLoop_extends {ch : Huffman} {num : Nat} {lengths' : List UInt8}
    (hr : Turn.Returns (lengthsTurn src ch num) (s, lengths) (s', lengths')) : Extends src s s' := by
  have hstep : ∀ x y : State × List UInt8, Extends src s x.1 →
      lengthsTurn src ch num x = .again y → Extends src s y.1 := by
    rintro ⟨t, ls⟩ ⟨u, ls'⟩ ht hu
    exact ht.trans (lengthsTurn_extends hu)
  obtain ⟨⟨t, ls⟩, ht, hdone⟩ := hr.last (I := fun x => Extends src s x.1) (.refl src s) hstep
  unfold lengthsTurn at hdone
  dsimp only at hdone
  by_cases hnum : ls.length < num
  · rw [if_pos hnum] at hdone
    generalize decodeSymbol src ch t = y at hdone
    obtain ⟨sym, u⟩ := y
    dsimp only at hdone
    split_ifs at hdone
  · rw [if_neg hnum] at hdone
    cases hdone
    exact ht

theorem readLengths_extends {hlit hdist : Nat}
    (hr : readLengths src n s = some (hlit, hdist, lengths, s')) : Extends src s s' := by
  unfold readLengths at hr
  dsimp only at hr
  obtain ⟨⟨t, ls⟩, hloop, hx⟩ := Option.bind_eq_some_iff.mp hr
  cases hx
  have h5 : 5 ≤ 16 := by decide
  have h4 : 4 ≤ 16 := by decide
  exact (getBits_goes s h5).toExtends.trans ((getBits_goes _ h5).toExtends.trans
    ((getBits_goes _ h4).toExtends.trans ((readClens_extends ..).trans
      ((stray_goes ..).toExtends.trans (lengthsLoop_extends ⟨n, hloop⟩)))))

end lengths

section blocks

variable {wild : Wild} {ok : Bool}

theorem inflateBlock_extends {fits : Bool} {lit dist : List UInt8}
    (hr : inflateBlock src wild n fits lit dist s = some (ok, s')) : Goes src s s' :=
  (stray_goes src s _).trans (inflate_goes ⟨n, hr⟩)

theorem blockBody_extends {btype : Nat} (hr : blockBody src wild n btype s = some (ok, s')) :
    Extends src s s' := by
  unfold blockBody at hr
  by_cases h0 : btype = 0
  · rw [if_pos h0] at hr
    have := storedBlock_extends src s
    rwa [Option.some.inj hr] at this
  rw [if_neg h0] at hr
  by_cases h1 : btype = 1
  · rw [if_pos h1] at hr
    exact (inflateBlock_extends hr).toExtends
  rw [if_neg h1] at hr
  by_cases h2 : btype = 2
  · rw [if_pos h2] at hr
    obtain ⟨⟨hlit, hdist, lengths, t⟩, hread, hinf⟩ := Option.bind_eq_some_iff.mp hr
    exact (readLengths_extends hread).trans (inflateBlock_extends hinf).toExtends
  · rw [if_neg h2] at hr
    cases hr
    exact .refl src s

theorem blocks_extends {r : Nat} (hr : blocks src wild n r s = some s') : Extends src s s' := by
  induction r generalizing s with
  | zero => cases hr
  | succ r ih =>
    rw [blocks] at hr
    dsimp only at hr
    obtain ⟨⟨more, t⟩, hbody, hrest⟩ := Option.bind_eq_some_iff.mp hr
    have hblock := ((getBits_goes s (by decide)).trans (getBits_goes _ (by decide))).toExtends.trans
      (blockBody_extends hbody)
    dsimp only at hrest
    split at hrest
    · exact hblock.trans (ih hrest)
    · rwa [Option.some.inj hrest] at hblock

end blocks

end LosTacOS.Gzip
