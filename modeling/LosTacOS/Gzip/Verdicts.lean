import LosTacOS.Gzip.Refine

/-! Reading always comes to a verdict, and what a strict reader completes a lenient one completes
too. -/
namespace LosTacOS.Gzip.Deflate

open BitStream Canonical

section configs

def Config.place : Config → Nat
  | .head c _ => c
  | .codes _ _ _ c _ => c

def Config.out : Config → List UInt8
  | .head _ out => out
  | .codes _ _ _ _ out => out

def Config.within : Config → Nat
  | .head _ _ => 0
  | .codes _ _ _ _ _ => 1

theorem Config.within_le (cfg : Config) : cfg.within ≤ 1 := by
  cases cfg with
  | head c out => exact Nat.zero_le 1
  | codes last lit dist c out => exact Nat.le_refl 1

def Config.left (src : Input) (cfg : Config) : Nat :=
  (8 * src.inLen - cfg.place) * (2 * src.outLen + 2) + 2 * (src.outLen - cfg.out.length) + cfg.within

end configs

variable {src : Input} {strict last : Bool} {cfg cfg' : Config} {c c' r num : Nat}
  {out : List UInt8} {lit dist cl ws ws' : List Nat} {bits : Nat → Bool}

section places

theorem readWidths_place {place : Nat} (h : readWidths bits cl num r c ws = some (place, ws')) :
    c ≤ place := by
  induction r generalizing c ws with
  | zero =>
    cases h
    exact Nat.le_refl _
  | succ r ih =>
    rw [readWidths] at h
    by_cases hlt : ws.length < num
    · rw [if_pos hlt] at h
      cases hd : decode cl bits 15 c with
      | none =>
        rw [hd] at h
        cases h
      | some y =>
        rw [hd] at h
        obtain ⟨copy, val, -, hle⟩ := extend_gains bits y.1 (c + y.2) ws
        have hrest : readWidths bits cl num r (extend bits y.1 (c + y.2) ws).1
            (extend bits y.1 (c + y.2) ws).2 = some (place, ws') := h
        exact Nat.le_trans (Nat.le_trans (Nat.le_add_right c y.2) hle) (ih hrest)
    · rw [if_neg hlt] at h
      cases h
      exact Nat.le_refl _

theorem tables_place {t : Tables} (h : tables bits c = some t) : c ≤ t.place := by
  obtain ⟨ws, hread, -⟩ := tablesFrom_some h
  have := readWidths_place hread
  omega

end places

section rounds

theorem turn_again (h : turn src strict cfg = .again cfg') :
    ∃ c', next src strict cfg = (c', .again cfg') := by
  unfold turn at h
  generalize next src strict cfg = y at h
  obtain ⟨c', x⟩ := y
  dsimp only at h
  cases hb : beyond src c' with
  | true =>
    rw [hb, if_pos rfl] at h
    cases h
  | false =>
    rw [hb, if_neg Bool.false_ne_true] at h
    exact ⟨c', by rw [h]⟩

theorem finish_again (h : finish src strict last c out = .again cfg') : cfg' = .head c out := by
  unfold finish at h
  split at h
  · cases h
    rfl
  · split at h <;> cases h

theorem stored_again (h : stored src strict last c out = (c', .again cfg')) :
    c < 8 * src.inLen ∧ c < cfg'.place ∧ out.length ≤ cfg'.out.length ∧
      (out.length ≤ src.outLen → cfg'.out.length ≤ src.outLen) ∧
      cfg' = .head cfg'.place cfg'.out := by
  unfold stored at h
  dsimp only at h
  split_ifs at h with hshort hlong hconfirm hfull
  all_goals obtain ⟨-, h⟩ := Prod.mk.inj h
  all_goals try cases h
  all_goals
    obtain rfl := finish_again h
    have hlen : ∀ n, (out ++ (List.range n).map fun i => src.input ((c + 7) / 8 + 4 + i)).length =
        out.length + n := by
      intro n
      rw [List.length_append, List.length_map, List.length_range]
    unfold Config.place Config.out
    dsimp only
    rw [hlen]
    refine ⟨?_, ?_, ?_, fun _ => ?_, rfl⟩ <;> omega

theorem distance_again {len : Nat} (hlen : 0 < len)
    (h : distance src last lit dist len c out = (c', .again cfg')) :
    ∃ place out', c ≤ place ∧ out.length < out'.length ∧ out'.length ≤ src.outLen ∧
      cfg' = .codes last lit dist place out' := by
  unfold distance at h
  cases hd : decode dist (bitsOf src) 15 c with
  | none =>
    rw [hd] at h
    cases (Prod.mk.inj h).2
  | some y =>
    rw [hd] at h
    dsimp only at h
    split_ifs at h with hbad hfar hfits
    all_goals obtain ⟨-, h⟩ := Prod.mk.inj h
    all_goals cases h
    exact ⟨_, _, by omega, by rw [copied_length]; omega, by rwa [copied_length], rfl⟩

/-- A round in a block that does not end it has written something. -/
theorem symbol_again (h : symbol src strict last lit dist c out = (c', .again cfg')) :
    ∃ place, c < place ∧ (cfg' = .head place out ∨
      ∃ out', out.length < out'.length ∧ out'.length ≤ src.outLen ∧
        cfg' = .codes last lit dist place out') := by
  cases hd : decode lit (bitsOf src) 15 c with
  | none =>
    rw [symbol_none hd] at h
    cases (Prod.mk.inj h).2
  | some y =>
    obtain ⟨sym, w⟩ := y
    have hw := (decode_some hd).1
    by_cases hbad : 285 < sym
    · rw [symbol_bad hd hbad] at h
      cases (Prod.mk.inj h).2
    by_cases hlit : sym < 256
    · rw [symbol_literal hd hlit] at h
      obtain ⟨-, h⟩ := Prod.mk.inj h
      by_cases hroom : out.length < src.outLen
      · rw [if_pos hroom] at h
        cases h
        refine ⟨c + w, by omega, .inr ⟨_, ?_, ?_, rfl⟩⟩
        · rw [List.length_append, List.length_singleton]
          omega
        · rw [List.length_append, List.length_singleton]
          omega
      · rw [if_neg hroom] at h
        cases h
    by_cases hend : sym = 256
    · subst hend
      rw [symbol_last hd] at h
      exact ⟨c + w, by omega, .inl (finish_again (Prod.mk.inj h).2)⟩
    · obtain ⟨i, rfl⟩ : ∃ i, sym = 257 + i := ⟨sym - 257, by omega⟩
      have hi : i < 29 := by omega
      rw [symbol_length hd hi] at h
      have hpos := (length_tables i hi).2
      obtain ⟨place, out', hle, hmore, hfits, he⟩ := distance_again (by omega) h
      exact ⟨place, by omega, .inr ⟨out', hmore, hfits, he⟩⟩

/-- A round in front of a block needs input: behind its end a block is a stored one. -/
theorem head_again (h : next src strict (.head c out) = (c', .again cfg')) :
    c < 8 * src.inLen ∧ c < cfg'.place ∧ out.length ≤ cfg'.out.length ∧
      (out.length ≤ src.outLen → cfg'.out.length ≤ src.outLen) := by
  have hin : lowFirst (bitsOf src) (c + 1) 2 ≠ 0 → c < 8 * src.inLen := by
    intro hne
    by_contra hbehind
    exact hne (lowFirst_zero fun j _ => ofBytes_behind (by omega))
  unfold next at h
  dsimp only at h
  by_cases h0 : lowFirst (bitsOf src) (c + 1) 2 = 0
  · rw [if_pos h0] at h
    obtain ⟨hlt, hplace, hout, hroom, -⟩ := stored_again h
    exact ⟨by omega, by omega, hout, hroom⟩
  rw [if_neg h0] at h
  by_cases h1 : lowFirst (bitsOf src) (c + 1) 2 = 1
  · rw [if_pos h1] at h
    obtain ⟨-, h⟩ := Prod.mk.inj h
    cases h
    exact ⟨hin h0, Nat.lt_add_of_pos_right (by decide), Nat.le_refl _, fun hroom => hroom⟩
  rw [if_neg h1] at h
  by_cases h2 : lowFirst (bitsOf src) (c + 1) 2 = 2
  · rw [if_pos h2] at h
    cases ht : tables (bitsOf src) (c + 3) with
    | none =>
      rw [ht] at h
      cases (Prod.mk.inj h).2
    | some tb =>
      rw [ht] at h
      obtain ⟨-, h⟩ := Prod.mk.inj h
      have hplace := tables_place ht
      split_ifs at h
      cases h
      exact ⟨hin h0, Nat.lt_of_lt_of_le (by omega) hplace, Nat.le_refl _, fun hroom => hroom⟩
  · rw [if_neg h2] at h
    cases (Prod.mk.inj h).2

theorem left_lt (h : turn src strict cfg = .again cfg') (hroom : cfg.out.length ≤ src.outLen) :
    cfg'.out.length ≤ src.outLen ∧ cfg'.left src < cfg.left src := by
  obtain ⟨c', hnext⟩ := turn_again h
  have hwithin := cfg'.within_le
  unfold Config.left
  cases cfg with
  | head c out =>
    obtain ⟨hin, hplace, hout, hfits⟩ := head_again hnext
    refine ⟨hfits hroom, ?_⟩
    -- there is less input, which counts for more than all the room
    have hless := Nat.mul_le_mul_right (2 * src.outLen + 2)
      (by omega : 8 * src.inLen - cfg'.place + 1 ≤ 8 * src.inLen - c)
    rw [Nat.add_mul, Nat.one_mul] at hless
    change _ < (8 * src.inLen - c) * (2 * src.outLen + 2) + 2 * (src.outLen - out.length) + 0
    omega
  | codes last lit dist c out =>
    obtain ⟨place, hplace, hcases⟩ := symbol_again hnext
    have hless := Nat.mul_le_mul_right (2 * src.outLen + 2)
      (by omega : 8 * src.inLen - place ≤ 8 * src.inLen - c)
    change _ ∧ _ < (8 * src.inLen - c) * (2 * src.outLen + 2) + 2 * (src.outLen - out.length) + 1
    rcases hcases with rfl | ⟨out', hmore, hfits, rfl⟩
    · refine ⟨hroom, ?_⟩
      change (8 * src.inLen - place) * (2 * src.outLen + 2) + 2 * (src.outLen - out.length) + 0 < _
      omega
    · refine ⟨hfits, ?_⟩
      change (8 * src.inLen - place) * (2 * src.outLen + 2) + 2 * (src.outLen - out'.length) + 1 < _
      omega

theorem turn_ends (src : Input) (strict : Bool) (cfg : Config)
    (hroom : cfg.out.length ≤ src.outLen) :
    Turn.Ends (turn src strict) cfg :=
  Turn.ends_of_isSome (Turn.loopFor_isSome (fun cfg => cfg.out.length ≤ src.outLen)
    (fun cfg => cfg.left src) (fun _ _ hroom h => left_lt h hroom) hroom (Nat.lt_succ_self _))

end rounds

section outside

theorem finish_ne_outside (last : Bool) (c : Nat) (out : List UInt8) :
    finish src strict last c out ≠ .done .outside := by
  unfold finish
  split_ifs <;> nofun

theorem stored_ne_outside : (stored src strict last c out).2 ≠ .done .outside := by
  unfold stored
  dsimp only
  split_ifs
  all_goals first
    | exact finish_ne_outside _ _ _
    | (intro h; cases h)

theorem distance_ne_outside {len : Nat} :
    (distance src last lit dist len c out).2 ≠ .done .outside := by
  cases hd : decode dist (bitsOf src) 15 c with
  | none =>
    rw [distance_none hd]
    nofun
  | some y =>
    obtain ⟨sym, w⟩ := y
    by_cases hbad : 29 < sym
    · rw [distance_bad hd hbad]
      nofun
    · rw [distance_some hd (by omega) rfl]
      dsimp only
      split_ifs <;> nofun

theorem symbol_ne_outside : (symbol src strict last lit dist c out).2 ≠ .done .outside := by
  cases hd : decode lit (bitsOf src) 15 c with
  | none =>
    rw [symbol_none hd]
    nofun
  | some y =>
    obtain ⟨sym, w⟩ := y
    by_cases hbad : 285 < sym
    · rw [symbol_bad hd hbad]
      nofun
    by_cases hlit : sym < 256
    · rw [symbol_literal hd hlit]
      dsimp only
      split_ifs <;> nofun
    by_cases hend : sym = 256
    · subst hend
      rw [symbol_last hd]
      exact finish_ne_outside _ _ _
    · obtain ⟨i, rfl⟩ : ∃ i, sym = 257 + i := ⟨sym - 257, by omega⟩
      rw [symbol_length hd (by omega)]
      exact distance_ne_outside

/-- Where all bytes were passed none of them is missing. -/
theorem turn_ne_outside (hb : ∀ c, beyond src c = false) : turn src strict cfg ≠ .done .outside := by
  have hnext : (next src strict cfg).2 ≠ .done .outside := by
    cases cfg with
    | codes last lit dist c out => exact symbol_ne_outside
    | head c out =>
      unfold next
      dsimp only
      split_ifs
      · exact stored_ne_outside
      · nofun
      · split
        · nofun
        · dsimp only
          split_ifs <;> nofun
      · nofun
  unfold turn
  generalize next src strict cfg = y at hnext
  obtain ⟨c', x⟩ := y
  dsimp only at hnext ⊢
  rwa [hb c', if_neg Bool.false_ne_true]

end outside

section strict

def Passed : Turn Config Verdict → Prop
  | .again _ => True
  | .done (.complete _ _) => True
  | _ => False

theorem finish_strict (h : Passed (finish src true last c out)) :
    finish src false last c out = finish src true last c out := by
  unfold finish at h ⊢
  by_cases hlast : last = false
  · rw [if_pos hlast, if_pos hlast]
  rw [if_neg hlast] at h ⊢
  rw [if_neg hlast]
  by_cases hmissing : (true && decide (8 * src.inLen < c)) = true
  · rw [if_pos hmissing] at h
    exact absurd h id
  · rw [if_neg hmissing, Bool.false_and, if_neg Bool.false_ne_true]

theorem stored_strict (h : Passed (stored src true last c out).2) :
    stored src false last c out = stored src true last c out := by
  unfold stored at h ⊢
  dsimp only at h ⊢
  split_ifs at h ⊢ with hshort hlong
  all_goals first
    | rfl
    | exact absurd h id
    | rw [finish_strict h]
    | simp_all

theorem symbol_strict (h : Passed (symbol src true last lit dist c out).2) :
    symbol src false last lit dist c out = symbol src true last lit dist c out := by
  cases hd : decode lit (bitsOf src) 15 c with
  | none => rw [symbol_none hd, symbol_none hd]
  | some y =>
    obtain ⟨sym, w⟩ := y
    by_cases hbad : 285 < sym
    · rw [symbol_bad hd hbad, symbol_bad hd hbad]
    by_cases hlit : sym < 256
    · rw [symbol_literal hd hlit, symbol_literal hd hlit]
    by_cases hend : sym = 256
    · subst hend
      rw [symbol_last hd] at h ⊢
      rw [symbol_last hd, finish_strict h]
    · obtain ⟨i, rfl⟩ : ∃ i, sym = 257 + i := ⟨sym - 257, by omega⟩
      rw [symbol_length hd (by omega), symbol_length hd (by omega)]

theorem next_strict (h : Passed (next src true cfg).2) : next src false cfg = next src true cfg := by
  cases cfg with
  | codes last lit dist c out => exact symbol_strict h
  | head c out =>
    unfold next at h ⊢
    dsimp only at h ⊢
    by_cases h0 : lowFirst (bitsOf src) (c + 1) 2 = 0
    · simp only [if_pos h0] at h ⊢
      exact stored_strict h
    simp only [if_neg h0] at h ⊢
    by_cases h1 : lowFirst (bitsOf src) (c + 1) 2 = 1
    · simp only [if_pos h1]
    simp only [if_neg h1] at h ⊢
    by_cases h2 : lowFirst (bitsOf src) (c + 1) 2 = 2
    · simp only [if_pos h2] at h ⊢
      cases ht : tables (bitsOf src) (c + 3) with
      | none => rfl
      | some tb =>
        rw [ht] at h
        dsimp only at h ⊢
        cases hsound : tb.sound with
        | true => rfl
        | false =>
          rw [hsound] at h
          exact absurd h id
    · simp only [if_neg h2]

theorem turn_strict (h : Passed (turn src true cfg)) : turn src false cfg = turn src true cfg := by
  have hnext : Passed (next src true cfg).2 := by
    unfold turn at h
    generalize next src true cfg = y at h
    obtain ⟨c', x⟩ := y
    dsimp only at h ⊢
    cases hb : beyond src c' with
    | true =>
      rw [hb, if_pos rfl] at h
      exact absurd h id
    | false => rwa [hb, if_neg Bool.false_ne_true] at h
  unfold turn
  rw [next_strict hnext]

/-- What a strict reader completes a lenient one completes. -/
theorem complete_strict (h : Turn.Returns (turn src true) cfg (.complete c out)) :
    Turn.Returns (turn src false) cfg (.complete c out) := by
  refine h.rec_on (P := fun cfg => Turn.Returns (turn src false) cfg (.complete c out)) ?_ ?_
  · intro cfg hdone
    have hpass : Passed (turn src true cfg) := by
      rw [hdone]
      trivial
    exact Turn.returns_done ((turn_strict hpass).trans hdone)
  · intro cfg cfg' hagain _ ih
    have hpass : Passed (turn src true cfg) := by
      rw [hagain]
      trivial
    exact (Turn.returns_again ((turn_strict hpass).trans hagain)).mpr ih

end strict

end LosTacOS.Gzip.Deflate
