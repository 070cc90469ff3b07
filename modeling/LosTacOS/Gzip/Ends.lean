import LosTacOS.Gzip.Extends

/-! Every loop of the decompressor ends. A block writes or fails with each symbol, the code lengths
get more with each, and behind the end of the input the next block is a stored one that fails. -/
namespace LosTacOS.Gzip

open BitStream Canonical

variable {src : Input} {s s' : State} {lh dh : Huffman} {c m n btype : Nat} {wild : Wild}
  {fits : Bool} {lit dist : List UInt8}

section block

theorem Inflates.grows (h : Inflates src lh dh s (.again s')) (hout : s.out.length ≤ src.outLen) :
    s.out.length < s'.out.length := by
  cases h with
  | literal hd hb hf =>
    have := (decodes_goes hd).grows
    rw [List.length_append, List.length_singleton]
    omega
  | copied hl hd hnear hc =>
    have hread := hl.goes.trans hd.goes
    have hgrows := hread.grows
    have hpos := hl.pos
    rw [copyMatch_eq _ (hread.room hout)] at hc
    obtain ⟨hfits, rfl⟩ := Prod.mk.inj hc
    have hfits := of_decide_eq_true hfits
    dsimp only
    rw [copied_length]
    omega

/-- The loop of `inflate_block` ends, since the output gets full. -/
theorem inflate_ends (lh dh : Huffman) (hout : s.out.length ≤ src.outLen) :
    ∃ ok s', Turn.Returns (inflateTurn src lh dh) s (ok, s') := by
  have hstep : ∀ t u, t.out.length ≤ src.outLen → inflateTurn src lh dh t = .again u →
      u.out.length ≤ src.outLen ∧ src.outLen - u.out.length < src.outLen - t.out.length := by
    intro t u ht hu
    have hinf := inflateTurn_inflates src lh dh t
    rw [hu] at hinf
    have hgrow := hinf.grows ht
    have hroom := hinf.again_goes.room ht
    omega
  obtain ⟨⟨ok, s'⟩, hr⟩ := Turn.ends_of_isSome (Turn.loopFor_isSome _
    (fun t : State => src.outLen - t.out.length) hstep hout (Nat.lt_succ_self _))
  exact ⟨ok, s', hr⟩

end block

section runs

theorem readLengths_le {x : Nat × Nat × List UInt8 × State} (h : readLengths src n s = some x)
    (hle : n ≤ m) : readLengths src m s = some x := by
  unfold readLengths at h ⊢
  dsimp only at h ⊢
  obtain ⟨y, hy, hx⟩ := Option.bind_eq_some_iff.mp h
  rw [Turn.loopFor_le hy hle]
  exact hx

theorem inflateBlock_le {x : Bool × State} (h : inflateBlock src wild n fits lit dist s = some x)
    (hle : n ≤ m) : inflateBlock src wild m fits lit dist s = some x :=
  Turn.loopFor_le h hle

theorem blockBody_le {x : Bool × State} (h : blockBody src wild n btype s = some x) (hle : n ≤ m) :
    blockBody src wild m btype s = some x := by
  unfold blockBody at h ⊢
  by_cases h0 : btype = 0
  · rwa [if_pos h0] at h ⊢
  rw [if_neg h0] at h ⊢
  by_cases h1 : btype = 1
  · rw [if_pos h1] at h ⊢
    exact inflateBlock_le h hle
  rw [if_neg h1] at h ⊢
  by_cases h2 : btype = 2
  · rw [if_pos h2] at h ⊢
    obtain ⟨y, hy, hx⟩ := Option.bind_eq_some_iff.mp h
    rw [readLengths_le hy hle]
    exact inflateBlock_le hx hle
  · rwa [if_neg h2] at h ⊢

def Body (src : Input) (wild : Wild) (btype : Nat) (s : State) (x : Bool × State) : Prop :=
  ∃ n, blockBody src wild n btype s = some x

def Run (src : Input) (wild : Wild) (s s' : State) : Prop := ∃ n, blocks src wild n n s = some s'

theorem blocks_le {r r' : Nat} (h : blocks src wild n r s = some s') (hn : n ≤ m) (hr : r ≤ r') :
    blocks src wild m r' s = some s' := by
  induction r generalizing s r' with
  | zero => cases h
  | succ r ih =>
    obtain ⟨r', rfl⟩ : ∃ k, r' = k + 1 := ⟨r' - 1, by omega⟩
    rw [blocks] at h ⊢
    dsimp only at h ⊢
    obtain ⟨⟨more, t⟩, ht, hrest⟩ := Option.bind_eq_some_iff.mp h
    rw [blockBody_le ht hn]
    rw [Option.bind_eq_bind, Option.bind_some]
    dsimp only at hrest ⊢
    by_cases hmore : more = true ∧ (getBits src 1 s).1 = 0
    · rw [if_pos hmore] at hrest ⊢
      exact ih hrest (by omega)
    · rwa [if_neg hmore] at hrest ⊢

/-- A run is a block and the run behind it, if there is one. -/
theorem run_iff : Run src wild s s' ↔
    ∃ more t, Body src wild (getBits src 2 (getBits src 1 s).2).1
        (getBits src 2 (getBits src 1 s).2).2 (more, t) ∧
      if more = true ∧ (getBits src 1 s).1 = 0 then Run src wild t s' else t = s' := by
  constructor
  · rintro ⟨n, h⟩
    cases n with
    | zero => cases h
    | succ n =>
      rw [blocks] at h
      dsimp only at h
      obtain ⟨⟨more, t⟩, ht, hrest⟩ := Option.bind_eq_some_iff.mp h
      refine ⟨more, t, ⟨n + 1, ht⟩, ?_⟩
      dsimp only at hrest
      by_cases hmore : more = true ∧ (getBits src 1 s).1 = 0
      · rw [if_pos hmore] at hrest ⊢
        exact ⟨n + 1, blocks_le hrest (Nat.le_refl _) (Nat.le_succ _)⟩
      · rw [if_neg hmore] at hrest ⊢
        exact Option.some.inj hrest
  · rintro ⟨more, t, ⟨n, hn⟩, hrest⟩
    by_cases hmore : more = true ∧ (getBits src 1 s).1 = 0
    · rw [if_pos hmore] at hrest
      obtain ⟨m, hm⟩ := hrest
      refine ⟨max n m + 1, ?_⟩
      rw [blocks]
      dsimp only
      rw [blockBody_le hn (by omega), Option.bind_eq_bind, Option.bind_some]
      dsimp only
      rw [if_pos hmore]
      exact blocks_le hm (by omega) (by omega)
    · rw [if_neg hmore] at hrest
      refine ⟨n + 1, ?_⟩
      rw [blocks]
      dsimp only
      rw [blockBody_le hn (Nat.le_succ _), Option.bind_eq_bind, Option.bind_some]
      dsimp only
      rw [if_neg hmore, hrest]

/-- After a stored block the reader is at the beginning of a byte. -/
theorem taken_at (h : s.inPos + 4 + n ≤ src.inLen) :
    At src (taken src (measured src s) n) (8 * (s.inPos + 4 + n)) :=
  ⟨Nat.zero_lt_succ 7, 0, rfl, nofun, h, rfl⟩

/-- The run goes on behind a stored block only where there was input left. -/
theorem Copies.place (h : Copies src s (true, s')) (hat : At src s c) :
    (∃ c', c ≤ c' ∧ At src s' c') ∧ c < 8 * src.inLen := by
  cases h with
  | copied h =>
    have hpos := hat.inPos_eq
    exact ⟨⟨_, by omega, taken_at (by omega)⟩, by omega⟩

theorem inflateBlock_ends (wild : Wild) (fits : Bool) (lit dist : List UInt8) (hout : s.out.length ≤ src.outLen) :
    ∃ ok s' n, inflateBlock src wild n fits lit dist s = some (ok, s') := by
  have hstray := stray_goes src s (!(fits && (buildHuffman lit).2 && (buildHuffman dist).2))
  obtain ⟨ok, s', n, hr⟩ := inflate_ends _ _ (hstray.room hout)
  exact ⟨ok, s', n, hr⟩

theorem body_ends (wild : Wild) (btype : Nat) (hsmall : src.inLen + 2 ^ 16 + 4 < word) (hat : At src s c)
    (hout : s.out.length ≤ src.outLen) :
    ∃ more s', Body src wild btype s (more, s') ∧
      (more = true → (∃ c', c ≤ c' ∧ At src s' c') ∧ (btype = 0 → c < 8 * src.inLen)) := by
  unfold Body blockBody
  by_cases h0 : btype = 0
  · simp only [if_pos h0]
    have hpos := hat.inPos_eq
    have hcopies : Copies src s (storedBlock src s) := storedBlock_copies (by omega)
    generalize storedBlock src s = x at hcopies
    obtain ⟨more, s'⟩ := x
    refine ⟨more, s', ⟨0, rfl⟩, ?_⟩
    rintro rfl
    obtain ⟨hplace, hlt⟩ := hcopies.place hat
    exact ⟨hplace, fun _ => hlt⟩
  simp only [if_neg h0]
  by_cases h1 : btype = 1
  · simp only [if_pos h1]
    obtain ⟨ok, s', n, hr⟩ := inflateBlock_ends wild true fixedLengths fixedDistances hout
    exact ⟨ok, s', ⟨n, hr⟩, fun _ => ⟨(inflateBlock_extends hr).place c hat, fun h => absurd h h0⟩⟩
  simp only [if_neg h1]
  by_cases h2 : btype = 2
  · simp only [if_pos h2]
    obtain ⟨hlit, hdist, lengths, c1, s1, hread, hst⟩ := readLengths_stores hat
    have hroom := (readLengths_extends (hread 321 (by decide))).room hout
    obtain ⟨ok, s', n, hr⟩ := inflateBlock_ends wild (lengths.length ≤ 320)
      (lengths.take hlit) ((lengths.drop hlit).take hdist) hroom
    refine ⟨ok, s', ⟨n + 321, ?_⟩, fun _ => ⟨?_, fun h => absurd h h0⟩⟩
    · rw [hread (n + 321) (by omega), Option.bind_eq_bind, Option.bind_some]
      exact inflateBlock_le hr (Nat.le_add_right _ _)
    · obtain ⟨c', hle, hat'⟩ := (inflateBlock_extends hr).place c1 hst.gains.here
      exact ⟨c', Nat.le_trans hst.gains.forth hle, hat'⟩
  · simp only [if_neg h2]
    exact ⟨false, s, ⟨0, rfl⟩, nofun⟩

/-- The loop over the blocks ends: behind the end of the input there are only zeros, and a block of
zeros is a stored one without input. -/
theorem run_ends (wild : Wild) (hsmall : src.inLen + 2 ^ 16 + 4 < word) (hat : At src s c)
    (hout : s.out.length ≤ src.outLen) : ∃ s', Run src wild s s' := by
  induction hk : 8 * src.inLen - c using Nat.strong_induction_on generalizing s c with
  | _ k ih =>
    subst hk
    obtain ⟨-, hat1, hr1⟩ := hat.getBits (n := 1) (by decide)
    obtain ⟨hbtype, hat2, hr2⟩ := hat1.getBits (n := 2) (by decide)
    have hout2 : (getBits src 2 (getBits src 1 s).2).2.out.length ≤ src.outLen := by
      rwa [hr2.out, hr1.out]
    obtain ⟨more, t, hbody, hgo⟩ := body_ends wild
      (getBits src 2 (getBits src 1 s).2).1 hsmall hat2 hout2
    by_cases hmore : more = true ∧ (getBits src 1 s).1 = 0
    · obtain ⟨⟨c', hle, hat'⟩, hin⟩ := hgo hmore.1
      have hlt : c < 8 * src.inLen := by
        by_contra hbehind
        have hzero : lowFirst (bitsOf src) (c + 1) 2 = 0 :=
          lowFirst_zero fun j _ => ofBytes_behind (by omega)
        have := hin (hbtype.trans hzero)
        omega
      obtain ⟨n, hn⟩ := id hbody
      obtain ⟨s', hrun⟩ := ih _ (by omega) hat' ((blockBody_extends hn).room hout2) rfl
      refine ⟨s', run_iff.mpr ⟨more, t, hbody, ?_⟩⟩
      rwa [if_pos hmore]
    · refine ⟨t, run_iff.mpr ⟨more, t, hbody, ?_⟩⟩
      rw [if_neg hmore]

end runs

section decompress

/-- What is decompressed when at least 8 bytes follow the header. -/
structure Framed (src : Source) (c : Cursor) : Prop where
  header : skipHeader src = some c
  trailer : c.offset + 8 ≤ src.size

theorem Framed.inLen {src : Source} {k : Cursor} (h : Framed src k) (capacity : Nat) :
    (body src k.offset capacity).inLen = src.size - k.offset - 8 := by
  have hsmall := src.small
  have htrailer := h.trailer
  have hword : word = 2 ^ 64 := rfl
  unfold body
  dsimp only
  rw [hword]
  omega

theorem at_start (src : Input) (overrun : Bool) : At src ⟨0, 0, 0, [], overrun, false⟩ 0 :=
  ⟨Nat.zero_lt_succ 7, 0, rfl, nofun, Nat.zero_le _, rfl⟩

/-- What `decompress` makes of a run over the blocks. -/
theorem decompress_run {src : Source} {k : Cursor} {wild : Wild} {capacity n : Nat} {r : Result}
    (hgzip : isGzip src = true) (hk : skipHeader src = some k) (hlt : k.offset < src.size) :
    decompress wild src capacity n = some r ↔
      ∃ s', blocks (body src k.offset capacity) wild n n ⟨0, 0, 0, [], k.overread, false⟩ = some s' ∧
        r = ⟨0 < s'.out.length, s'.out, s'.overread, s'.stray⟩ := by
  unfold decompress
  rw [if_neg (by rw [hgzip]; nofun), hk]
  dsimp only
  rw [if_neg (by omega)]
  constructor
  · intro h
    obtain ⟨s', hs', hr⟩ := Option.bind_eq_some_iff.mp h
    exact ⟨s', hs', (Option.some.inj hr).symm⟩
  · rintro ⟨s', hs', rfl⟩
    rw [hs']
    rfl

/-- `decompress` returns, with any number of rounds that is large enough. -/
theorem decompress_terminates (wild : Wild) (src : Source) (capacity : Nat)
    (h : ∀ k, skipHeader src = some k → k.offset + 8 ≤ src.size) :
    ∃ n r, ∀ m, n ≤ m → decompress wild src capacity m = some r := by
  by_cases hgzip : isGzip src = false
  · refine ⟨0, ⟨false, [], false, false⟩, fun m _ => ?_⟩
    unfold decompress
    rw [if_pos hgzip]
  cases hk : skipHeader src with
  | none =>
    refine ⟨0, ⟨false, [], false, false⟩, fun m _ => ?_⟩
    unfold decompress
    rw [if_neg hgzip, hk]
  | some k =>
    have htrailer := h k hk
    have hframed : Framed src k := ⟨hk, htrailer⟩
    have hsmall := src.small
    have hlen := hframed.inLen capacity
    have hword : word = 2 ^ 64 := rfl
    obtain ⟨s', n, hrun⟩ := run_ends wild (by omega)
      (at_start (body src k.offset capacity) k.overread) (Nat.zero_le _)
    refine ⟨n, ⟨0 < s'.out.length, s'.out, s'.overread, s'.stray⟩, fun m hm => ?_⟩
    rw [decompress_run (Bool.not_eq_false _ ▸ hgzip) hk (by omega : k.offset < src.size)]
    exact ⟨s', blocks_le hrun hm hm, rfl⟩

/-- A file that is cut off in the first word of its block: the rest of the word and all that is read
behind it are zero bits. -/
def cutFile : Source where
  bytes i := [0x1f, 0x8b, 8, 0, 0, 0, 0, 0, 0, 3, 0x4a].getD i 0
  size := 19
  small := by decide

theorem skipHeader_cutFile : skipHeader cutFile = some ⟨10, false⟩ := rfl

theorem decompress_terminates_cut :
    ∃ n r, ∀ m, n ≤ m → decompress (fun _ => (⟨[], []⟩, ⟨[], []⟩)) cutFile 100 m = some r := by
  refine decompress_terminates _ cutFile 100 fun k hk => ?_
  cases skipHeader_cutFile.symm.trans hk
  decide

end decompress

end LosTacOS.Gzip
