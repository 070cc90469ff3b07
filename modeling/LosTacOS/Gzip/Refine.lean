import LosTacOS.Gzip.Ends

/-! The decompressor reads its input as the lenient reader does, round by round. Where the reader
comes to code lengths that do not exist, or to bytes that were not passed, the decompressor has made
an access out of range. -/
namespace LosTacOS.Gzip

open BitStream Canonical Deflate

variable {src : Input} {s s' t : State} {h lh dh : Huffman} {c c' : Nat} {wild : Wild}

section kept

/-- The bits up to `c` have been read, with all accesses in range. -/
structure Kept (src : Input) (s : State) (c : Nat) : Prop where
  here : At src s c
  room : s.out.length ≤ src.outLen
  stray : s.stray = false
  overrun : s.overread = false
  near : src.given < src.inLen → s.inPos ≤ src.given ∨ s.bitcnt = 0 ∧ s.inPos < src.inLen

theorem beyond_iff : beyond src c = true ↔ src.given < src.inLen ∧ 8 * src.given < c := by
  unfold beyond
  rw [Bool.and_eq_true, decide_eq_true_eq, decide_eq_true_eq]

theorem beyond_mono (hle : c ≤ c') (hb : beyond src c = true) : beyond src c' = true := by
  rw [beyond_iff] at hb ⊢
  omega

theorem At.inPos_le (hat : At src s c) (hb : beyond src c = false) : s.inPos ≤ src.given := by
  have hpos := hat.inPos_eq
  have hb' : ¬ (src.given < src.inLen ∧ 8 * src.given < c) := by
    rw [← beyond_iff, hb]
    exact Bool.false_ne_true
  omega

/-- Reading bits up to a place is an access out of range exactly when some of them were not
passed. -/
theorem Kept.advances (hk : Kept src s c) (ha : Advances src s s') (hat : At src s' c') (hlt : c < c')
    (hs : s'.stray = false) :
    (beyond src c' = true → s'.overread = true) ∧ (beyond src c' = false → Kept src s' c') := by
  have hpos := hk.here.inPos_eq
  have hpos' := hat.inPos_eq
  constructor
  · intro hb
    obtain ⟨hgap, hfar⟩ := beyond_iff.mp hb
    refine ha.overrun.mpr (.inr ?_)
    rcases hk.near hgap with hnear | ⟨hcnt, hin⟩
    · omega
    · obtain ⟨-, d, hbuf⟩ := hk.here
      have hplace := hbuf.place
      have hd : d = 0 := by
        by_contra hd
        have := hbuf.dry (Nat.pos_of_ne_zero hd)
        omega
      omega
  · intro hb
    have hle := hat.inPos_le hb
    refine ⟨hat, ha.out ▸ hk.room, hs, ?_, fun _ => .inl hle⟩
    by_contra hover
    rcases ha.overrun.mp (Bool.eq_true_of_not_eq_false hover) with ho | ⟨-, hfar⟩
    · rw [hk.overrun] at ho
      cases ho
    · omega

end kept

section rest

inductive Running
  | head (s : State)
  | codes (last : Bool) (lh dh : Huffman) (s : State)

def Rest (src : Input) (wild : Wild) : Running → State → Prop
  | .head s, s' => Run src wild s s'
  | .codes last lh dh s, s' =>
    ∃ ok t, Turn.Returns (inflateTurn src lh dh) s (ok, t) ∧
      if ok = true ∧ last = false then Run src wild t s' else t = s'

inductive Matches (src : Input) : Config → Running → Prop
  | head {c : Nat} {s : State} (hk : Kept src s c) : Matches src (.head c s.out) (.head s)
  | codes {c : Nat} {s : State} {last : Bool} {lit dist : List Nat} {lh dh : Huffman}
    (hk : Kept src s c) (hl : Holds lit lh) (hd : Holds dist dh) :
    Matches src (.codes last lit dist c s.out) (.codes last lh dh s)

structure Clean (s : State) : Prop where
  stray : s.stray = false
  overrun : s.overread = false

theorem Kept.clean (hk : Kept src s c) : Clean s := ⟨hk.stray, hk.overrun⟩

def eager : Wild := fun _ => (⟨[0, 2], [65, 65]⟩, ⟨[], []⟩)

def Outcome (src : Input) (wild : Wild) (x : Running) : Verdict → Prop
  | .complete _ out => ∃ s', Rest src wild x s' ∧ Clean s' ∧ s'.out = out
  | .refused out => ∃ s', Rest src wild x s' ∧ Clean s' ∧ s'.out = out
  | .overfull => ∃ s', Rest src wild x s' ∧ Clean s' ∧ s'.out.length = src.outLen
  | .undefined => ∀ s', Rest src wild x s' →
      s'.stray = true ∧ (wild = eager → 0 < src.outLen → s'.out ≠ [])
  | .outside => ∀ s', Rest src wild x s' → s'.overread = true

def Follows (src : Input) (wild : Wild) (x : Running) : Turn Config Verdict → Prop
  | .again cfg => ∃ y, Matches src cfg y ∧ ∀ s', Rest src wild x s' ↔ Rest src wild y s'
  | .done v => Outcome src wild x v

theorem Outcome.congr {x y : Running} {v : Verdict} (h : Outcome src wild y v)
    (hxy : ∀ s', Rest src wild x s' ↔ Rest src wild y s') : Outcome src wild x v := by
  cases v with
  | complete c out =>
    obtain ⟨s', hr, h⟩ := h
    exact ⟨s', (hxy s').mpr hr, h⟩
  | refused out =>
    obtain ⟨s', hr, h⟩ := h
    exact ⟨s', (hxy s').mpr hr, h⟩
  | overfull =>
    obtain ⟨s', hr, h⟩ := h
    exact ⟨s', (hxy s').mpr hr, h⟩
  | undefined => exact fun s' hr => h s' ((hxy s').mp hr)
  | outside => exact fun s' hr => h s' ((hxy s').mp hr)

theorem Rest.head_extends (hr : Run src wild s s') : Extends src s s' :=
  have ⟨_, h⟩ := hr
  blocks_extends h

theorem Rest.codes_extends {last : Bool} (hr : Rest src wild (.codes last lh dh s) s') :
    Extends src s s' := by
  obtain ⟨ok, t, ht, hrest⟩ := hr
  have hext := (inflate_goes ht).toExtends
  by_cases hmore : ok = true ∧ last = false
  · rw [if_pos hmore] at hrest
    exact hext.trans (Rest.head_extends hrest)
  · rw [if_neg hmore] at hrest
    rwa [hrest] at hext

end rest

section symbols

variable {last : Bool} {lit dist : List Nat} {sym : Int} {s1 s2 : State}

theorem rest_again (hturn : inflateTurn src lh dh s = .again t) :
    Rest src wild (.codes last lh dh s) s' ↔ Rest src wild (.codes last lh dh t) s' :=
  exists_congr fun _ => exists_congr fun _ => and_congr_left fun _ => Turn.returns_again hturn

theorem rest_done {ok : Bool} (hturn : inflateTurn src lh dh s = .done (ok, t)) :
    Rest src wild (.codes last lh dh s) s' ↔
      if ok = true ∧ last = false then Run src wild t s' else t = s' := by
  constructor
  · rintro ⟨ok', t', hr, hrest⟩
    cases hr.unique (Turn.returns_done hturn)
    exact hrest
  · exact fun hrest => ⟨ok, t, Turn.returns_done hturn, hrest⟩

/-- The symbol that `decode_symbol` returns is the one that the reader decodes. -/
theorem Holds.decodes {ls : List Nat} (hh : Holds ls h) (hat : At src s c)
    (hd : Gzip.decodeSymbol src h s = (sym, s')) :
    (∃ i w, sym = (i : Nat) ∧ decode ls (bitsOf src) 15 c = some (i, w) ∧ At src s' (c + w) ∧
        Reads src s s' ∧ 0 < w) ∨
      (sym = -1 ∧ decode ls (bitsOf src) 15 c = none ∧ At src s' (c + 15) ∧ Reads src s s') := by
  have hdec := hh.decodeSymbol hat
  rw [hd] at hdec
  cases hdec with
  | symbol hdec hat' hr => exact .inl ⟨_, _, rfl, hdec, hat', hr, (decode_some hdec).1⟩
  | unknown hno hat' hr => exact .inr ⟨rfl, hno, hat', hr⟩

theorem Holds.decodes_nat {ls : List Nat} {i : Nat} (hh : Holds ls h) (hat : At src s c)
    (hd : Gzip.decodeSymbol src h s = ((i : Int), s')) :
    ∃ w, decode ls (bitsOf src) 15 c = some (i, w) ∧ At src s' (c + w) ∧ Reads src s s' ∧ 0 < w := by
  rcases hh.decodes hat hd with ⟨j, w, hj, h⟩ | ⟨hneg, -⟩
  · obtain rfl : i = j := Int.natCast_inj.mp hj
    exact ⟨w, h⟩
  · omega

theorem turn_codes {strict : Bool} {out : List UInt8} {x : Turn Config Verdict}
    (h : symbol src strict last lit dist c out = (c', x)) :
    turn src strict (.codes last lit dist c out) = if beyond src c' then .done .outside else x := by
  unfold turn next
  dsimp only
  rw [h]

/-- The round ends the block with an error, and so the run, after reading up to `c'`. -/
theorem follows_done {v : Verdict} {u : State} (hk : Kept src s c) (hr : Reads src s t)
    (hat : At src t c') (hlt : c < c') (hturn : inflateTurn src lh dh s = .done (false, u))
    (hu : u.overread = t.overread)
    (hv : Kept src t c' → Rest src wild (.codes last lh dh s) u →
      Outcome src wild (.codes last lh dh s) v) :
    Follows src wild (.codes last lh dh s) (if beyond src c' then .done .outside else .done v) := by
  have hrest : ∀ s', Rest src wild (.codes last lh dh s) s' ↔ u = s' := fun s' => by
    rw [rest_done hturn, if_neg (by rintro ⟨⟨⟩, -⟩)]
  obtain ⟨hout, hin⟩ := hk.advances hr.toAdvances hat hlt (hr.stray.trans hk.stray)
  cases hb : beyond src c' with
  | true =>
    rw [if_pos rfl]
    intro s' hs'
    rw [← (hrest s').mp hs', hu]
    exact hout hb
  | false =>
    rw [if_neg Bool.false_ne_true]
    exact hv (hin hb) ((hrest u).mpr rfl)

theorem follows_again {out : List UInt8} (hk : Kept src s c) (hr : Reads src s t)
    (hat : At src t c') (hlt : c < c') (hl : Holds lit lh) (hd : Holds dist dh)
    (hroom : out.length ≤ src.outLen)
    (hturn : inflateTurn src lh dh s = .again { t with out := out })
    (hsym : symbol src false last lit dist c s.out =
      (c', .again (.codes last lit dist c' out))) :
    Follows src wild (.codes last lh dh s) (turn src false (.codes last lit dist c s.out)) := by
  rw [turn_codes hsym]
  obtain ⟨hout, hin⟩ := hk.advances hr.toAdvances hat hlt (hr.stray.trans hk.stray)
  cases hb : beyond src c' with
  | true =>
    rw [if_pos rfl]
    intro s' hr
    exact (Rest.codes_extends ((rest_again hturn).mp hr)).overrun (hout hb)
  | false =>
    rw [if_neg Bool.false_ne_true]
    have hkept := hin hb
    have hkept' : Kept src { t with out := out } c' :=
      ⟨⟨hat.1, hat.2.imp fun _ hb => ⟨hb.place, hb.dry, hb.inside, hb.buffer⟩⟩, hroom, hkept.stray,
        hkept.overrun, hkept.near⟩
    exact ⟨_, .codes hkept' hl hd, fun s' => rest_again hturn⟩

theorem follows_refused (hk : Kept src s c) (hr : Reads src s t) (hat : At src t c') (hlt : c < c')
    (hturn : inflateTurn src lh dh s = .done (false, t))
    (hsym : symbol src false last lit dist c s.out = (c', .done (.refused s.out))) :
    Follows src wild (.codes last lh dh s) (turn src false (.codes last lit dist c s.out)) := by
  rw [turn_codes hsym]
  exact follows_done hk hr hat hlt hturn rfl fun hkept hrest => ⟨t, hrest, hkept.clean, hr.out⟩

theorem follows_overfull {u : State} (hk : Kept src s c) (hr : Reads src s t) (hat : At src t c')
    (hlt : c < c') (hturn : inflateTurn src lh dh s = .done (false, u))
    (hu : u.overread = t.overread ∧ u.stray = t.stray) (hfull : u.out.length = src.outLen)
    (hsym : symbol src false last lit dist c s.out = (c', .done .overfull)) :
    Follows src wild (.codes last lh dh s) (turn src false (.codes last lit dist c s.out)) := by
  rw [turn_codes hsym]
  exact follows_done hk hr hat hlt hturn hu.1 fun hkept hrest =>
    ⟨u, hrest, ⟨hu.2.trans hkept.stray, hu.1.trans hkept.overrun⟩, hfull⟩

theorem LengthRead.decodes {len : Nat} (h : LengthRead src lh s len s') (hl : Holds lit lh)
    (hat : At src s c) :
    ∃ i w, i < 29 ∧ decode lit (bitsOf src) 15 c = some (257 + i, w) ∧
      len = lens.getD i 0 + lowFirst (bitsOf src) (c + w) (lext.getD i 0) ∧
      At src s' (c + w + lext.getD i 0) ∧ Reads src s s' ∧ 0 < w := by
  obtain ⟨i, s1, hi, hdec, rfl, rfl⟩ := h
  obtain ⟨w, hw, hat1, hr1, hpos⟩ := hl.decodes_nat hat hdec
  obtain ⟨hval, hat2, hr2⟩ := hat1.getBits (length_tables i hi).1
  exact ⟨i, w, hi, hw, by rw [hval], hat2, hr1.trans hr2, hpos⟩

theorem DistanceRead.decodes {far : Nat} (h : DistanceRead src dh s far s') (hd : Holds dist dh)
    (hat : At src s c) :
    ∃ j w, j < 30 ∧ decode dist (bitsOf src) 15 c = some (j, w) ∧
      far = dists.getD j 0 + lowFirst (bitsOf src) (c + w) (dext.getD j 0) ∧
      At src s' (c + w + dext.getD j 0) ∧ Reads src s s' := by
  obtain ⟨j, s1, hj, hdec, rfl, rfl⟩ := h
  obtain ⟨w, hw, hat1, hr1, -⟩ := hd.decodes_nat hat hdec
  obtain ⟨hval, hat2, hr2⟩ := hat1.getBits (distance_tables j hj)
  exact ⟨j, w, hj, hw, by rw [hval], hat2, hr1.trans hr2⟩

section spec

variable {strict : Bool} {out : List UInt8} {i j w v len far : Nat}

theorem symbol_none (h : decode lit (bitsOf src) 15 c = none) :
    symbol src strict last lit dist c out = (c + 15, .done (.refused out)) := by
  unfold symbol
  rw [h]

theorem symbol_bad (h : decode lit (bitsOf src) 15 c = some (i, w)) (hi : 285 < i) :
    symbol src strict last lit dist c out = (c + w, .done (.refused out)) := by
  unfold symbol
  rw [h]
  dsimp only
  rw [if_neg (by omega), if_neg (by omega), if_pos hi]

theorem symbol_literal (h : decode lit (bitsOf src) 15 c = some (i, w)) (hi : i < 256) :
    symbol src strict last lit dist c out = (c + w,
      if out.length < src.outLen then .again (.codes last lit dist (c + w) (out ++ [UInt8.ofNat i]))
      else .done .overfull) := by
  unfold symbol
  rw [h]
  dsimp only
  rw [if_pos hi]

theorem symbol_last (h : decode lit (bitsOf src) 15 c = some (256, w)) :
    symbol src strict last lit dist c out = (c + w, finish src strict last (c + w) out) := by
  unfold symbol
  rw [h]
  rfl

theorem symbol_length (h : decode lit (bitsOf src) 15 c = some (257 + i, w)) (hi : i < 29) :
    symbol src strict last lit dist c out =
      distance src last lit dist (lens.getD i 0 + lowFirst (bitsOf src) (c + w) (lext.getD i 0))
        (c + w + lext.getD i 0) out := by
  have hsub : 257 + i - 257 = i := Nat.add_sub_cancel_left 257 i
  unfold symbol
  rw [h]
  dsimp only
  rw [if_neg (by omega), if_neg (by omega), if_neg (by omega), hsub]

theorem distance_none (h : decode dist (bitsOf src) 15 c = none) :
    distance src last lit dist len c out = (c + 15, .done (.refused out)) := by
  unfold distance
  rw [h]

theorem distance_bad (h : decode dist (bitsOf src) 15 c = some (j, w)) (hj : 29 < j) :
    distance src last lit dist len c out = (c + w, .done (.refused out)) := by
  unfold distance
  rw [h]
  dsimp only
  rw [if_pos hj]

theorem distance_some (h : decode dist (bitsOf src) 15 c = some (j, w)) (hj : j < 30)
    (hfar : far = dists.getD j 0 + lowFirst (bitsOf src) (c + w) (dext.getD j 0)) :
    distance src last lit dist len c out = (c + w + dext.getD j 0,
      if out.length < far then .done (.refused out)
      else if out.length + len ≤ src.outLen then
        .again (.codes last lit dist (c + w + dext.getD j 0) (copied far len out))
      else .done .overfull) := by
  subst hfar
  unfold distance
  rw [h]
  dsimp only
  rw [if_neg (by omega)]

end spec

theorem follows_last (hk : Kept src s c) (hr : Reads src s t) (hat : At src t c') (hlt : c < c')
    (hturn : inflateTurn src lh dh s = .done (true, t))
    (hsym : symbol src false last lit dist c s.out = (c', finish src false last c' s.out)) :
    Follows src wild (.codes last lh dh s) (turn src false (.codes last lit dist c s.out)) := by
  rw [turn_codes hsym]
  obtain ⟨hout, hin⟩ := hk.advances hr.toAdvances hat hlt (hr.stray.trans hk.stray)
  cases hb : beyond src c' with
  | true =>
    rw [if_pos rfl]
    intro s' hs'
    have hrest := (rest_done hturn).mp hs'
    by_cases hlast : last = false
    · rw [if_pos ⟨rfl, hlast⟩] at hrest
      exact (Rest.head_extends hrest).overrun (hout hb)
    · rw [if_neg fun h => hlast h.2] at hrest
      exact hrest ▸ hout hb
  | false =>
    rw [if_neg Bool.false_ne_true]
    have hkept := hin hb
    unfold finish
    by_cases hlast : last = false
    · rw [if_pos hlast, ← hr.out]
      refine ⟨_, .head hkept, fun s' => ?_⟩
      rw [rest_done hturn, if_pos ⟨rfl, hlast⟩]
      rfl
    · rw [if_neg hlast, Bool.false_and, if_neg Bool.false_ne_true]
      refine ⟨t, ?_, hkept.clean, hr.out⟩
      rw [rest_done hturn, if_neg fun h => hlast h.2]

theorem codes_follows (hk : Kept src s c) (hl : Holds lit lh) (hd : Holds dist dh) :
    Follows src wild (.codes last lh dh s) (turn src false (.codes last lit dist c s.out)) := by
  have hinf := inflateTurn_inflates src lh dh s
  generalize hturn : inflateTurn src lh dh s = x at hinf
  have hroom := hk.room
  cases hinf with
  | bad hdec hs =>
    rcases hl.decodes hk.here hdec with ⟨i, w, rfl, hw, hat, hr, hpos⟩ | ⟨-, hw, hat, hr⟩
    · exact follows_refused hk hr hat (by omega) hturn (symbol_bad hw (by omega))
    · exact follows_refused hk hr hat (by omega) hturn (symbol_none hw)
  | full hdec hb hf =>
    obtain ⟨w, hw, hat, hr, hpos⟩ := hl.decodes_nat hk.here hdec
    rw [hr.out] at hf
    refine follows_overfull hk hr hat (by omega) hturn ⟨rfl, rfl⟩ ?_ ?_
    · rw [hr.out]
      omega
    · rw [symbol_literal hw hb, if_neg (by omega)]
  | literal hdec hb hf =>
    obtain ⟨w, hw, hat, hr, hpos⟩ := hl.decodes_nat hk.here hdec
    rw [hr.out] at hf hturn
    refine follows_again hk hr hat (by omega) hl hd ?_ hturn ?_
    · rw [List.length_append]
      exact hf
    · rw [symbol_literal hw hb, if_pos hf]
  | last hdec =>
    obtain ⟨w, hw, hat, hr, hpos⟩ := hl.decodes_nat hk.here hdec
    exact follows_last hk hr hat (by omega) hturn (symbol_last hw)
  | unknown hlen hdec hs =>
    obtain ⟨i, w, hi, hw, rfl, hat, hr, hpos⟩ := hlen.decodes hl hk.here
    rcases hd.decodes hat hdec with ⟨j, w', rfl, hw', hat', hr', -⟩ | ⟨-, hw', hat', hr'⟩
    · refine follows_refused hk (hr.trans hr') hat' (by omega) hturn ?_
      rw [symbol_length hw hi, distance_bad hw' (by omega)]
    · refine follows_refused hk (hr.trans hr') hat' (by omega) hturn ?_
      rw [symbol_length hw hi, distance_none hw']
  | far hlen hdist hfar =>
    obtain ⟨i, w, hi, hw, rfl, hat, hr, hpos⟩ := hlen.decodes hl hk.here
    obtain ⟨j, w', hj, hw', hfar', hat', hr'⟩ := hdist.decodes hd hat
    rw [(hr.trans hr').out] at hfar
    refine follows_refused hk (hr.trans hr') hat' (by omega) hturn ?_
    rw [symbol_length hw hi, distance_some hw' hj hfar', if_pos hfar]
  | copied hlen hdist hnear hc =>
    obtain ⟨i, w, hi, hw, rfl, hat, hr, hpos⟩ := hlen.decodes hl hk.here
    obtain ⟨j, w', hj, hw', hfar', hat', hr'⟩ := hdist.decodes hd hat
    have hout := (hr.trans hr').out
    rw [copyMatch_eq _ (by rwa [hout]), hout] at hc
    obtain ⟨hfits, rfl⟩ := Prod.mk.inj hc
    have hfits := of_decide_eq_true hfits
    rw [Nat.min_eq_left (by omega)] at hturn
    refine follows_again hk (hr.trans hr') hat' (by omega) hl hd ?_ hturn ?_
    · rwa [copied_length]
    · rw [hout] at hnear
      rw [symbol_length hw hi, distance_some hw' hj hfar', if_neg (by omega), if_pos hfits]
  | cut hlen hdist hnear hc =>
    obtain ⟨i, w, hi, hw, rfl, hat, hr, hpos⟩ := hlen.decodes hl hk.here
    obtain ⟨j, w', hj, hw', hfar', hat', hr'⟩ := hdist.decodes hd hat
    have hout := (hr.trans hr').out
    rw [copyMatch_eq _ (by rwa [hout]), hout] at hc
    obtain ⟨hfits, rfl⟩ := Prod.mk.inj hc
    have hfits := of_decide_eq_false hfits
    refine follows_overfull hk (hr.trans hr') hat' (by omega) hturn ⟨rfl, rfl⟩ ?_ ?_
    · rw [copied_length]
      omega
    · rw [hout] at hnear
      rw [symbol_length hw hi, distance_some hw' hj hfar', if_neg (by omega), if_neg hfits]

end symbols

section heads

variable {more : Bool} {x : Bool × State}

def opened (src : Input) (s : State) : State := (getBits src 2 (getBits src 1 s).2).2

theorem At.opened (hat : At src s c) :
    ((Gzip.getBits src 1 s).1 = 0 ↔ bitsOf src c = false) ∧
      (Gzip.getBits src 2 (Gzip.getBits src 1 s).2).1 = lowFirst (bitsOf src) (c + 1) 2 ∧
      At src (Gzip.opened src s) (c + 3) ∧ Reads src s (Gzip.opened src s) := by
  obtain ⟨hlast, hat1, hr1⟩ := hat.getBits (n := 1) (by decide)
  obtain ⟨hbtype, hat2, hr2⟩ := hat1.getBits (n := 2) (by decide)
  refine ⟨?_, hbtype, hat2, hr1.trans hr2⟩
  rw [hlast, lowFirst_one, Bool.toNat_eq_zero]

theorem Body.unique {btype : Nat} {y : Bool × State} (hx : Body src wild btype s x)
    (hy : Body src wild btype s y) : x = y := by
  obtain ⟨n, hn⟩ := hx
  obtain ⟨m, hm⟩ := hy
  have hn' := blockBody_le hn (Nat.le_max_left n m)
  have hm' := blockBody_le hm (Nat.le_max_right n m)
  exact Option.some.inj (hn'.symm.trans hm')

theorem rest_head (hat : At src s c) :
    Rest src wild (.head s) s' ↔
      ∃ more t, Body src wild (lowFirst (bitsOf src) (c + 1) 2) (opened src s) (more, t) ∧
        if more = true ∧ bitsOf src c = false then Run src wild t s' else t = s' := by
  obtain ⟨hlast, hbtype, -, -⟩ := hat.opened
  rw [← hbtype]
  simp only [← hlast]
  exact run_iff

theorem rest_body (hat : At src s c)
    (hb : Body src wild (lowFirst (bitsOf src) (c + 1) 2) (opened src s) (more, t)) :
    Rest src wild (.head s) s' ↔
      if more = true ∧ bitsOf src c = false then Run src wild t s' else t = s' := by
  rw [rest_head hat]
  constructor
  · rintro ⟨more', t', hb', hrest⟩
    cases hb.unique hb'
    exact hrest
  · exact fun hrest => ⟨more, t, hb, hrest⟩

theorem opened_over (hover : (opened src s).overread = true)
    (hr : Rest src wild (.head s) s') : s'.overread = true := by
  obtain ⟨more, t, ⟨n, hb⟩, hrest⟩ := run_iff.mp hr
  have ht := (blockBody_extends hb).overrun hover
  by_cases hmore : more = true ∧ (getBits src 1 s).1 = 0
  · rw [if_pos hmore] at hrest
    exact (Rest.head_extends hrest).overrun ht
  · rw [if_neg hmore] at hrest
    exact hrest ▸ ht

/-- The run goes on behind a block only if it was not the last, and then what was read out of range
stays so. -/
theorem rest_over (hat : At src s c)
    (hb : Body src wild (lowFirst (bitsOf src) (c + 1) 2) (opened src s) (more, t))
    (hover : t.overread = true) (hr : Rest src wild (.head s) s') : s'.overread = true := by
  have hrest := (rest_body hat hb).mp hr
  by_cases hmore : more = true ∧ bitsOf src c = false
  · rw [if_pos hmore] at hrest
    exact (Rest.head_extends hrest).overrun hover
  · rw [if_neg hmore] at hrest
    exact hrest ▸ hover

theorem turn_head {strict : Bool} {out : List UInt8} {y : Turn Config Verdict}
    (h : next src strict (.head c out) = (c', y)) :
    turn src strict (.head c out) = if beyond src c' then .done .outside else y := by
  unfold turn
  rw [h]

section stored

variable {out : List UInt8} {last : Bool} {p len n : Nat}

theorem stored_short {strict : Bool} (hp : p = (c + 7) / 8) (h : src.inLen < p + 4) :
    stored src strict last c out = (c, .done (.refused out)) := by
  subst hp
  unfold stored
  dsimp only
  rw [if_pos h]

theorem stored_long {strict : Bool} (hp : p = (c + 7) / 8) (h : p + 4 ≤ src.inLen)
    (hl : src.inLen < p + 4 + storedLen src p) :
    stored src strict last c out = (8 * (p + 2), .done (.refused out)) := by
  subst hp
  unfold storedLen at hl
  unfold stored
  dsimp only
  rw [if_neg (by omega), if_pos hl]

theorem stored_copied (hp : p = (c + 7) / 8) (h : p + 4 + storedLen src p ≤ src.inLen)
    (hn : n = min (storedLen src p) (src.outLen - out.length)) :
    stored src false last c out =
      (if n = 0 then 8 * (p + 2) else 8 * (p + 4 + n),
        finish src false last (8 * (p + 4 + n))
          (out ++ (List.range n).map fun i => src.input (p + 4 + i))) := by
  subst hp hn
  unfold storedLen at h ⊢
  unfold stored
  dsimp only
  rw [if_neg (by omega), if_neg (by omega), Bool.false_and, Bool.false_and,
    if_neg Bool.false_ne_true, if_neg Bool.false_ne_true]

/-- What a stored block of `n` bytes was read of. -/
theorem taken_over (hs : s.overread = false)
    (h : s.inPos + 4 + n ≤ src.inLen)
    (hc : c' = if n = 0 then 8 * (s.inPos + 2) else 8 * (s.inPos + 4 + n)) :
    (taken src (measured src s) n).overread = beyond src c' := by
  unfold taken measured
  dsimp only
  rw [hs, Bool.false_or, ← Bool.decide_or, Bool.eq_iff_iff, decide_eq_true_eq, beyond_iff, hc]
  by_cases hn : n = 0
  · rw [if_pos hn]
    omega
  · rw [if_neg hn]
    omega

/-- The reader is behind a stored block, with all accesses in range. -/
theorem taken_kept (hk : Kept src s c) (hgap : src.given < src.inLen → src.given + 2 < src.inLen)
    (h : s.inPos + 4 + n ≤ src.inLen) (hn : n ≤ src.outLen - s.out.length)
    (hc : c' = if n = 0 then 8 * (s.inPos + 2) else 8 * (s.inPos + 4 + n))
    (hb : beyond src c' = false) :
    Kept src (taken src (measured src s) n) (8 * (s.inPos + 4 + n)) where
  here := taken_at h
  room := (taken_extends (s := measured src s) hn).room hk.room
  stray := hk.stray
  overrun := (taken_over hk.overrun h hc).trans hb
  near hlt := by
    have hin : ¬ (src.given < src.inLen ∧ 8 * src.given < c') := by
      rw [← beyond_iff, hb]
      exact Bool.false_ne_true
    have := hgap hlt
    by_cases hn0 : n = 0
    · rw [if_pos hn0] at hc
      refine .inr ⟨rfl, ?_⟩
      change s.inPos + 4 + n < src.inLen
      omega
    · rw [if_neg hn0] at hc
      refine .inl ?_
      change s.inPos + 4 + n ≤ src.given
      omega

theorem head_done (hat : At src s c)
    (hb : Body src wild (lowFirst (bitsOf src) (c + 1) 2) (opened src s) (false, t)) :
    Rest src wild (.head s) s' ↔ t = s' := by
  rw [rest_body hat hb, if_neg (by rintro ⟨⟨⟩, -⟩)]

theorem head_finish (hat : At src s c) (hkept : Kept src t c')
    (hb : Body src wild (lowFirst (bitsOf src) (c + 1) 2) (opened src s) (true, t)) :
    Follows src wild (.head s) (finish src false (bitsOf src c) c' t.out) := by
  unfold finish
  by_cases hlast : bitsOf src c = false
  · rw [if_pos hlast]
    refine ⟨_, .head hkept, fun s' => ?_⟩
    rw [rest_body hat hb, if_pos ⟨rfl, hlast⟩]
    rfl
  · rw [if_neg hlast, Bool.false_and, if_neg Bool.false_ne_true]
    refine ⟨t, ?_, hkept.clean, rfl⟩
    rw [rest_body hat hb, if_neg fun h => hlast h.2]

theorem stored_follows (hk : Kept src s c) (hgiven : src.given < 2 ^ 63)
    (hgap : src.given < src.inLen → src.given + 2 < src.inLen)
    (hbtype : lowFirst (bitsOf src) (c + 1) 2 = 0) (hb3 : beyond src (c + 3) = false) :
    Follows src wild (.head s) (turn src false (.head c s.out)) := by
  obtain ⟨-, -, hat2, hr2⟩ := hk.here.opened
  have hk2 := (hk.advances hr2.toAdvances hat2 (by omega) (hr2.stray.trans hk.stray)).2 hb3
  have hle := hat2.inPos_le hb3
  have hpos := hat2.inPos_eq
  have hword : word = 2 ^ 64 := rfl
  have hnext : next src false (.head c s.out) = stored src false (bitsOf src c) (c + 3) s.out := by
    unfold next
    dsimp only
    rw [if_pos hbtype]
  have hcopies : Copies src (opened src s) (storedBlock src (opened src s)) :=
    storedBlock_copies (by omega)
  have hbody : Body src wild (lowFirst (bitsOf src) (c + 1) 2) (opened src s)
      (storedBlock src (opened src s)) := by
    refine ⟨0, ?_⟩
    unfold blockBody
    rw [if_pos hbtype]
  generalize storedBlock src (opened src s) = x at hcopies hbody
  rw [← hr2.out] at hnext ⊢
  cases hcopies with
  | short h =>
    have hshort : src.inLen < (c + 3 + 7) / 8 + 4 := by omega
    rw [turn_head (hnext.trans (stored_short rfl hshort)), hb3, if_neg Bool.false_ne_true]
    exact ⟨_, (head_done hk.here hbody).mpr rfl, ⟨hk2.stray, hk2.overrun⟩, rfl⟩
  | long h hl =>
    have hp : (opened src s).inPos = (c + 3 + 7) / 8 := by omega
    rw [turn_head (hnext.trans (stored_long hp h hl))]
    have hover := taken_over hk2.overrun (n := 0) h rfl
    rw [taken_zero, if_pos rfl] at hover
    cases hb : beyond src (8 * ((opened src s).inPos + 2)) with
    | true =>
      rw [if_pos rfl]
      exact fun s' hr => rest_over hk.here hbody (hover.trans hb) hr
    | false =>
      rw [if_neg Bool.false_ne_true]
      exact ⟨_, (head_done hk.here hbody).mpr rfl, ⟨hk2.stray, hover.trans hb⟩, rfl⟩
  | copied h =>
    have hp : (opened src s).inPos = (c + 3 + 7) / 8 := by omega
    rw [turn_head (hnext.trans (stored_copied hp h rfl))]
    have hmin := Nat.min_le_left (storedLen src (opened src s).inPos)
      (src.outLen - (opened src s).out.length)
    have hfit := Nat.min_le_right (storedLen src (opened src s).inPos)
      (src.outLen - (opened src s).out.length)
    generalize min (storedLen src (opened src s).inPos) (src.outLen - (opened src s).out.length) = n
      at *
    have hin : (opened src s).inPos + 4 + n ≤ src.inLen := by omega
    have hover := taken_over hk2.overrun hin rfl
    have hkept := taken_kept hk2 hgap hin hfit rfl
    generalize hplace : (if n = 0 then 8 * ((opened src s).inPos + 2)
      else 8 * ((opened src s).inPos + 4 + n)) = place at hover hkept ⊢
    cases hb : beyond src place with
    | true =>
      rw [if_pos rfl]
      exact fun s' hr => rest_over hk.here hbody (hover.trans hb) hr
    | false =>
      rw [if_neg Bool.false_ne_true]
      exact head_finish hk.here (hkept hb) hbody

end stored

section compressed

variable {lit dist : List UInt8} {n : Nat}

theorem inflateBlock_eq (hlit : ∀ x ∈ lit, x.toNat < 16) (hl : lit.length ≤ 288)
    (hdist : ∀ x ∈ dist, x.toNat < 16) (hd : dist.length ≤ 288) :
    inflateBlock src wild n true lit dist s =
      loopFor (inflateTurn src (buildHuffman lit).1 (buildHuffman dist).1) n s := by
  obtain ⟨hl', -⟩ := buildHuffman_holds hlit hl
  obtain ⟨hd', -⟩ := buildHuffman_holds hdist hd
  unfold inflateBlock
  generalize buildHuffman lit = x at hl'
  obtain ⟨lh, litIn⟩ := x
  generalize buildHuffman dist = y at hd'
  obtain ⟨dh, distIn⟩ := y
  dsimp only at hl' hd' ⊢
  rw [hl', hd', Bool.and_self, Bool.and_self, Bool.not_true, Bool.or_false, if_pos rfl]

theorem rest_codes (hat : At src s c)
    (hb : ∀ x, Body src wild (lowFirst (bitsOf src) (c + 1) 2) (opened src s) x ↔
      Turn.Returns (inflateTurn src lh dh) t x) :
    Rest src wild (.head s) s' ↔ Rest src wild (.codes (bitsOf src c) lh dh t) s' := by
  rw [rest_head hat]
  exact exists_congr fun _ => exists_congr fun _ => and_congr_left fun _ => hb _

/-- The reader goes on behind the description of the codes. -/
theorem compressed_follows {ws vs : List Nat} (hk : Kept src s c) (ha : Advances src s t)
    (hat : At src t c') (hlt : c < c') (hs : t.stray = false) (hl : Holds ws lh) (hd : Holds vs dh)
    (hb : ∀ x, Body src wild (lowFirst (bitsOf src) (c + 1) 2) (opened src s) x ↔
      Turn.Returns (inflateTurn src lh dh) t x) :
    Follows src wild (.head s) (if beyond src c' then .done .outside
      else .again (.codes (bitsOf src c) ws vs c' s.out)) := by
  obtain ⟨hout, hin⟩ := hk.advances ha hat hlt hs
  cases hbeyond : beyond src c' with
  | true =>
    rw [if_pos rfl]
    exact fun s' hr => (Rest.codes_extends ((rest_codes hk.here hb).mp hr)).overrun (hout hbeyond)
  | false =>
    rw [if_neg Bool.false_ne_true, ← ha.out]
    exact ⟨_, .codes (hin hbeyond) hl hd, fun s' => rest_codes hk.here hb⟩

theorem fixedLengths_lt : ∀ x ∈ fixedLengths, x.toNat < 16 := by
  intro x hx
  unfold fixedLengths at hx
  simp only [List.mem_append, List.mem_replicate] at hx
  rcases hx with ((⟨-, rfl⟩ | ⟨-, rfl⟩) | ⟨-, rfl⟩) | ⟨-, rfl⟩ <;> decide

theorem fixedDistances_lt : ∀ x ∈ fixedDistances, x.toNat < 16 := by
  intro x hx
  obtain rfl := List.eq_of_mem_replicate hx
  decide

theorem fixed_follows (hk : Kept src s c) (hbtype : lowFirst (bitsOf src) (c + 1) 2 = 1) :
    Follows src wild (.head s) (turn src false (.head c s.out)) := by
  obtain ⟨-, -, hat2, hr2⟩ := hk.here.opened
  have hl : fixedLengths.length ≤ 288 := by decide +kernel
  have hd : fixedDistances.length ≤ 288 := by decide +kernel
  have hnext : next src false (.head c s.out) =
      (c + 3, .again (.codes (bitsOf src c) (widths fixedLengths) (widths fixedDistances) (c + 3)
        s.out)) := by
    unfold next
    dsimp only
    rw [if_neg (by omega), if_pos hbtype]
  rw [turn_head hnext]
  refine compressed_follows hk hr2.toAdvances hat2 (by omega) (hr2.stray.trans hk.stray)
    (buildHuffman_holds fixedLengths_lt hl).2 (buildHuffman_holds fixedDistances_lt hd).2 fun x => ?_
  unfold Body blockBody Turn.Returns
  simp only [hbtype, inflateBlock_eq fixedLengths_lt hl fixedDistances_lt hd]
  rfl

/-- The run of a dynamic block behind its code lengths. -/
theorem body_dynamic {hlit hdist : Nat} {lengths : List UInt8} {x : Bool × State}
    (hread : ∀ n, 320 < n → readLengths src n s = some (hlit, hdist, lengths, t)) :
    Body src wild 2 s x ↔ ∃ n, inflateBlock src wild n (lengths.length ≤ 320) (lengths.take hlit)
      ((lengths.drop hlit).take hdist) t = some x := by
  constructor
  · rintro ⟨n, hn⟩
    refine ⟨n + 321, ?_⟩
    have hn' := blockBody_le hn (Nat.le_add_right n 321)
    unfold blockBody at hn'
    rw [if_neg (by decide), if_neg (by decide), if_pos rfl, hread _ (by omega)] at hn'
    exact hn'
  · rintro ⟨n, hn⟩
    refine ⟨n + 321, ?_⟩
    unfold blockBody
    rw [if_neg (by decide), if_neg (by decide), if_pos rfl, hread _ (by omega)]
    exact inflateBlock_le hn (Nat.le_add_right n 321)

/-- With eager tables a block writes something, if there is room. -/
theorem eager_writes {ok : Bool} (hroom : 0 < src.outLen)
    (hr : Turn.Returns (inflateTurn src (eager s).1 dh) s (ok, t)) : t.out ≠ [] := by
  have hbit : (getBits src 1 s).1 < 2 := Nat.lt_of_le_of_lt Nat.and_le_right (by decide)
  have hsym : ∃ s1, decodeSymbol src (eager s).1 s = (((65 : Nat) : Int), s1) := by
    unfold decodeSymbol
    rw [decodeFrom]
    generalize getBits src 1 s = x at hbit
    obtain ⟨bit, s1⟩ := x
    dsimp only at hbit ⊢
    have hcount : (eager s).1.counts.getD 1 0 = 2 := rfl
    rw [hcount, if_pos (by omega)]
    obtain rfl | rfl : bit = 0 ∨ bit = 1 := by omega
    · exact ⟨_, rfl⟩
    · exact ⟨_, rfl⟩
  obtain ⟨s1, hsym⟩ := hsym
  have hlength : ∀ {len : Nat} {u : State}, ¬ LengthRead src (eager s).1 s len u := by
    rintro len u ⟨i, s2, hi, hdec, -⟩
    have hsame := (Prod.mk.inj (hsym.symm.trans hdec)).1
    omega
  have hinf := inflateTurn_inflates src (eager s).1 dh s
  generalize hturn : inflateTurn src (eager s).1 dh s = y at hinf
  apply List.ne_nil_of_length_pos
  cases hinf with
  | bad hdec hs =>
    have hsame := (Prod.mk.inj (hsym.symm.trans hdec)).1
    omega
  | full hdec hb hf =>
    cases hr.unique (Turn.returns_done hturn)
    omega
  | literal hdec hb hf =>
    have hgrows := (inflate_goes ((Turn.returns_again hturn).mp hr)).grows
    rw [List.length_append, List.length_singleton] at hgrows
    omega
  | last hdec =>
    have hsame := (Prod.mk.inj (hsym.symm.trans hdec)).1
    omega
  | unknown hl hdec hs => exact absurd hl hlength
  | far hl hd hfar => exact absurd hl hlength
  | copied hl hd hnear hc => exact absurd hl hlength
  | cut hl hd hnear hc => exact absurd hl hlength

/-- A block whose code lengths do not exist, or are too many. -/
theorem inflateBlock_undefined {hlit hdist : Nat} {lengths : List UInt8} {ok : Bool}
    (hbad : 320 < lengths.length ∨ 255 ∈ lengths.take hlit ++ (lengths.drop hlit).take hdist)
    (hr : inflateBlock src wild n (lengths.length ≤ 320) (lengths.take hlit)
      ((lengths.drop hlit).take hdist) s = some (ok, t)) :
    t.stray = true ∧ (wild = eager → 0 < src.outLen → t.out ≠ []) := by
  have hrange : (decide (lengths.length ≤ 320) && (buildHuffman (lengths.take hlit)).2 &&
      (buildHuffman ((lengths.drop hlit).take hdist)).2) = false := by
    rw [Bool.eq_false_iff]
    intro htrue
    rw [Bool.and_eq_true, Bool.and_eq_true, decide_eq_true_eq] at htrue
    rcases hbad with hmany | hmem
    · omega
    · rcases List.mem_append.mp hmem with hmem | hmem
      · exact absurd (inRange_low htrue.1.2 255 hmem) (by decide)
      · exact absurd (inRange_low htrue.2 255 hmem) (by decide)
  unfold inflateBlock at hr
  generalize buildHuffman (lengths.take hlit) = x at hr hrange
  obtain ⟨lh, litIn⟩ := x
  generalize buildHuffman ((lengths.drop hlit).take hdist) = y at hr hrange
  obtain ⟨dh, distIn⟩ := y
  dsimp only at hr hrange
  rw [hrange, Bool.not_false, Bool.or_true, if_neg Bool.false_ne_true] at hr
  refine ⟨(inflate_goes ⟨n, hr⟩).stray rfl, ?_⟩
  rintro rfl hroom
  exact eager_writes hroom ⟨n, hr⟩

theorem dynamic_follows (hk : Kept src s c) (hbtype : lowFirst (bitsOf src) (c + 1) 2 = 2)
    (hb3 : beyond src (c + 3) = false) :
    Follows src wild (.head s) (turn src false (.head c s.out)) := by
  obtain ⟨-, -, hat2, hr2⟩ := hk.here.opened
  obtain ⟨hlit, hdist, lengths, c', s3, hread, hst⟩ := readLengths_stores hat2
  cases ht : tables (bitsOf src) (c + 3) with
  | none =>
    have hnext : next src false (.head c s.out) = (c + 3, .done .undefined) := by
      unfold next
      dsimp only
      rw [if_neg (by omega), if_neg (by omega), if_pos hbtype, ht]
    rw [turn_head hnext, hb3, if_neg Bool.false_ne_true]
    intro s' hr
    obtain ⟨more, t, hbody, hrest⟩ := (rest_head hk.here).mp hr
    rw [hbtype, body_dynamic hread] at hbody
    obtain ⟨n, hn⟩ := hbody
    obtain ⟨hstray, hwrites⟩ := inflateBlock_undefined (hst.unknown ht) hn
    have hext : Extends src t s' := by
      by_cases hmore : more = true ∧ bitsOf src c = false
      · rw [if_pos hmore] at hrest
        exact Rest.head_extends hrest
      · rw [if_neg hmore] at hrest
        exact hrest ▸ .refl src t
    refine ⟨hext.stray hstray, fun he hroom => ?_⟩
    have hpos := List.length_pos_of_ne_nil (hwrites he hroom)
    exact List.ne_nil_of_length_pos (Nat.lt_of_lt_of_le hpos hext.grows)
  | some tb =>
    obtain ⟨hroom, hplace, hlitws, hdistws, hlow⟩ := hst.known tb ht
    have hnext : next src false (.head c s.out) =
        (c', .again (.codes (bitsOf src c) tb.lit tb.dist c' s.out)) := by
      unfold next
      dsimp only
      rw [if_neg (by omega), if_neg (by omega), if_pos hbtype, ht]
      dsimp only
      rw [Bool.false_and, if_neg Bool.false_ne_true, hplace]
    have hforth := hst.gains.forth
    have hstray : s3.stray = false := by
      rw [hst.gains.stray, hr2.stray, hk.stray, Bool.false_or, decide_eq_false (by omega)]
    have hlow' : ∀ x ∈ lengths, x.toNat < 16 := fun x hx => hlow _ (List.mem_map_of_mem hx)
    have hl : ∀ x ∈ lengths.take hlit, x.toNat < 16 := fun x hx => hlow' x (List.mem_of_mem_take hx)
    have hd : ∀ x ∈ (lengths.drop hlit).take hdist, x.toNat < 16 :=
      fun x hx => hlow' x (List.mem_of_mem_drop (List.mem_of_mem_take hx))
    have hll : (lengths.take hlit).length ≤ 288 :=
      Nat.le_trans (List.length_take_le _ _) hst.lit
    have hdl : ((lengths.drop hlit).take hdist).length ≤ 288 :=
      Nat.le_trans (List.length_take_le _ _) (Nat.le_trans hst.dist (by decide))
    rw [turn_head hnext, hlitws, hdistws]
    refine compressed_follows hk (hr2.toAdvances.trans hst.gains.advances) hst.gains.here (by omega)
      hstray (buildHuffman_holds hl hll).2 (buildHuffman_holds hd hdl).2 fun x => ?_
    rw [hbtype, body_dynamic hread, decide_eq_true hroom]
    simp only [inflateBlock_eq hl hll hd hdl]
    rfl

end compressed

/-- The header of a block is read as far as any round in front of a block goes. -/
theorem next_place (hat : At src s c) (out : List UInt8) :
    c + 3 ≤ (next src false (.head c out)).1 := by
  unfold next
  dsimp only
  by_cases h0 : lowFirst (bitsOf src) (c + 1) 2 = 0
  · rw [if_pos h0]
    unfold stored
    dsimp only
    split_ifs <;> dsimp only <;> omega
  rw [if_neg h0]
  by_cases h1 : lowFirst (bitsOf src) (c + 1) 2 = 1
  · rw [if_pos h1]
  rw [if_neg h1]
  by_cases h2 : lowFirst (bitsOf src) (c + 1) 2 = 2
  · rw [if_pos h2]
    obtain ⟨-, -, hat2, -⟩ := hat.opened
    obtain ⟨hlit, hdist, lengths, c', s3, -, hst⟩ := readLengths_stores hat2
    cases ht : tables (bitsOf src) (c + 3) with
    | none => exact Nat.le_refl _
    | some tb =>
      dsimp only
      rw [(hst.known tb ht).2.1]
      exact hst.gains.forth
  · rw [if_neg h2]

theorem head_follows (hk : Kept src s c) (hgiven : src.given < 2 ^ 63)
    (hgap : src.given < src.inLen → src.given + 2 < src.inLen) :
    Follows src wild (.head s) (turn src false (.head c s.out)) := by
  obtain ⟨-, -, hat2, hr2⟩ := hk.here.opened
  cases hb3 : beyond src (c + 3) with
  | true =>
    -- the round is stopped, however far it reads
    have hturn : turn src false (.head c s.out) = .done .outside := by
      unfold turn
      have hplace := next_place hk.here s.out
      generalize next src false (.head c s.out) = x at hplace
      obtain ⟨c', y⟩ := x
      dsimp only at hplace ⊢
      rw [if_pos (beyond_mono hplace hb3)]
    rw [hturn]
    have hover := (hk.advances hr2.toAdvances hat2 (by omega) (hr2.stray.trans hk.stray)).1 hb3
    exact fun s' hr => opened_over hover hr
  | false =>
    by_cases h0 : lowFirst (bitsOf src) (c + 1) 2 = 0
    · exact stored_follows hk hgiven hgap h0 hb3
    by_cases h1 : lowFirst (bitsOf src) (c + 1) 2 = 1
    · exact fixed_follows hk h1
    by_cases h2 : lowFirst (bitsOf src) (c + 1) 2 = 2
    · exact dynamic_follows hk h2 hb3
    · have hnext : next src false (.head c s.out) = (c + 3, .done (.refused s.out)) := by
        unfold next
        dsimp only
        rw [if_neg h0, if_neg h1, if_neg h2]
      have hbody : Body src wild (lowFirst (bitsOf src) (c + 1) 2) (opened src s)
          (false, opened src s) := by
        refine ⟨0, ?_⟩
        unfold blockBody
        rw [if_neg h0, if_neg h1, if_neg h2]
      have hk2 := (hk.advances hr2.toAdvances hat2 (by omega) (hr2.stray.trans hk.stray)).2 hb3
      rw [turn_head hnext, hb3, if_neg Bool.false_ne_true]
      exact ⟨_, (head_done hk.here hbody).mpr rfl, hk2.clean, hr2.out⟩

end heads

section run

variable {cfg : Config} {x : Running} {v : Verdict}

theorem turn_follows (wild : Wild) (hm : Matches src cfg x) (hgiven : src.given < 2 ^ 63)
    (hgap : src.given < src.inLen → src.given + 2 < src.inLen) :
    Follows src wild x (turn src false cfg) := by
  cases hm with
  | head hk => exact head_follows hk hgiven hgap
  | codes hk hl hd => exact codes_follows hk hl hd

theorem run_follows (hr : Turn.Returns (turn src false) cfg v) (hm : Matches src cfg x)
    (hgiven : src.given < 2 ^ 63) (hgap : src.given < src.inLen → src.given + 2 < src.inLen) :
    Outcome src wild x v := by
  refine hr.rec_on (P := fun cfg => ∀ x, Matches src cfg x → Outcome src wild x v) ?_ ?_ x hm
  · intro cfg hdone x hm
    have h := turn_follows wild hm hgiven hgap
    rwa [hdone] at h
  · intro cfg cfg' hagain _ ih x hm
    have h := turn_follows wild hm hgiven hgap
    rw [hagain] at h
    obtain ⟨y, hy, hrest⟩ := h
    exact (ih y hy).congr hrest

end run

end LosTacOS.Gzip
