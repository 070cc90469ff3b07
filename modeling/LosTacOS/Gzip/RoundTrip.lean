import Mathlib
import LosTacOS.Gzip.Success
import LosTacOS.Gzip.Encoding

/-! Whatever choices were made in writing a file, it is decompressed to what was compressed. -/
namespace LosTacOS.Gzip

open BitStream Canonical Deflate

variable {src : Input} {lit dist : List Nat} {c n : Nat} {out : List UInt8} {last : Bool}

section words

variable {bits : Nat → Bool} {ls : List Nat} {i : Nat}

theorem lt_of_word (hi : ls.getD i 0 ≠ 0) : i < ls.length := by
  by_contra hge
  exact hi (List.getD_eq_default _ _ (Nat.le_of_not_lt hge))

theorem word_le (hle : ∀ l ∈ ls, l ≤ n) (hi : ls.getD i 0 ≠ 0) : ls.getD i 0 ≤ n := by
  have hlt := lt_of_word hi
  apply hle
  rw [List.getD_eq_getElem _ _ hlt]
  exact List.getElem_mem hlt

theorem codeword_length (ls : List Nat) (i : Nat) : (codeword ls i).length = ls.getD i 0 := by
  rw [codeword, highBits_length]

theorem decode_word (hfits : Fits 15 ls) (hle : ∀ l ∈ ls, l ≤ 15) (hi : ls.getD i 0 ≠ 0)
    (h : Begins bits c (codeword ls i)) :
    decode ls bits 15 c = some (i, (codeword ls i).length) := by
  have hl := word_le hle hi
  rw [codeword_length]
  exact (hfits.decodes (lt_of_word hi) rfl hi hl h).decode hl

end words

section items

theorem Item.length_le (out : List UInt8) (i : Item) : out.length ≤ (i.apply out).length := by
  cases i with
  | literal b => simp [Item.apply]
  | copy m =>
    rw [Item.apply, copied_length]
    exact Nat.le_add_right _ _

theorem items_length_le (out : List UInt8) (is : List Item) :
    out.length ≤ (is.foldl Item.apply out).length := by
  induction is generalizing out with
  | nil => exact Nat.le_refl _
  | cons i is ih => exact (i.length_le out).trans (ih _)

variable (hb : ∀ c, beyond src c = false)

include hb

theorem turn_symbol {c' : Nat} {t : Turn Config Verdict}
    (h : symbol src false last lit dist c out = (c', t)) :
    turn src false (.codes last lit dist c out) = t := by
  rw [turn_codes h, hb, if_neg Bool.false_ne_true]

theorem item_turn {i : Item} (hw : WidthsSound lit dist) (hi : i.Sound lit dist out)
    (hroom : (i.apply out).length ≤ src.outLen) (h : Begins (bitsOf src) c (i.bits lit dist)) :
    turn src false (.codes last lit dist c out) =
      .again (.codes last lit dist (c + (i.bits lit dist).length) (i.apply out)) := by
  cases i with
  | literal b =>
    have hdec := decode_word hw.lit_fits hw.lit_le hi h
    rw [Item.apply, List.length_append, List.length_singleton] at hroom
    rw [turn_symbol hb (symbol_literal hdec b.toNat_lt), if_pos (Nat.lt_of_succ_le hroom),
      UInt8.ofNat_toNat]
    rfl
  | copy m =>
    obtain ⟨hlen, hdist⟩ := begins_append.mp h
    obtain ⟨hlen, hextra⟩ := begins_append.mp hlen
    obtain ⟨hdist, hfar⟩ := begins_append.mp hdist
    rw [List.length_append, ← Nat.add_assoc, lowBits_length] at hdist hfar
    have hdec := decode_word hw.lit_fits hw.lit_le hi.lengthWord hlen
    have hdec' := decode_word hw.dist_fits hw.dist_le hi.distanceWord hdist
    have hread := hextra.lowFirst hi.lengthExtra
    have hread' := hfar.lowFirst hi.distanceExtra
    have hnear := Nat.not_lt.mpr hi.far
    rw [Item.apply, copied_length] at hroom
    unfold Match.far at hnear
    unfold Match.len at hroom
    rw [turn_symbol hb ((symbol_length hdec hi.length).trans
      (distance_some hdec' hi.distance (by rw [hread']))), hread, if_neg hnear,
      if_pos hroom]
    simp only [Item.bits, Item.apply, Match.len, Match.far, List.length_append, lowBits_length,
      Nat.add_assoc]

theorem items_returns {is : List Item} {v : Verdict} (hw : WidthsSound lit dist)
    (his : ItemsSound lit dist out is) (hroom : (is.foldl Item.apply out).length ≤ src.outLen)
    (h : Begins (bitsOf src) c (is.flatMap (Item.bits lit dist))) :
    Turn.Returns (turn src false) (.codes last lit dist c out) v ↔
      Turn.Returns (turn src false) (.codes last lit dist
        (c + (is.flatMap (Item.bits lit dist)).length) (is.foldl Item.apply out)) v := by
  induction is generalizing c out with
  | nil => rfl
  | cons i is ih =>
    obtain ⟨hi, his⟩ := his
    rw [List.flatMap_cons] at h ⊢
    obtain ⟨h, hrest⟩ := begins_append.mp h
    have hturn : turn src false (.codes last lit dist c out) =
        .again (.codes last lit dist (c + (i.bits lit dist).length) (i.apply out)) :=
      item_turn hb hw hi ((items_length_le _ is).trans hroom) h
    rw [Turn.returns_again hturn, ih his hroom hrest, List.length_append, Nat.add_assoc]
    rfl

def Left (src : Input) (v : Verdict) : Turn Config Verdict → Prop
  | .again cfg => Turn.Returns (turn src false) cfg v
  | .done r => r = v

omit hb in
theorem returns_of_left {cfg : Config} {v : Verdict} (h : Left src v (turn src false cfg)) :
    Turn.Returns (turn src false) cfg v := by
  cases ht : turn src false cfg with
  | again cfg' =>
    rw [ht] at h
    exact (Turn.returns_again ht).mpr h
  | done r =>
    rw [ht] at h
    cases h
    exact Turn.returns_done ht

theorem itemsBits_returns {is : List Item} {v : Verdict} (hw : WidthsSound lit dist)
    (his : ItemsSound lit dist out is) (hroom : (is.foldl Item.apply out).length ≤ src.outLen)
    (h : Begins (bitsOf src) c (itemsBits lit dist is))
    (hleft : Left src v (finish src false last (c + (itemsBits lit dist is).length)
      (is.foldl Item.apply out))) :
    Turn.Returns (turn src false) (.codes last lit dist c out) v := by
  obtain ⟨h, hend⟩ := begins_append.mp h
  rw [items_returns hb hw his hroom h]
  apply returns_of_left
  rw [turn_symbol hb (symbol_last (decode_word hw.lit_fits hw.lit_le hw.endWord hend)), Nat.add_assoc,
    ← List.length_append]
  exact hleft

end items

section codes

variable {bits : Nat → Bool} {cl ws : List Nat}

theorem WidthRun.length_lt {r : WidthRun} (h : r.Sound cl ws) : ws.length < (r.apply ws).length := by
  cases r with
  | width w => simp [WidthRun.apply]
  | again n =>
    have := h.1
    simp only [WidthRun.apply, List.length_append, List.length_replicate]
    omega
  | zeros n =>
    have := h.1
    simp only [WidthRun.apply, List.length_append, List.length_replicate]
    omega
  | manyZeros n =>
    have := h.1
    simp only [WidthRun.apply, List.length_append, List.length_replicate]
    omega

theorem runs_length_le {rs : List WidthRun} (h : RunsSound cl ws rs) :
    ws.length + rs.length ≤ (rs.foldl WidthRun.apply ws).length := by
  induction rs generalizing ws with
  | nil => exact Nat.le_refl _
  | cons r rs ih =>
    have hlt := WidthRun.length_lt h.1
    have hle := ih h.2
    rw [List.length_cons, List.foldl_cons]
    omega

theorem widthRun_read {r : WidthRun} (hfits : Fits 15 cl) (hle : ∀ l ∈ cl, l ≤ 15)
    (hr : r.Sound cl ws) (h : Begins bits c (r.bits cl)) :
    ∃ sym w, decode cl bits 15 c = some (sym, w) ∧
      extend bits sym (c + w) ws = (c + (r.bits cl).length, r.apply ws) := by
  cases r with
  | width w =>
    refine ⟨w, _, decode_word hfits hle hr.2 h, ?_⟩
    rw [extend, if_pos hr.1]
    rfl
  | again n =>
    obtain ⟨hmin, hmax, -, hword⟩ := hr
    obtain ⟨h, hn⟩ := begins_append.mp h
    refine ⟨16, _, decode_word hfits hle hword h, ?_⟩
    rw [extend, if_neg (by decide), if_pos rfl, hn.lowFirst (by omega), Nat.sub_add_cancel hmin]
    simp only [WidthRun.bits, WidthRun.apply, List.length_append, lowBits_length, Nat.add_assoc]
  | zeros n =>
    obtain ⟨hmin, hmax, hword⟩ := hr
    obtain ⟨h, hn⟩ := begins_append.mp h
    refine ⟨17, _, decode_word hfits hle hword h, ?_⟩
    rw [extend, if_neg (by decide), if_neg (by decide), if_pos rfl, hn.lowFirst (by omega),
      Nat.sub_add_cancel hmin]
    simp only [WidthRun.bits, WidthRun.apply, List.length_append, lowBits_length, Nat.add_assoc]
  | manyZeros n =>
    obtain ⟨hmin, hmax, hword⟩ := hr
    obtain ⟨h, hn⟩ := begins_append.mp h
    refine ⟨18, _, decode_word hfits hle hword h, ?_⟩
    rw [extend, if_neg (by decide), if_neg (by decide), if_neg (by decide), hn.lowFirst (by omega),
      Nat.sub_add_cancel hmin]
    simp only [WidthRun.bits, WidthRun.apply, List.length_append, lowBits_length, Nat.add_assoc]

theorem runs_read {rs : List WidthRun} {total r : Nat} (hfits : Fits 15 cl) (hle : ∀ l ∈ cl, l ≤ 15)
    (hrs : RunsSound cl ws rs) (htotal : (rs.foldl WidthRun.apply ws).length = total)
    (hr : rs.length ≤ r) (h : Begins bits c (rs.flatMap (WidthRun.bits cl))) :
    readWidths bits cl total r c ws =
      some (c + (rs.flatMap (WidthRun.bits cl)).length, rs.foldl WidthRun.apply ws) := by
  induction rs generalizing c ws r with
  | nil =>
    cases r with
    | zero => rfl
    | succ r =>
      rw [readWidths, if_neg (by rw [← htotal]; exact Nat.lt_irrefl _)]
      rfl
  | cons run rs ih =>
    obtain ⟨r, rfl⟩ : ∃ k, r = k + 1 := ⟨r - 1, by rw [List.length_cons] at hr; omega⟩
    have hmore : ws.length < total := by
      have hlt := WidthRun.length_lt hrs.1
      have hle := runs_length_le hrs.2
      rw [List.foldl_cons] at htotal
      omega
    rw [List.flatMap_cons] at h ⊢
    obtain ⟨h, hrest⟩ := begins_append.mp h
    obtain ⟨sym, w, hdec, hext⟩ := widthRun_read hfits hle hrs.1 h
    rw [readWidths, if_pos hmore, hdec, Option.bind_eq_bind, Option.bind_some]
    dsimp only
    rw [hext]
    dsimp only
    rw [ih hrs.2 htotal (Nat.le_of_succ_le_succ hr) hrest, List.length_append, Nat.add_assoc]
    rfl

theorem flatMap_lowBits_length {α : Type*} (f : α → Nat) (k : Nat) (xs : List α) :
    (xs.flatMap fun x => lowBits (f x) k).length = k * xs.length := by
  induction xs with
  | nil => rfl
  | cons x xs ih =>
    rw [List.flatMap_cons, List.length_append, ih, lowBits_length, List.length_cons]
    ring

/-- Numbers of `k` bits, one after the other. -/
theorem lowFirst_flatMap {α : Type*} {f : α → Nat} {k i : Nat} {xs : List α}
    (hf : ∀ x ∈ xs, f x < 2 ^ k) (h : Begins bits c (xs.flatMap fun x => lowBits (f x) k))
    (hi : i < xs.length) : lowFirst bits (c + k * i) k = f xs[i] := by
  induction xs generalizing c i with
  | nil => cases hi
  | cons x xs ih =>
    rw [List.flatMap_cons] at h
    obtain ⟨h, hrest⟩ := begins_append.mp h
    cases i with
    | zero => exact h.lowFirst (hf x List.mem_cons_self)
    | succ i =>
      rw [lowBits_length] at hrest
      rw [List.getElem_cons_succ, ← ih (fun y hy => hf y (List.mem_cons_of_mem x hy)) hrest
        (Nat.lt_of_succ_lt_succ hi)]
      congr 1
      ring

theorem mem_clorder {i : Nat} (hi : i < 19) : i ∈ clorder := by
  revert i
  decide

theorem codeWidths_eq {t : Codes} (ht : t.Sound)
    (h : Begins bits c ((clorder.take t.hclen).flatMap fun i => lowBits (t.cl.getD i 0) 3)) :
    codeWidths bits c t.hclen = t.cl := by
  have hlt : ∀ i ∈ clorder.take t.hclen, t.cl.getD i 0 < 2 ^ 3 := by
    intro i _
    by_cases h0 : t.cl.getD i 0 = 0
    · rw [h0]
      decide
    · have := word_le (n := 7) (fun l hl => Nat.le_of_lt_succ (ht.cl_lt l hl)) h0
      omega
  apply List.ext_getElem
  · rw [codeWidths, List.length_map, List.length_range, ht.cl_length]
  · intro i hi hi'
    rw [codeWidths, List.length_map, List.length_range] at hi
    have hmem := mem_clorder hi
    have hidx := List.idxOf_lt_length_of_mem hmem
    have hget : clorder[clorder.idxOf i] = i := List.getElem_idxOf hidx
    have hval : t.cl[i] = t.cl.getD i 0 := (List.getD_eq_getElem _ _ hi').symm
    simp only [codeWidths, List.getElem_map, List.getElem_range, hval]
    split
    · rename_i hin
      have htake : clorder.idxOf i < (clorder.take t.hclen).length := by
        rw [List.length_take]
        omega
      rw [lowFirst_flatMap hlt h htake, List.getElem_take, hget]
    · rename_i hout
      refine (ht.rest i ?_).symm
      rw [List.mem_drop_iff_getElem]
      exact ⟨clorder.idxOf i - t.hclen, by omega, by
        simpa only [Nat.add_sub_cancel' (Nat.le_of_not_lt hout)] using hget⟩

theorem tables_eq {t : Codes} (ht : t.Sound) (h : Begins bits c t.bits) :
    ∃ s, tables bits c = some ⟨t.lit, t.dist, c + t.bits.length, s⟩ := by
  obtain ⟨h, hruns⟩ := begins_append.mp h
  obtain ⟨h, hcl⟩ := begins_append.mp h
  obtain ⟨h, hclen⟩ := begins_append.mp h
  obtain ⟨hlit, hdist⟩ := begins_append.mp h
  simp only [List.length_append, lowBits_length] at hruns hcl hclen hdist
  obtain ⟨hmin, hmax⟩ := ht.hclen
  obtain ⟨hlmin, hlmax⟩ := ht.lit_length
  obtain ⟨hdmin, hdmax⟩ := ht.dist_length
  have hlit := hlit.lowFirst (by omega)
  have hdist := hdist.lowFirst (by omega)
  have hclen := hclen.lowFirst (by omega)
  have hcode := codeWidths_eq ht hcl
  have hle : ∀ l ∈ t.cl, l ≤ 15 := fun l hl => by
    have := ht.cl_lt l hl
    omega
  have htotal : (t.runs.foldl WidthRun.apply []).length = t.lit.length + t.dist.length := by
    rw [ht.widths, List.length_append]
  have hfuel := runs_length_le ht.runs
  rw [htotal, List.length_nil, Nat.zero_add] at hfuel
  have hplace : (clorder.take t.hclen).length = t.hclen := List.length_take_of_le hmax
  rw [flatMap_lowBits_length, hplace] at hruns
  have hread := runs_read ht.cl_fits hle ht.runs htotal hfuel hruns
  have hlen : t.bits.length = 5 + 5 + 4 + 3 * t.hclen +
      (t.runs.flatMap (WidthRun.bits t.cl)).length := by
    simp only [Codes.bits, List.length_append, lowBits_length, flatMap_lowBits_length, hplace]
  have hc10 : c + (5 + 5) = c + 10 := rfl
  have hc14 : c + (5 + 5 + 4) = c + 14 := rfl
  have hc : c + (5 + 5 + 4 + 3 * t.hclen) = c + 14 + 3 * t.hclen := by omega
  rw [hc10] at hclen
  rw [hc14] at hcode
  rw [hc] at hread
  have hsmall : (t.lit ++ t.dist).length ≤ 320 := by
    rw [List.length_append]
    omega
  unfold tables tablesFrom
  simp only [hlit, hdist, hclen, Nat.sub_add_cancel hlmin, Nat.sub_add_cancel hdmin,
    Nat.sub_add_cancel hmin, hcode, hread, ht.widths, Option.bind_eq_bind, Option.bind_some,
    if_pos hsmall, List.take_left, List.drop_left, List.take_length]
  rw [hlen]
  have hplace : c + 14 + 3 * t.hclen + (t.runs.flatMap (WidthRun.bits t.cl)).length =
      c + (5 + 5 + 4 + 3 * t.hclen + (t.runs.flatMap (WidthRun.bits t.cl)).length) := by omega
  rw [hplace]
  exact ⟨_, rfl⟩

end codes

section blocks

theorem widths_fixedLengths : widths fixedLengths =
    List.replicate 144 8 ++ List.replicate 112 9 ++ List.replicate 24 7 ++ List.replicate 8 8 := by
  simp only [widths, fixedLengths, List.map_append, List.map_replicate, UInt8.reduceToNat]

theorem widths_fixedDistances : widths fixedDistances = List.replicate 32 5 := by
  simp only [widths, fixedDistances, List.map_replicate, UInt8.reduceToNat]

theorem getD_replicate_append (n x i : Nat) (l : List Nat) :
    (List.replicate n x ++ l).getD i 0 = if i < n then x else l.getD (i - n) 0 := by
  split
  · rename_i hlt
    rw [List.getD_append _ _ _ _ (by simpa using hlt), List.getD_replicate _ hlt]
  · rename_i hge
    rw [List.getD_append_right _ _ _ _ (by simpa using hge), List.length_replicate]

theorem fixedLengths_word {i : Nat} (hi : i < 288) : (widths fixedLengths).getD i 0 ≠ 0 := by
  rw [widths_fixedLengths]
  simp only [List.append_assoc, getD_replicate_append]
  split_ifs
  · decide
  · decide
  · decide
  · rw [List.getD_replicate _ (by omega)]
    decide

theorem fixed_sound : WidthsSound (widths fixedLengths) (widths fixedDistances) where
  lit_fits := by
    rw [widths_fixedLengths]
    simp only [Fits, List.map_append, List.map_replicate, List.sum_append, List.sum_replicate]
    decide
  dist_fits := by
    rw [widths_fixedDistances]
    simp only [Fits, List.map_replicate, List.sum_replicate]
    decide
  lit_le := by
    rw [widths_fixedLengths]
    intro l hl
    simp only [List.mem_append, List.mem_replicate] at hl
    omega
  dist_le := by
    rw [widths_fixedDistances]
    intro l hl
    rw [List.mem_replicate] at hl
    omega
  endWord := fixedLengths_word (by decide)

theorem bytes_of_bits {bytes : List UInt8} {p i : Nat} (hfit : p + bytes.length ≤ src.inLen)
    (h : Begins (bitsOf src) (8 * p) (bytes.flatMap fun b => lowBits b.toNat 8))
    (hi : i < bytes.length) : src.input (p + i) = bytes[i] := by
  have hread := lowFirst_flatMap (fun b _ => b.toNat_lt) h hi
  rw [← Nat.mul_add] at hread
  exact UInt8.toNat_inj.mp ((lowFirst_byte (by omega)).symm.trans hread)

/-- The place of the length of a stored block, and the length that is read there. -/
theorem storedLen_read {p len : Nat} (hfit : p + 2 ≤ src.inLen) (hlen : len < 2 ^ 16)
    (h : Begins (bitsOf src) (8 * p) (lowBits len 16)) : storedLen src p = len := by
  have hread := h.lowFirst hlen
  have hlow : lowFirst (bitsOf src) (8 * p) 8 = (src.input p).toNat := lowFirst_byte (by omega)
  have hhigh : lowFirst (bitsOf src) (8 * (p + 1)) 8 = (src.input (p + 1)).toNat :=
    lowFirst_byte (by omega)
  have hsplit := lowFirst_add (bitsOf src) (8 * p) 8 8
  have hnext : 8 * p + 8 = 8 * (p + 1) := by ring
  rw [hnext, hlow, hhigh] at hsplit
  exact hsplit.symm.trans hread

theorem stored_read {pad : List Bool} {bytes : List UInt8} (hpad : pad.length < 8)
    (hplace : (c + pad.length) % 8 = 0) (hlen : bytes.length < 65536)
    (hroom : (out ++ bytes).length ≤ src.outLen)
    (h : Begins (bitsOf src) c (Block.body (.stored pad bytes)))
    (hend : c + (Block.body (.stored pad bytes)).length ≤ 8 * src.inLen) :
    (stored src false last c out).2 =
      finish src false last (c + (Block.body (.stored pad bytes)).length) (out ++ bytes) := by
  obtain ⟨p, hp⟩ : ∃ p, c + pad.length = 8 * p := ⟨(c + pad.length) / 8, by omega⟩
  have hp' : p = (c + 7) / 8 := by omega
  obtain ⟨h, hbytes⟩ := begins_append.mp h
  obtain ⟨h, -⟩ := begins_append.mp h
  obtain ⟨-, hlength⟩ := begins_append.mp h
  have hbits : (bytes.flatMap fun b => lowBits b.toNat 8).length = 8 * bytes.length :=
    flatMap_lowBits_length _ _ _
  simp only [Block.body, List.length_append, lowBits_length, hbits] at hbytes hend ⊢
  have hhead : c + (pad.length + 16 + 16) = 8 * (p + 4) := by omega
  have hbody : c + (pad.length + 16 + 16 + 8 * bytes.length) = 8 * (p + 4 + bytes.length) := by
    omega
  rw [hhead] at hbytes
  rw [hbody] at hend ⊢
  rw [hp] at hlength
  have hl := storedLen_read (by omega) hlen hlength
  rw [List.length_append] at hroom
  have hn : bytes.length = min (storedLen src p) (src.outLen - out.length) := by omega
  rw [stored_copied hp' (by omega) hn]
  have hcopy : (List.range bytes.length).map (fun i => src.input (p + 4 + i)) = bytes := by
    apply List.ext_getElem
    · rw [List.length_map, List.length_range]
    · intro i _ hi
      rw [List.getElem_map, List.getElem_range]
      exact bytes_of_bits (by omega) hbytes hi
  rw [hcopy]

theorem Block.kind_lt (b : Block) : b.kind < 2 ^ 2 := by
  cases b <;> simp [Block.kind]

theorem Block.length_le (out : List UInt8) (b : Block) : out.length ≤ (b.apply out).length := by
  cases b with
  | stored pad bytes => simp [Block.apply]
  | fixed items => exact items_length_le out items
  | dynamic t items => exact items_length_le out items

theorem blocks_length_le (out : List UInt8) (bs : List Block) :
    out.length ≤ (bs.foldl Block.apply out).length := by
  induction bs generalizing out with
  | nil => exact Nat.le_refl _
  | cons b bs ih => exact (b.length_le out).trans (ih _)

variable (hb : ∀ c, beyond src c = false)

include hb

theorem block_returns {b : Block} {v : Verdict} (hs : b.Sound c out)
    (hroom : (b.apply out).length ≤ src.outLen) (h : Begins (bitsOf src) c (b.bits last))
    (hend : c + (b.bits last).length ≤ 8 * src.inLen)
    (hleft : Left src v (finish src false last (c + (b.bits last).length) (b.apply out))) :
    Turn.Returns (turn src false) (.head c out) v := by
  have hlength : c + (b.bits last).length = c + 3 + b.body.length := by
    simp only [Block.bits, List.length_append, lowBits_length, List.length_singleton]
    omega
  rw [hlength] at hend hleft
  obtain ⟨h, hbody⟩ := begins_append.mp h
  obtain ⟨hlast, hkind⟩ := begins_append.mp h
  simp only [List.length_append, lowBits_length, List.length_singleton] at hbody hkind
  have hlast : bitsOf src c = last := begins_iff.mp hlast 0 Nat.one_pos
  have hkind : lowFirst (bitsOf src) (c + 1) 2 = b.kind := hkind.lowFirst b.kind_lt
  apply returns_of_left
  have hnext : ∀ x, next src false (.head c out) = x → turn src false (.head c out) = x.2 := by
    rintro ⟨c', y⟩ hx
    rw [turn_head hx, hb, if_neg Bool.false_ne_true]
  rw [hnext _ rfl, next, hlast]
  cases b with
  | stored pad bytes =>
    obtain ⟨hpad, hplace, hlen⟩ := hs
    replace hkind : lowFirst (bitsOf src) (c + 1) 2 = 0 := hkind
    rw [if_pos hkind, stored_read hpad hplace hlen hroom hbody hend]
    exact hleft
  | fixed items =>
    replace hkind : lowFirst (bitsOf src) (c + 1) 2 = 1 := hkind
    rw [if_neg (by omega), if_pos hkind]
    exact itemsBits_returns hb fixed_sound hs hroom hbody hleft
  | dynamic t items =>
    obtain ⟨ht, hs⟩ := hs
    obtain ⟨hcodes, hitems⟩ := begins_append.mp hbody
    obtain ⟨s, hs'⟩ := tables_eq ht hcodes
    replace hkind : lowFirst (bitsOf src) (c + 1) 2 = 2 := hkind
    rw [if_neg (by omega), if_neg (by omega), if_pos hkind, hs']
    rw [Block.body, List.length_append, ← Nat.add_assoc] at hleft
    exact itemsBits_returns hb ht.toWidthsSound hs hroom hitems hleft

theorem stream_returns {bs : List Block} (hs : StreamSound c out bs)
    (hroom : (bs.foldl Block.apply out).length ≤ src.outLen)
    (h : Begins (bitsOf src) c (streamBits bs))
    (hend : c + (streamBits bs).length ≤ 8 * src.inLen) :
    Turn.Returns (turn src false) (.head c out)
      (.complete (c + (streamBits bs).length) (bs.foldl Block.apply out)) := by
  induction bs generalizing c out with
  | nil => exact hs.elim
  | cons b bs ih =>
    cases bs with
    | nil => exact block_returns hb hs hroom h hend rfl
    | cons b' bs =>
      obtain ⟨hs, hrest⟩ := hs
      obtain ⟨h, hbits⟩ := begins_append.mp h
      rw [streamBits, List.length_append, ← Nat.add_assoc] at hend ⊢
      exact block_returns hb hs ((blocks_length_le _ _).trans hroom) h (by omega) (ih hrest hroom hbits hend)

end blocks

section header

variable {src : Source} {m : Member} {o r : Nat} {xs ys : List UInt8}

def Has (src : Source) (o : Nat) (xs : List UInt8) : Prop :=
  ∀ i < xs.length, src.bytes (o + i) = xs.getD i 0

theorem has_append : Has src o (xs ++ ys) ↔ Has src o xs ∧ Has src (o + xs.length) ys := by
  unfold Has
  rw [List.length_append]
  constructor
  · intro h
    constructor
    · intro i hi
      rw [h i (by omega), List.getD_append _ _ _ _ hi]
    · intro i hi
      rw [Nat.add_assoc, h _ (by omega), List.getD_append_right _ _ _ _ (by omega),
        Nat.add_sub_cancel_left]
  · rintro ⟨hxs, hys⟩ i hi
    by_cases hlt : i < xs.length
    · rw [hxs i hlt, List.getD_append _ _ _ _ hlt]
    · have hrest := hys (i - xs.length) (by omega)
      have hi' : o + xs.length + (i - xs.length) = o + i := by omega
      rw [hi'] at hrest
      rw [List.getD_append_right _ _ _ _ (by omega), hrest]

theorem skipText_eq {t : List UInt8} (ht : 0 ∉ t) (h : Has src o (t ++ [0]))
    (hfit : o + t.length < src.size) (hr : t.length < r) :
    skipText src r ⟨o, false⟩ = ⟨o + t.length, false⟩ := by
  induction t generalizing o r with
  | nil =>
    obtain ⟨r, rfl⟩ : ∃ k, r = k + 1 := ⟨r - 1, by rw [List.length_nil] at hr; omega⟩
    have hzero : src.bytes o = 0 := h 0 Nat.one_pos
    rw [List.length_nil] at hfit
    simp [skipText, hzero]
  | cons b t ih =>
    obtain ⟨r, rfl⟩ : ∃ k, r = k + 1 := ⟨r - 1, by rw [List.length_cons] at hr; omega⟩
    rw [List.length_cons] at hfit hr
    rw [List.mem_cons, not_or] at ht
    obtain ⟨hb, ht⟩ := ht
    have hbyte : src.bytes o = b := h 0 (Nat.zero_lt_succ _)
    have h : Has src o ([b] ++ (t ++ [0])) := h
    have hrest : Has src (o + 1) (t ++ [0]) := (has_append.mp h).2
    have hne : src.bytes o ≠ 0 := by
      rw [hbyte]
      exact Ne.symm hb
    have hlt : o < src.size := by omega
    have hnext := ih ht hrest (by omega) (Nat.lt_of_succ_lt_succ hr)
    simp only [skipText, hlt, if_true, hne, ne_eq, not_false_eq_true, Bool.false_or,
      Nat.not_le.mpr hlt, decide_false, hnext, List.length_cons]
    congr 1
    omega

theorem Member.flags_bits (m : Member) :
    (m.flags &&& 4 ≠ 0 ↔ m.extra.isSome) ∧ (m.flags &&& 8 ≠ 0 ↔ m.name.isSome) ∧
      (m.flags &&& 16 ≠ 0 ↔ m.comment.isSome) ∧ (m.flags &&& 2 ≠ 0 ↔ m.check.isSome) := by
  unfold Member.flags
  generalize m.text = t
  generalize m.extra.isSome = e
  generalize m.name.isSome = n
  generalize m.comment.isSome = k
  generalize m.check.isSome = k'
  revert t e n k k'
  decide

theorem textField_skipped {t : Option (List UInt8)} {flag : Prop} [Decidable flag]
    (hflag : flag ↔ t.isSome) (ht : ∀ x, t = some x → 0 ∉ x) (h : Has src o (Member.textField t))
    (hfit : o + (Member.textField t).length ≤ src.size) :
    (if flag then
        ⟨(skipText src src.size ⟨o, false⟩).offset + 1, (skipText src src.size ⟨o, false⟩).overread⟩
      else ⟨o, false⟩ : Cursor) = ⟨o + (Member.textField t).length, false⟩ := by
  cases t with
  | none =>
    rw [if_neg (by simp [hflag])]
    rfl
  | some x =>
    simp only [Member.textField, List.length_append, List.length_singleton] at hfit ⊢
    rw [if_pos (by simp [hflag]), skipText_eq (ht x rfl) h (by omega) (by omega), Nat.add_assoc]

theorem extraField_length {x : List UInt8} (hx : x.length < 65536)
    (h : Has src o [UInt8.ofNat x.length, UInt8.ofNat (x.length / 256)]) :
    (src.bytes o).toNat ||| (src.bytes (o + 1)).toNat <<< 8 = x.length := by
  have hlow : src.bytes o = UInt8.ofNat x.length := h 0 (Nat.zero_lt_succ _)
  have hhigh : src.bytes (o + 1) = UInt8.ofNat (x.length / 256) :=
    h 1 (Nat.succ_lt_succ (Nat.zero_lt_succ _))
  have hlt : (UInt8.ofNat x.length).toNat < 2 ^ 8 := UInt8.toNat_lt _
  rw [hlow, hhigh, Nat.or_comm, ← Nat.shiftLeft_add_eq_or_of_lt hlt, Nat.shiftLeft_eq,
    UInt8.toNat_ofNat', UInt8.toNat_ofNat']
  omega

variable (hm : m.Sound) (hsize : src.size = m.file.length) (h : Has src 0 m.file)

include hm hsize h

theorem skipHeader_eq : skipHeader src = some ⟨m.header.length, false⟩ := by
  obtain ⟨h, -⟩ := has_append.mp h
  obtain ⟨hhead, -⟩ := has_append.mp h
  obtain ⟨hall, hcheck⟩ := has_append.mp hhead
  obtain ⟨hall, hcomment⟩ := has_append.mp hall
  obtain ⟨hall, hname⟩ := has_append.mp hall
  obtain ⟨hall, hextra⟩ := has_append.mp hall
  obtain ⟨hfirst, -⟩ := has_append.mp hall
  have hflags : src.bytes 3 = m.flags := hfirst 3 (by simp)
  have hlen : m.header.length = 10 + m.extraField.length + (Member.textField m.name).length +
      (Member.textField m.comment).length + (m.check.getD []).length := by
    simp only [Member.header, List.length_append, hm.stamp, List.length_cons, List.length_nil]
  have hbig : m.header.length ≤ src.size := by
    rw [hsize, Member.file, List.length_append, List.length_append]
    omega
  simp only [List.length_append, hm.stamp, List.length_cons, List.length_nil, Nat.zero_add,
    Nat.reduceAdd] at hextra hname hcomment hcheck
  obtain ⟨hx, hn, hk, hc⟩ := m.flags_bits
  have hskip : (if m.flags &&& 4 ≠ 0 then
      if 10 + 2 > src.size then none
      else some ⟨10 + 2 + ((src.bytes 10).toNat ||| (src.bytes (10 + 1)).toNat <<< 8),
        decide (src.size ≤ 3) || decide (src.size ≤ 10 + 1)⟩
      else some ⟨10, decide (src.size ≤ 3)⟩ : Option Cursor) =
        some ⟨10 + m.extraField.length, false⟩ := by
    have h3 : decide (src.size ≤ 3) = false := decide_eq_false (by omega)
    rw [h3]
    cases he : m.extra with
    | none =>
      rw [if_neg (by simp [hx, he]), Member.extraField, he]
      rfl
    | some x =>
      have hfield : m.extraField = [UInt8.ofNat x.length, UInt8.ofNat (x.length / 256)] ++ x := by
        rw [Member.extraField, he]
      rw [hfield] at hextra hlen ⊢
      obtain ⟨hextra, -⟩ := has_append.mp hextra
      rw [List.length_append, List.length_cons, List.length_cons, List.length_nil] at hlen ⊢
      rw [if_pos (by simp [hx, he]), if_neg (by omega), extraField_length (hm.extra x he) hextra,
        decide_eq_false (by omega), Bool.false_or, Nat.add_assoc]
  unfold skipHeader
  rw [hflags]
  dsimp only
  rw [hskip]
  simp only [Option.map_some]
  rw [textField_skipped hn hm.name hname (by omega),
    textField_skipped hk hm.comment hcomment (by omega), hlen]
  cases hcheck' : m.check with
  | none =>
    rw [if_neg (by simp [hc, hcheck'])]
    rfl
  | some x =>
    rw [if_pos (by simp [hc, hcheck']), Option.getD_some, hm.check x hcheck']

end header

/-- Whatever choices were made in writing a file, enough fuel decompresses it to what was
compressed. It is a success unless that is nothing. -/
theorem decompress_file {src : Source} {m : Member} {capacity : Nat} (wild : Wild) (hm : m.Sound)
    (hsize : src.size = m.file.length) (h : Has src 0 m.file) (hroom : m.data.length ≤ capacity) :
    ∃ n, decompress wild src capacity n = some ⟨0 < m.data.length, m.data, false, false⟩ := by
  have hk := skipHeader_eq hm hsize h
  obtain ⟨hfront, -⟩ := has_append.mp h
  obtain ⟨hhead, hbytes⟩ := has_append.mp hfront
  have hlen : m.file.length = m.header.length + (pack (streamBits m.blocks)).length + 8 := by
    rw [Member.file, List.length_append, List.length_append, hm.trailer]
  have hframed : Framed src ⟨m.header.length, false⟩ := ⟨hk, by dsimp only; omega⟩
  have hgzip : isGzip src = true := by
    have h0 : src.bytes 0 = 0x1f := hhead 0 (by simp [Member.header])
    have h1 : src.bytes 1 = 0x8b := hhead 1 (by simp [Member.header])
    have hsmall : ¬ src.size < 10 := by
      rw [hsize, hlen, Member.header]
      simp only [List.length_append, hm.stamp, List.length_cons, List.length_nil]
      omega
    simp [isGzip, h0, h1, hsmall]
  have hin := hframed.inLen capacity
  have hinLen : (body src m.header.length capacity).inLen = (pack (streamBits m.blocks)).length := by
    rw [hin]
    dsimp only
    omega
  have hstream : Begins (bitsOf (body src m.header.length capacity)) 0 (streamBits m.blocks) := by
    apply begins_pack (Nat.le_of_eq hinLen.symm)
    intro i hi
    rw [Nat.zero_add] at hbytes
    exact hbytes i hi
  have hrun := stream_returns (hframed.passed capacity) hm.stream hroom hstream (by
    rw [hinLen, pack_length]
    omega)
  obtain ⟨s', hs', hclean, hout⟩ := outcome wild hrun
  rw [decompress_begun hgzip hk hframed.lt]
  refine ⟨s', hs', ?_⟩
  rw [hclean.1, hclean.2, hout]
  rfl

section sample

def sampleCodes : Codes where
  lit := List.replicate 97 0 ++ [1] ++ List.replicate 158 0 ++ [1]
  dist := [0]
  cl := [2, 2] ++ List.replicate 16 0 ++ [1]
  hclen := 18
  runs := [.manyZeros 97, .width 1, .manyZeros 138, .manyZeros 20, .width 1, .width 0]

def sample : Member where
  text := true
  stamp := [0, 0, 0, 0, 0, 3]
  extra := some [1, 2, 3]
  name := some [110]
  comment := none
  check := some [7, 7]
  blocks := [.dynamic sampleCodes [.literal 97, .literal 97],
    .fixed [.literal 98, .copy ⟨0, 0, 0, 0⟩], .stored (List.replicate 7 true) [99, 100]]
  trailer := List.replicate 8 0

theorem sample_fit : ((Fits 15 sampleCodes.lit ∧ Fits 15 sampleCodes.dist ∧
      Fits 15 sampleCodes.cl) ∧
    (∀ l ∈ sampleCodes.lit, l ≤ 15) ∧ (∀ l ∈ sampleCodes.cl, l < 8) ∧
    (∀ i ∈ clorder.drop sampleCodes.hclen, sampleCodes.cl.getD i 0 = 0) ∧
    sampleCodes.runs.foldl WidthRun.apply [] = sampleCodes.lit ++ sampleCodes.dist) ∧
    sample.file.length < 2 ^ 63 ∧ sample.data = [97, 97, 98, 98, 98, 98, 99, 100] ∧
    (0 + (Block.bits false (.dynamic sampleCodes [.literal 97, .literal 97])).length +
      (Block.bits false (.fixed [.literal 98, .copy ⟨0, 0, 0, 0⟩])).length + 3 + 7) % 8 = 0 := by
  unfold Fits
  decide +kernel

theorem sampleCodes_word {i : Nat} (hi : i = 97 ∨ i = 256) : sampleCodes.lit.getD i 0 ≠ 0 := by
  unfold sampleCodes
  dsimp only
  simp only [List.append_assoc, getD_replicate_append, List.singleton_append]
  obtain rfl | rfl := hi
  · decide
  · simp only [Nat.reduceLT, Nat.reduceSub, if_false]
    decide

theorem sampleCodes_sound : sampleCodes.Sound where
  lit_fits := sample_fit.1.1.1
  dist_fits := sample_fit.1.1.2.1
  lit_le := sample_fit.1.2.1
  dist_le := by
    intro l hl
    rw [List.mem_singleton.mp hl]
    exact Nat.zero_le 15
  endWord := sampleCodes_word (.inr rfl)
  lit_length := by
    simp only [sampleCodes, List.length_append, List.length_replicate, List.length_singleton]
    decide
  dist_length := by decide
  cl_length := rfl
  cl_lt := sample_fit.1.2.2.1
  cl_fits := sample_fit.1.1.2.2
  hclen := by decide
  rest := sample_fit.1.2.2.2.1
  runs := ⟨⟨by decide, by decide, by decide⟩, ⟨by decide, by decide⟩,
    ⟨by decide, by decide, by decide⟩, ⟨by decide, by decide, by decide⟩, ⟨by decide, by decide⟩,
    ⟨by decide, by decide⟩, trivial⟩
  widths := sample_fit.1.2.2.2.2

theorem sample_stream : StreamSound 0 [] sample.blocks := by
  refine ⟨⟨sampleCodes_sound, ?_, ?_, trivial⟩, ⟨?_, ?_, trivial⟩, ?_⟩
  · exact sampleCodes_word (.inl rfl)
  · exact sampleCodes_word (.inl rfl)
  · exact fixedLengths_word (by decide)
  · exact ⟨by decide, by decide, fixedLengths_word (by decide), by decide, by decide,
      widths_fixedDistances ▸ Nat.succ_ne_zero 4, by decide⟩
  · refine ⟨by decide, ?_, by decide⟩
    rw [List.length_replicate]
    exact sample_fit.2.2.2

theorem sample_sound : sample.Sound where
  stamp := rfl
  extra := by
    rintro x ⟨⟩
    decide
  name := by
    rintro t ⟨⟩
    decide
  comment := by
    rintro t ⟨⟩
  check := by
    rintro x ⟨⟩
    rfl
  stream := sample_stream
  trailer := rfl

def sampleFile : Source where
  bytes i := sample.file.getD i 0
  size := sample.file.length
  small := sample_fit.2.1

theorem sampleFile_has : Has sampleFile 0 sample.file := by
  intro i _
  rw [Nat.zero_add]
  rfl

theorem decompress_sample : ∃ n, decompress eager sampleFile 8 n =
    some ⟨true, [97, 97, 98, 98, 98, 98, 99, 100], false, false⟩ := by
  have hdata := sample_fit.2.2.1
  have hrun := decompress_file eager sample_sound rfl sampleFile_has
    (Nat.le_of_eq (congrArg List.length hdata))
  rw [hdata] at hrun
  exact hrun

end sample

end LosTacOS.Gzip
