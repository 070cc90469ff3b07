import LosTacOS.Fat.Walks
import Mathlib.Data.List.DropRight

/-! Which entry of a directory a name opens, and under which name the listing shows it. -/
namespace LosTacOS.Fat

open Turn

section forms

variable {s t base ext base' ext' field name : List UInt8} {n : Nat}

def stripped (s : List UInt8) : List UInt8 := s.rdropWhile (· = 32)

theorem stripped_append_blanks (s : List UInt8) (n : Nat) :
    stripped (s ++ List.replicate n 32) = stripped s := by
  induction n with
  | zero => simp [stripped]
  | succ n ih =>
    rw [List.replicate_succ', ← List.append_assoc, stripped, List.rdropWhile_concat_pos _ _ _ (by simp)]
    exact ih

theorem stripped_split (s : List UInt8) :
    s = stripped s ++ List.replicate (s.length - (stripped s).length) 32 := by
  have hsplit : stripped s ++ s.rtakeWhile (· = 32) = s := List.rdropWhile_append_rtakeWhile
  have hblank : ∀ b ∈ s.rtakeWhile (· = 32), b = 32 :=
    fun b hb => by simpa using List.mem_rtakeWhile_imp hb
  have hlen := congrArg List.length hsplit
  rw [List.length_append] at hlen
  rw [List.eq_replicate_of_mem hblank] at hsplit
  conv_lhs => rw [← hsplit]
  congr 2
  omega

/-- Fields of one length are told apart by what stands before the blanks. -/
theorem stripped_inj (hlen : s.length = t.length) (h : stripped s = stripped t) : s = t := by
  rw [stripped_split s, stripped_split t, h, hlen]

def Blanks (s : List UInt8) : Prop := ∃ w n, s = w ++ List.replicate n 32 ∧ 32 ∉ w

theorem Blanks.unpadded (h : Blanks s) : unpadded s = stripped s := by
  obtain ⟨w, n, rfl, hw⟩ := h
  have hstop : (List.replicate n (32 : UInt8)).takeWhile (· ≠ 32) = [] := by
    cases n with
    | zero => rfl
    | succ n => rfl
  have hall : ∀ b ∈ w, decide (b ≠ 32) = true := fun b hb =>
    decide_eq_true fun he => hw (he ▸ hb)
  have hself : stripped w = w := by
    rw [stripped, List.rdropWhile_eq_self_iff]
    intro hne hlast
    exact hw (of_decide_eq_true hlast ▸ List.getLast_mem hne)
  rw [stripped_append_blanks, hself, Fat.unpadded, List.takeWhile_append_of_pos hall, hstop,
    List.append_nil]

section dots

variable {l r : List UInt8}

theorem ne_dot (h : 46 ∉ l) : ∀ b ∈ l, decide (b ≠ (46 : UInt8)) = true :=
  fun _ hb => decide_eq_true fun he => h (he ▸ hb)

theorem takeWhile_dot (h : 46 ∉ l) : (l ++ 46 :: r).takeWhile (· ≠ 46) = l := by
  rw [List.takeWhile_append_of_pos (ne_dot h)]
  simp

theorem dropWhile_dot (h : 46 ∉ l) : (l ++ 46 :: r).dropWhile (· ≠ 46) = 46 :: r := by
  rw [List.dropWhile_append_of_pos (ne_dot h)]
  simp

end dots

/-- A base and an extension are read off the dotted name. -/
theorem dotted_inj (hb : 46 ∉ base) (hb' : 46 ∉ base')
    (h : dotted base ext = dotted base' ext') : base = base' ∧ ext = ext' := by
  unfold dotted at h
  split at h
  · rename_i hnil
    split at h
    · rename_i hnil'
      exact ⟨h, hnil.trans hnil'.symm⟩
    · rw [h] at hb
      simp at hb
  · split at h
    · rw [← h] at hb'
      simp at hb'
    · have hbase := congrArg (List.takeWhile (· ≠ (46 : UInt8))) h
      rw [takeWhile_dot hb, takeWhile_dot hb'] at hbase
      subst hbase
      exact ⟨rfl, (List.cons.inj (List.append_cancel_left h)).2⟩

/-- A name with its letters in upper case, the part before the first dot cut to eight characters and
what follows the dot to three. -/
def cutName (name : List UInt8) : List UInt8 :=
  dotted (stripped (((name.takeWhile (· ≠ 46)).take 8).map upper))
    (stripped ((((name.dropWhile (· ≠ 46)).drop 1).take 3).map upper))

theorem padded_length (n : Nat) (s : List UInt8) : (padded n s).length = n := by
  simp only [padded, List.length_append, List.length_map, List.length_take, List.length_replicate]
  omega

theorem short_take (name : List UInt8) :
    (filenameToShort name).take 8 = padded 8 (name.takeWhile (· ≠ 46)) := by
  rw [filenameToShort, List.take_append_of_le_length (by rw [padded_length]),
    List.take_of_length_le (by rw [padded_length])]

theorem short_drop (name : List UInt8) :
    (filenameToShort name).drop 8 = padded 3 ((name.dropWhile (· ≠ 46)).drop 1) := by
  rw [filenameToShort, List.drop_append_of_le_length (by rw [padded_length]),
    List.drop_of_length_le (by rw [padded_length]), List.nil_append]

theorem short_length (name : List UInt8) : (filenameToShort name).length = 11 := by
  rw [filenameToShort, List.length_append, padded_length, padded_length]

theorem cutName_eq (name : List UInt8) : cutName name =
    dotted (stripped ((filenameToShort name).take 8)) (stripped ((filenameToShort name).drop 8)) := by
  rw [short_take, short_drop, padded, padded, stripped_append_blanks, stripped_append_blanks]
  rfl

theorem stripped_sub (s : List UInt8) : stripped s ⊆ s := (List.rdropWhile_prefix _ _).subset

theorem cut_base_no_dot (name : List UInt8) : 46 ∉ stripped ((filenameToShort name).take 8) := by
  intro hmem
  rw [short_take, padded, stripped_append_blanks] at hmem
  obtain ⟨b, hb, hup⟩ := List.mem_map.mp (stripped_sub _ hmem)
  have hne : b ≠ 46 := by simpa using List.mem_takeWhile_imp (List.mem_of_mem_take hb)
  exact upper_ne_dot hne hup

/-- A stored name as it should be: blanks only behind its two parts, no dot in the first of them, and
neither lower-case letters nor zeros. -/
structure EightThree (field : List UInt8) : Prop where
  length : field.length = 11
  base : Blanks (field.take 8)
  ext : Blanks (field.drop 8)
  dot : 46 ∉ field.take 8
  capital : ∀ b ∈ field, upper b = b
  zero : 0 ∉ field

theorem EightThree.rendering_eq (h : EightThree field) :
    rendering field = dotted (stripped (field.take 8)) (stripped (field.drop 8)) := by
  have hzero : ∀ b ∈ dotted (stripped (field.take 8)) (stripped (field.drop 8)), b ≠ 0 := by
    intro b hb he
    subst he
    unfold dotted at hb
    split at hb
    · exact h.zero (List.mem_of_mem_take (stripped_sub _ hb))
    · rcases List.mem_append.mp hb with hb | hb
      · exact h.zero (List.mem_of_mem_take (stripped_sub _ hb))
      · rcases List.mem_cons.mp hb with hb | hb
        · cases hb
        · exact h.zero (List.mem_of_mem_drop (stripped_sub _ hb))
  rw [rendering, h.base.unpadded, h.ext.unpadded]
  exact List.takeWhile_eq_self_iff.mpr fun b hb => decide_eq_true (hzero b hb)

/-- Such a stored name is the short form of exactly the names whose cut is its rendering. -/
theorem EightThree.short_iff (h : EightThree field) :
    filenameToShort name = field ↔ rendering field = cutName name := by
  rw [h.rendering_eq, cutName_eq]
  constructor
  · rintro rfl
    rfl
  · intro he
    obtain ⟨hbase, hext⟩ := dotted_inj (fun hm => h.dot (stripped_sub _ hm)) (cut_base_no_dot name) he
    have hlen := h.length
    have hlen' := short_length name
    have htake := stripped_inj (s := field.take 8) (by simp [hlen, hlen']) hbase
    have hdrop := stripped_inj (s := field.drop 8) (by simp [hlen, hlen']) hext
    rw [← List.take_append_drop 8 field, htake, hdrop, List.take_append_drop]

theorem map_upper_eq (h : ∀ b ∈ s, upper b = b) : s.map upper = s :=
  (List.map_congr_left h).trans s.map_id

/-- Under the rendering of such a stored name the entry is searched for. -/
theorem EightThree.short_rendering (h : EightThree field) :
    filenameToShort (rendering field) = field := by
  have hlen := h.length
  have hno : 46 ∉ stripped (field.take 8) := fun hm => h.dot (stripped_sub _ hm)
  have hbase : (stripped (field.take 8)).length ≤ 8 :=
    (List.rdropWhile_prefix _ _).length_le.trans (by simp)
  have hext : (stripped (field.drop 8)).length ≤ 3 :=
    (List.rdropWhile_prefix _ _).length_le.trans (by simp [hlen])
  have hupb : (stripped (field.take 8)).map upper = stripped (field.take 8) :=
    map_upper_eq fun b hb => h.capital b (List.mem_of_mem_take (stripped_sub _ hb))
  have hupe : (stripped (field.drop 8)).map upper = stripped (field.drop 8) :=
    map_upper_eq fun b hb => h.capital b (List.mem_of_mem_drop (stripped_sub _ hb))
  have hidem : ∀ l : List UInt8, stripped (stripped l) = stripped l := fun l =>
    List.rdropWhile_idempotent _ _
  refine h.short_iff.mpr ?_
  rw [h.rendering_eq, cutName]
  unfold dotted
  split
  · rename_i hnil
    rw [List.takeWhile_eq_self_iff.mpr (ne_dot hno), List.dropWhile_eq_nil_iff.mpr (ne_dot hno),
      List.take_of_length_le hbase, hupb, hidem]
    rfl
  · rename_i hne
    rw [takeWhile_dot hno, dropWhile_dot hno, List.drop_succ_cons, List.drop_zero,
      List.take_of_length_le hbase, List.take_of_length_le hext, hupb, hupe, hidem, hidem,
      if_neg hne]

end forms

namespace Volume

variable {v : Volume} {c d e : Nat} {name target : List UInt8}

inductive InDir (v : Volume) : Nat → Nat → Prop
  | here {c p e : Nat} : 2 ≤ c ∧ c < endOfChain → v.clusterPtr c = some p →
      e ∈ (v.slots p).takeWhile (v.image · ≠ 0) → InDir v c e
  | next {c p e : Nat} : 2 ≤ c ∧ c < endOfChain → v.clusterPtr c = some p →
      (∀ x ∈ v.slots p, v.image x ≠ 0) → InDir v (v.readFat c) e → InDir v c e

def Listed (v : Volume) (d e : Nat) : Prop := v.InDir d e ∧ v.isListed e = true

def FindsEntry (v : Volume) (d : Nat) (name : List UInt8) (e : Nat) : Prop :=
  Returns (v.searchTurn (filenameToShort name)) d (some e)

/-- What the listing of a directory prints are the renderings of its entries. -/
theorem list_lines {lines : List (List UInt8 × Bool)}
    (h : Returns v.listTurn (d, []) lines) : ∀ l ∈ lines, ∃ e, v.Listed d e ∧ l = v.lineAt e := by
  suffices hgen : ∀ s : Nat × List (List UInt8 × Bool), Returns v.listTurn s lines →
      ∀ l ∈ lines, l ∈ s.2 ∨ ∃ e, v.Listed s.1 e ∧ l = v.lineAt e by
    intro l hl
    rcases hgen _ h l hl with hnil | he
    · cases hnil
    · exact he
  intro s hs
  apply hs.rec_on (P := fun s => ∀ l ∈ lines, l ∈ s.2 ∨ ∃ e, v.Listed s.1 e ∧ l = v.lineAt e)
  · intro s hb l hl
    unfold listTurn at hb
    split at hb
    · cases hb
      exact .inl hl
    · rename_i hnum
      cases hp : v.clusterPtr s.1 with
      | none =>
        rw [hp] at hb
        cases hb
        exact .inl hl
      | some p =>
        rw [hp] at hb
        dsimp only at hb
        split at hb
        · cases hb
          rw [listSlots_eq] at hl
          rcases List.mem_append.mp hl with hl | hl
          · exact .inl hl
          · obtain ⟨e, he, rfl⟩ := List.mem_map.mp hl
            obtain ⟨hin, hlisted⟩ := List.mem_filter.mp he
            exact .inr ⟨e, ⟨.here (by omega) hp hin, hlisted⟩, rfl⟩
        · cases hb
  · intro s t hb _ ih l hl
    obtain ⟨⟨h1, h2, -⟩, hnext, p, hp, hall, ht⟩ := list_hop_iff.mp hb
    rcases ih l hl with hl | ⟨e, ⟨hin, hlisted⟩, rfl⟩
    · rw [ht] at hl
      rcases List.mem_append.mp hl with hl | hl
      · exact .inl hl
      · obtain ⟨e, he, rfl⟩ := List.mem_map.mp hl
        obtain ⟨hin, hlisted⟩ := List.mem_filter.mp he
        have htake : (v.slots p).takeWhile (v.image · ≠ 0) = v.slots p :=
          List.takeWhile_eq_self_iff.mpr fun x hx => decide_eq_true (hall x hx)
        exact .inr ⟨e, ⟨.here ⟨h1, h2⟩ hp (by rwa [htake]), hlisted⟩, rfl⟩
    · refine .inr ⟨e, ⟨.next ⟨h1, h2⟩ hp hall ?_, hlisted⟩, rfl⟩
      rw [hnext]
      exact hin

theorem ComesTo.inDir (h : v.ComesTo target d e) : v.InDir d e ∧ v.Matches target e := by
  induction h with
  | @here c p e pre post hnum hp heq hpre h0 hm =>
    refine ⟨.here hnum hp ?_, hm⟩
    rw [heq, List.takeWhile_append_of_pos fun x hx => decide_eq_true (hpre x hx).1,
      List.takeWhile_cons_of_pos (by simpa using h0)]
    simp
  | next hpass _ ih =>
    obtain ⟨p, hp, hall⟩ := hpass.inside
    refine ⟨.next hpass.number hp (fun x hx => (hall x hx).1) ?_, ih.2⟩
    rw [hpass.next]
    exact ih.1

theorem exists_found {es : List Nat} (hmem : e ∈ es.takeWhile (v.image · ≠ 0))
    (hm : v.Matches target e) : ∃ x, v.scanSlots target es = .found x := by
  induction es with
  | nil => cases hmem
  | cons y es ih =>
    by_cases h0 : v.image y = 0
    · rw [List.takeWhile_cons_of_neg (by simp [h0])] at hmem
      cases hmem
    · rw [List.takeWhile_cons_of_pos (by simpa using h0)] at hmem
      by_cases hy : v.Matches target y
      · exact ⟨y, scanSlots_take h0 hy es⟩
      · rw [scanSlots_skip ⟨h0, hy⟩]
        rcases List.mem_cons.mp hmem with rfl | hmem
        · exact absurd hm hy
        · exact ih hmem

/-- An entry of the directory with the name is found, or one before it with the same name. -/
theorem InDir.comesTo (h : v.InDir d e) (hm : v.Matches target e) : ∃ x, v.ComesTo target d x := by
  induction h with
  | here hnum hp hmem =>
    obtain ⟨x, hx⟩ := exists_found hmem hm
    obtain ⟨pre, post, heq, hpre, h0, hmx⟩ := scanSlots_found_iff.mp hx
    exact ⟨x, .here hnum hp heq hpre h0 hmx⟩
  | @next c p e hnum hp hall _ ih =>
    by_cases hskip : ∀ x ∈ v.slots p, v.Skipped target x
    · obtain ⟨x, hx⟩ := ih hm
      exact ⟨x, .next ⟨hnum, ⟨p, hp, hskip⟩, rfl⟩ hx⟩
    · push Not at hskip
      obtain ⟨y, hy, hys⟩ := hskip
      have hmy : v.Matches target y := by
        by_contra hno
        exact hys ⟨hall y hy, hno⟩
      have htake : (v.slots p).takeWhile (v.image · ≠ 0) = v.slots p :=
        List.takeWhile_eq_self_iff.mpr fun x hx => decide_eq_true (hall x hx)
      obtain ⟨x, hx⟩ := exists_found (by rwa [htake]) hmy
      obtain ⟨pre, post, heq, hpre, h0, hmx⟩ := scanSlots_found_iff.mp hx
      exact ⟨x, .here hnum hp heq hpre h0 hmx⟩

theorem Listed.matches (h : v.Listed d e) (hname : filenameToShort name = v.nameAt e) :
    v.Matches (filenameToShort name) e := by
  have hlisted := h.2
  simp only [isListed, ne_eq, Bool.decide_and, Bool.and_eq_true, decide_eq_true_eq] at hlisted
  exact ⟨hlisted.1, hlisted.2.1, hname.symm⟩

/-- An entry whose stored name is as it should be is opened by the names whose cut is the entry's
rendering. So its own rendering opens it, and the names that open one entry have one cut. -/
theorem opened_by_cut (v : Volume) (d : Nat) :
    (∀ name e, v.FindsEntry d name e → v.InDir d e ∧ v.image e ≠ 0xE5 ∧ v.attrAt e ≠ 0x0F ∧
      (EightThree (v.nameAt e) → rendering (v.nameAt e) = cutName name)) ∧
    (∀ name e, v.Listed d e → EightThree (v.nameAt e) → rendering (v.nameAt e) = cutName name →
      ∃ x, v.FindsEntry d name x ∧ v.nameAt x = v.nameAt e) ∧
    (∀ e, v.Listed d e → EightThree (v.nameAt e) →
      ∃ x, v.FindsEntry d (rendering (v.nameAt e)) x ∧ v.nameAt x = v.nameAt e) ∧
    ∀ name name' e, v.FindsEntry d name e → v.FindsEntry d name' e → cutName name = cutName name' := by
  have hopen : ∀ name e, v.Listed d e → filenameToShort name = v.nameAt e →
      ∃ x, v.FindsEntry d name x ∧ v.nameAt x = v.nameAt e := by
    intro name e hl hname
    obtain ⟨x, hx⟩ := hl.1.comesTo (hl.matches hname)
    exact ⟨x, search_returns_iff.mpr hx, hx.inDir.2.name.trans hname⟩
  refine ⟨fun name e h => ?_, fun name e hl hform hcut => ?_, fun e hl hform => ?_,
    fun name name' e h h' => ?_⟩
  · obtain ⟨hin, hm⟩ := (search_returns_iff.mp h).inDir
    exact ⟨hin, hm.used, hm.short, fun hform => hform.short_iff.mp hm.name.symm⟩
  · exact hopen name e hl (hform.short_iff.mpr hcut)
  · exact hopen _ e hl hform.short_rendering
  · have hshort := (search_returns_iff.mp h).inDir.2.name
    rw [cutName_eq, cutName_eq, ← hshort, (search_returns_iff.mp h').inDir.2.name]

def longFile : ByteMemory.Mem := fun a =>
  if a = 12 ∨ a = 44 then 2
  else if a = 13 ∨ a = 14 ∨ a = 16 ∨ a = 36 then 1
  else if a = 32 then 10
  else if 1024 ≤ a ∧ a < 1035 then [76, 79, 78, 71, 70, 73, 76, 69, 32, 32, 32].getD (a - 1024) 0
  else 0

/-- The longer name `LONGFILENAME` opens it too. -/
theorem longer_name_opens : ∃ v e, mountRamdisk longFile 5120 = some v ∧
    v.FindsEntry v.bpb.rootCluster [76, 79, 78, 71, 70, 73, 76, 69, 78, 65, 77, 69] e ∧
    rendering (v.nameAt e) ≠ [76, 79, 78, 71, 70, 73, 76, 69, 78, 65, 77, 69].map upper := by
  refine ⟨⟨(bpbOf longFile).withSectors, 5120, longFile⟩, 1024, if_neg (by decide), ⟨1, ?_⟩, ?_⟩
  · decide +kernel
  · decide +kernel

end Volume

end LosTacOS.Fat
