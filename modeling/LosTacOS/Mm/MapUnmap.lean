import LosTacOS.Mm.Walks

/-! What `map_page` and `unmap_page` do to the walk of every virtual page. -/
namespace LosTacOS.Mm

def Machine.unmapPage (m : Machine) (pml4 va : Nat) : Machine :=
  if present (m.ram pml4 (pml4Index va)) then
    let pdpt := frameOf (m.ram pml4 (pml4Index va))
    if present (m.ram pdpt (pdptIndex va)) then
      let pd := frameOf (m.ram pdpt (pdptIndex va))
      if present (m.ram pd (pdIndex va)) then
        let pt := frameOf (m.ram pd (pdIndex va))
        if present (m.ram pt (ptIndex va)) then m.store pt (ptIndex va) 0 else m
      else m
    else m
  else m

def SamePage (va va' : Nat) : Prop :=
  pml4Index va = pml4Index va' ∧ pdptIndex va = pdptIndex va' ∧ pdIndex va = pdIndex va' ∧
    ptIndex va = ptIndex va'

section pages

abbrev leafPath (va : Nat) : List Nat := [pdIndex va, pdptIndex va, pml4Index va]

def upperFlags (flags : Nat) : Nat := if user flags then 7 else 3

/-- The flags `u` besides, in an entry that the two addresses share. -/
def raise (c : Prop) [Decidable c] (u w : Nat) : Nat := if c then w ||| u else w

/-- The permissions of `va'` once the upper entries on the way to `va` have got the flags `u`
besides. -/
def raised (ram : Ram) (r va u va' : Nat) : Option Translation :=
  (wordAt ram r [] (pml4Index va')).bind fun e4 =>
  (wordAt ram r [pml4Index va'] (pdptIndex va')).bind fun e3 =>
  (wordAt ram r [pdptIndex va', pml4Index va'] (pdIndex va')).bind fun e2 =>
  (wordAt ram r [pdIndex va', pdptIndex va', pml4Index va'] (ptIndex va')).map fun e1 =>
    permit (raise (pml4Index va' = pml4Index va) u e4)
      (raise ([pdptIndex va', pml4Index va'] = [pdptIndex va, pml4Index va]) u e3)
      (raise (leafPath va' = leafPath va) u e2) e1

def Backed (ram : Ram) (r va : Nat) : Prop :=
  translate ram r va = (leafEntry ram r va).map fun e => ⟨frameOf e, user e, writable e⟩

/-- `map_page` sets the page of `va`, and leaves every other page its walk, with the permissions
`perm`; `unmap_page` takes the page away again. -/
structure Machine.MapsOnly (m : Machine) (r va pa flags : Nat) (perm : Nat → Option Translation) :
    Prop where
  mapped : (m.mapPage r va (frameOf pa) flags).1 = true →
    ∃ w, leafEntry (m.mapPage r va (frameOf pa) flags).2.ram r va = some w ∧
      frameOf w = frameOf pa ∧ flagsOf w = flags
  others : (m.mapPage r va (frameOf pa) flags).1 = true → ∀ va', ¬ SamePage va va' →
    leafEntry (m.mapPage r va (frameOf pa) flags).2.ram r va' = leafEntry m.ram r va' ∧
      translate (m.mapPage r va (frameOf pa) flags).2.ram r va' = perm va'
  unmapped : (m.mapPage r va (frameOf pa) flags).1 = true →
    leafEntry ((m.mapPage r va (frameOf pa) flags).2.unmapPage r va).ram r va = none ∧
      ∀ va', ¬ SamePage va va' →
        leafEntry ((m.mapPage r va (frameOf pa) flags).2.unmapPage r va).ram r va' =
          leafEntry m.ram r va' ∧
        translate ((m.mapPage r va (frameOf pa) flags).2.unmapPage r va).ram r va' = perm va'
  failed : (m.mapPage r va (frameOf pa) flags).1 = false → ∀ va',
    leafEntry (m.mapPage r va (frameOf pa) flags).2.ram r va' = leafEntry m.ram r va'

variable {ram : Ram} {m m' : Machine} {r va va' u : Nat}

theorem leafPath_path (va : Nat) : TablePath (leafPath va) := by
  refine ⟨Nat.le_refl _, fun i hi => ?_⟩
  have hlt : ∀ n, n % 512 < 512 := fun n => Nat.mod_lt n (by decide)
  simp only [leafPath, List.mem_cons, List.not_mem_nil, or_false] at hi
  rcases hi with rfl | rfl | rfl
  · exact hlt _
  · exact hlt _
  · exact hlt _

theorem SamePage.of_position (h : leafPath va' = leafPath va) (hi : ptIndex va' = ptIndex va) :
    SamePage va va' := by
  simp only [leafPath, List.cons.injEq, and_true] at h
  exact ⟨h.2.2.symm, h.2.1.symm, h.1.symm, hi.symm⟩

theorem wordAt_above {i j w : Nat} {p : List Nat} (h : wordAt ram r (i :: p) j = some w) :
    ∃ v, wordAt ram r p i = some v := by
  rw [wordAt_cons] at h
  cases hv : wordAt ram r p i with
  | none =>
    rw [hv] at h
    cases h
  | some v => exact ⟨v, rfl⟩

theorem words_of_leaf {e1 : Nat} (h : leafEntry ram r va = some e1) :
    ∃ e4 e3 e2, wordAt ram r [] (pml4Index va) = some e4 ∧
      wordAt ram r [pml4Index va] (pdptIndex va) = some e3 ∧
      wordAt ram r [pdptIndex va, pml4Index va] (pdIndex va) = some e2 ∧
      wordAt ram r (leafPath va) (ptIndex va) = some e1 := by
  rw [leafEntry_eq] at h
  obtain ⟨e2, h2⟩ := wordAt_above h
  obtain ⟨e3, h3⟩ := wordAt_above h2
  obtain ⟨e4, h4⟩ := wordAt_above h3
  exact ⟨e4, e3, e2, h4, h3, h2, h⟩

theorem translate_none (h : leafEntry ram r va = none) : translate ram r va = none := by
  rw [leafEntry_eq] at h
  simp only [translate_eq, h, Option.map_none]
  cases wordAt ram r [] (pml4Index va) with
  | none => rfl
  | some e4 =>
    cases wordAt ram r [pml4Index va] (pdptIndex va) with
    | none => rfl
    | some e3 => cases wordAt ram r [pdptIndex va, pml4Index va] (pdIndex va) <;> rfl

theorem raised_none (h : leafEntry ram r va' = none) : raised ram r va u va' = none := by
  rw [leafEntry_eq] at h
  simp only [raised, h, Option.map_none]
  cases wordAt ram r [] (pml4Index va') with
  | none => rfl
  | some e4 =>
    cases wordAt ram r [pml4Index va'] (pdptIndex va') with
    | none => rfl
    | some e3 => cases wordAt ram r [pdptIndex va', pml4Index va'] (pdIndex va') <;> rfl

/-- The way of `map_page` to the lowest table. -/
theorem way_iff {q : List Nat} {j : Nat} :
    Way [] [pml4Index va, pdptIndex va, pdIndex va] q j ↔
      (q = [] ∧ j = pml4Index va) ∨ (q = [pml4Index va] ∧ j = pdptIndex va) ∨
        (q = [pdptIndex va, pml4Index va] ∧ j = pdIndex va) := by
  simp only [Way, or_false]

theorem Opened.word {W : List Nat → Nat → Prop} {c : Prop} [Decidable c] {q : List Nat} {j w : Nat}
    (h : Opened r u W m m') (hq : TablePath q) (hc : c ↔ W q j)
    (hw : wordAt m.ram r q j = some w) : wordAt m'.ram r q j = some (raise c u w) := by
  by_cases hcw : c
  · rw [h.on hq (hc.mp hcw) hw, raise, if_pos hcw]
  · rw [h.off hq fun hW => hcw (hc.mpr hW), hw, raise, if_neg hcw]

theorem Opened.leafEntry {W : List Nat → Nat → Prop} (h : Opened r u W m m')
    (hW : ∀ q j, W q j → q.length < 3) (va' : Nat) :
    leafEntry m'.ram r va' = leafEntry m.ram r va' := by
  rw [leafEntry_eq, leafEntry_eq]
  exact h.off (leafPath_path va') fun hw => absurd (hW _ _ hw) (by simp)

theorem Opened.translate (h : Opened r u (Way [] [pml4Index va, pdptIndex va, pdIndex va]) m m')
    (va' : Nat) : translate m'.ram r va' = raised m.ram r va u va' := by
  have hleaf := h.leafEntry (fun q j hw => hw.length_lt) va'
  cases hl : Mm.leafEntry m.ram r va' with
  | none => rw [translate_none (by rw [hleaf, hl]), raised_none hl]
  | some e1 =>
    obtain ⟨e4, e3, e2, h4, h3, h2, h1⟩ := words_of_leaf hl
    have hp := leafPath_path va'
    have h4' := h.word (c := pml4Index va' = pml4Index va) hp.tail.tail.tail
      (by rw [way_iff]; simp) h4
    have h3' := h.word (c := [pdptIndex va', pml4Index va'] = [pdptIndex va, pml4Index va])
      hp.tail.tail (by rw [way_iff]; simp [and_comm]) h3
    have h2' := h.word (c := leafPath va' = leafPath va) hp.tail
      (by rw [way_iff]; simp [leafPath, and_comm]) h2
    have h1' : wordAt m'.ram r (leafPath va') (ptIndex va') = some e1 := by
      rw [← leafEntry_eq, hleaf, hl]
    rw [translate_eq, raised, h4', h3', h2', h1', h4, h3, h2, h1]
    rfl

theorem upperFlags_ok (flags : Nat) : upperFlags flags < 4096 ∧ present (upperFlags flags) = true := by
  unfold upperFlags
  split
  · decide
  · decide

/-- All `map_page` can do: fail on the way, or set the one entry at its end. -/
theorem Tidy.mapPage (h : Tidy r m) (va f flags : Nat) :
    (∃ W m₁, m.mapPage r va f flags = (false, m₁) ∧ Opened r (upperFlags flags) W m m₁ ∧
      ∀ q j, W q j → q.length < 3) ∨
    ∃ m₁ m₂, m.mapPage r va f flags = (true, m₂) ∧
      Opened r (upperFlags flags) (Way [] [pml4Index va, pdptIndex va, pdIndex va]) m m₁ ∧
      Puts r (leafPath va) (ptIndex va) (entry f flags) m₁ m₂ := by
  obtain ⟨hu, hpu⟩ := upperFlags_ok flags
  have hlt : ∀ i ∈ [pml4Index va, pdptIndex va, pdIndex va], i < 512 :=
    fun i hi => (leafPath_path va).2 i (by simpa [or_comm, or_assoc, or_left_comm] using hi)
  have hroot : TablePath [] := ⟨Nat.zero_le _, fun _ hi => absurd hi (by simp)⟩
  cases h.descendAll hroot (by simp) hlt rfl hu hpu with
  | inl hfail =>
    obtain ⟨W, m₁, he, hopen, hway⟩ := hfail
    refine Or.inl ⟨W, m₁, ?_, hopen, fun q j hw => (hway q j hw).length_lt⟩
    unfold upperFlags at he
    simp only [Machine.mapPage, Machine.tableFor, he]
  | inr hok =>
    obtain ⟨pt, m₁, he, hopen, hpt⟩ := hok
    refine Or.inr ⟨m₁, m₁.store pt (ptIndex va) (entry f flags), ?_, hopen, ?_⟩
    · unfold upperFlags at he
      simp only [Machine.mapPage, Machine.tableFor, he]
    · exact hopen.tidy.puts_store (leafPath_path va) hpt fun hlen => absurd hlen (by simp)

/-- A change at one page's entry is not seen from another page. -/
theorem Puts.other {w : Nat} (h : Puts r (leafPath va) (ptIndex va) w m m')
    (hne : ¬ SamePage va va') :
    leafEntry m'.ram r va' = leafEntry m.ram r va' ∧
      translate m'.ram r va' = translate m.ram r va' := by
  have hp := leafPath_path va'
  have hlower : ∀ {q j}, TablePath q → q.length < 3 → wordAt m'.ram r q j = wordAt m.ram r q j := by
    intro q j hq hlen
    refine h.else_same hq fun he => ?_
    rw [he.1] at hlen
    simp at hlen
  have hleaf : wordAt m'.ram r (leafPath va') (ptIndex va') =
      wordAt m.ram r (leafPath va') (ptIndex va') :=
    h.else_same hp fun he => hne (SamePage.of_position he.1 he.2)
  refine ⟨by rw [leafEntry_eq, leafEntry_eq, hleaf], ?_⟩
  rw [translate_eq, translate_eq, hlower hp.tail.tail.tail (by simp),
    hlower hp.tail.tail (by simp), hlower hp.tail (by simp), hleaf]

/-- A mapping that succeeds, as far as walks and other pages go. -/
theorem Tidy.maps {f flags : Nat} (h : Tidy r m) (hpr : present flags = true)
    (he : m.mapPage r va f flags = (true, m')) :
    Tidy r m' ∧ leafEntry m'.ram r va = some (entry f flags) ∧
      (∀ va', ¬ SamePage va va' → leafEntry m'.ram r va' = leafEntry m.ram r va') ∧
      ∀ {x}, Idle r m x → m'.ram x = m.ram x ∧ Idle r m' x := by
  cases h.mapPage va f flags with
  | inl hfail =>
    obtain ⟨W, m₁, he', -⟩ := hfail
    rw [he] at he'
    cases he'
  | inr hok =>
    obtain ⟨m₁, m₂, he', hopen, hputs⟩ := hok
    rw [he] at he'
    cases he'
    refine ⟨hputs.tidy, ?_, fun va' hne => ?_, fun {x} hx => ?_⟩
    · rw [leafEntry_eq, hputs.here, if_pos (by rw [present_entry, hpr])]
    · exact (hputs.other hne).1.trans (hopen.leafEntry (fun q j hw => hw.length_lt) va')
    · obtain ⟨hram, hmid⟩ := hopen.idle hx
      obtain ⟨hram', hend⟩ := hputs.idle hmid
      exact ⟨hram'.trans hram, hend⟩

/-- `unmap_page` clears the entry of a mapped page. -/
theorem Tidy.unmapPage {w : Nat} (h : Tidy r m) (hw : leafEntry m.ram r va = some w) :
    Puts r (leafPath va) (ptIndex va) 0 m (m.unmapPage r va) := by
  obtain ⟨e4, e3, e2, h4, h3, h2, h1⟩ := words_of_leaf hw
  have hlook : ∀ {t i e}, lookup m.ram t i = some e → present e = true ∧ m.ram t i = e := by
    intro t i e he
    by_cases hp : present (m.ram t i) = true
    · rw [lookup_of_present hp] at he
      cases he
      exact ⟨hp, rfl⟩
    · rw [lookup, if_neg hp] at he
      cases he
  rw [leafPath, wordAt_cons, h2, Option.bind_some] at h1
  rw [wordAt_cons, h3, Option.bind_some] at h2
  rw [wordAt_cons, h4, Option.bind_some] at h3
  rw [wordAt_nil] at h4
  obtain ⟨p4, w4⟩ := hlook h4
  obtain ⟨p3, w3⟩ := hlook h3
  obtain ⟨p2, w2⟩ := hlook h2
  obtain ⟨p1, w1⟩ := hlook h1
  have hm : m.unmapPage r va = m.store (frameOf e2) (ptIndex va) 0 := by
    simp only [Machine.unmapPage, w4, p4, w3, p3, w2, p2, w1, p1, if_true]
  have ht : tableAt m.ram r (leafPath va) = some (frameOf e2) := by
    rw [leafPath, tableAt_cons, wordAt_cons, wordAt_cons, wordAt_nil, h4, Option.bind_some, h3,
      Option.bind_some, h2, Option.map_some]
  rw [hm]
  exact h.puts_store (leafPath_path va) ht fun hlen => absurd hlen (by simp)

theorem raise_grants {c : Prop} [Decidable c] {u w i : Nat} (h : w.testBit i = true) :
    (raise c u w).testBit i = true := by
  unfold raise
  split
  · rw [Nat.testBit_or, h, Bool.true_or]
  · exact h

/-- The entries of a backed page, whichever of the upper ones are raised. -/
theorem Backed.permit {c4 c3 c2 : Prop} [Decidable c4] [Decidable c3] [Decidable c2]
    {e4 e3 e2 e1 : Nat} (h : Backed ram r va') (hl : leafEntry ram r va' = some e1)
    (h4 : wordAt ram r [] (pml4Index va') = some e4)
    (h3 : wordAt ram r [pml4Index va'] (pdptIndex va') = some e3)
    (h2 : wordAt ram r [pdptIndex va', pml4Index va'] (pdIndex va') = some e2) :
    permit (raise c4 u e4) (raise c3 u e3) (raise c2 u e2) e1 =
      ⟨frameOf e1, user e1, writable e1⟩ := by
  have h1 := hl
  rw [leafEntry_eq] at h1
  rw [Backed, hl, Option.map_some, translate_eq, h4, Option.bind_some, h3, Option.bind_some, h2,
    Option.bind_some, h1, Option.map_some, Option.some.injEq, Mm.permit, Translation.mk.injEq] at h
  obtain ⟨-, huser, hwrite⟩ := h
  rw [Mm.permit, Translation.mk.injEq]
  refine ⟨rfl, ?_, ?_⟩
  · cases hu : user e1 with
    | false => simp
    | true =>
      rw [hu] at huser
      simp only [Bool.and_eq_true, Bool.and_true] at huser ⊢
      exact ⟨⟨raise_grants huser.1.1, raise_grants huser.1.2⟩, raise_grants huser.2⟩
  · cases hw : writable e1 with
    | false => simp
    | true =>
      rw [hw] at hwrite
      simp only [Bool.and_eq_true, Bool.and_true] at hwrite ⊢
      exact ⟨⟨raise_grants hwrite.1.1, raise_grants hwrite.1.2⟩, raise_grants hwrite.2⟩

theorem Backed.raised (h : Backed ram r va') : raised ram r va u va' = translate ram r va' := by
  cases hl : leafEntry ram r va' with
  | none => rw [raised_none hl, translate_none hl]
  | some e1 =>
    obtain ⟨e4, e3, e2, h4, h3, h2, h1⟩ := words_of_leaf hl
    rw [Mm.raised, h4, Option.bind_some, h3, Option.bind_some, h2, Option.bind_some, h1,
      Option.map_some, h.permit hl h4 h3 h2, h, hl, Option.map_some]

theorem Opened.backed {W : List Nat → Nat → Prop} (h : Opened r u W m m')
    (hW : ∀ q j, W q j → q.length < 3) (hb : Backed m.ram r va') : Backed m'.ram r va' := by
  classical
  have hleaf := h.leafEntry hW va'
  cases hl : Mm.leafEntry m.ram r va' with
  | none =>
    rw [Backed, translate_none (by rw [hleaf, hl]), hleaf, hl]
    rfl
  | some e1 =>
    obtain ⟨e4, e3, e2, h4, h3, h2, h1⟩ := words_of_leaf hl
    have hp := leafPath_path va'
    rw [Backed, hleaf, hl, translate_eq, h.word hp.tail.tail.tail Iff.rfl h4,
      h.word hp.tail.tail Iff.rfl h3, h.word hp.tail Iff.rfl h2, ← leafEntry_eq, hleaf, hl]
    simp only [Option.bind_some, Option.map_some, hb.permit hl h4 h3 h2]

theorem or_grants {w i : Nat} (h : w ||| u = w) (hu : u.testBit i = true) : w.testBit i = true := by
  rw [← h, Nat.testBit_or, hu, Bool.or_true]

/-- The page just mapped is backed: the entries above it carry the upper flags. -/
theorem Puts.backed {f flags : Nat}
    (h : Opened r (upperFlags flags) (Way [] [pml4Index va, pdptIndex va, pdIndex va]) m m')
    {m'' : Machine} (hputs : Puts r (leafPath va) (ptIndex va) (entry f flags) m' m'')
    (hpr : present flags = true) : Backed m''.ram r va := by
  have hp := leafPath_path va
  have hup : ∀ {q j}, TablePath q → q.length < 3 →
      Way [] [pml4Index va, pdptIndex va, pdIndex va] q j →
      ∃ w, wordAt m''.ram r q j = some w ∧ w ||| upperFlags flags = w := by
    intro q j hq hlen hw
    obtain ⟨w, hword, hfull⟩ := h.full hq hw
    refine ⟨w, ?_, hfull⟩
    rw [hputs.else_same hq fun he => ?_, hword]
    rw [he.1] at hlen
    simp at hlen
  obtain ⟨e4, h4, f4⟩ := hup (j := pml4Index va) hp.tail.tail.tail (by simp) (by rw [way_iff]; simp)
  obtain ⟨e3, h3, f3⟩ := hup (j := pdptIndex va) hp.tail.tail (by simp) (by rw [way_iff]; simp)
  obtain ⟨e2, h2, f2⟩ := hup (j := pdIndex va) hp.tail (by simp) (by rw [way_iff]; simp)
  have h1 : wordAt m''.ram r (leafPath va) (ptIndex va) = some (entry f flags) := by
    rw [hputs.here, if_pos (by rw [present_entry, hpr])]
  have hwrite : (upperFlags flags).testBit 1 = true := by
    unfold upperFlags
    split
    · decide
    · decide
  rw [Backed, leafEntry_eq, translate_eq, h4, h3, h2, h1]
  simp only [Option.bind_some, Option.map_some, permit, Option.some.injEq, Translation.mk.injEq,
    user_entry, true_and]
  refine ⟨?_, ?_⟩
  · cases hu : user flags with
    | false => simp
    | true =>
      have huser : (upperFlags flags).testBit 2 = true := by
        rw [upperFlags, if_pos hu]
        decide
      simp only [Bool.and_true, Bool.and_eq_true]
      exact ⟨⟨or_grants f4 huser, or_grants f3 huser⟩, or_grants f2 huser⟩
  · have he4 : writable e4 = true := or_grants f4 hwrite
    have he3 : writable e3 = true := or_grants f3 hwrite
    have he2 : writable e2 = true := or_grants f2 hwrite
    rw [he4, he3, he2, Bool.true_and, Bool.true_and, Bool.true_and]

end pages

/-- `map_page` sets the page of `va`, and keeps a backed page backed. -/
theorem Tidy.mapPage_backed {m : Machine} {r va va' f flags : Nat} (h : Tidy r m)
    (hpr : present flags = true) (hb : Backed m.ram r va') :
    Backed (m.mapPage r va f flags).2.ram r va' := by
  cases h.mapPage va f flags with
  | inl hfail =>
    obtain ⟨W, m₁, he, hopen, hW⟩ := hfail
    rw [he]
    exact hopen.backed hW hb
  | inr hok =>
    obtain ⟨m₁, m₂, he, hopen, hputs⟩ := hok
    rw [he]
    have hmid : Backed m₁.ram r va' := hopen.backed (fun q j hw => hw.length_lt) hb
    by_cases hne : SamePage va va'
    · have hhere := Puts.backed hopen hputs hpr
      rw [Backed, leafEntry_eq, translate_eq] at hhere ⊢
      rwa [← hne.1, ← hne.2.1, ← hne.2.2.1, ← hne.2.2.2]
    · obtain ⟨hl, ht⟩ := hputs.other hne
      rw [Backed, ht, hl]
      exact hmid

/-- `map_page` and `unmap_page` on a tidy table: no walk of another page changes, and its
permissions only where an upper entry that it shares with `va` is raised. A page whose upper
entries grant all that its own entry grants keeps its permissions, and `map_page` keeps all pages
so. -/
theorem mapPage_walks {m : Machine} {r va pa flags : Nat} (h : Tidy r m) (hfl : flags < 4096)
    (hpr : present flags = true) :
    m.MapsOnly r va pa flags (raised m.ram r va (upperFlags flags)) ∧
      (∀ va', Backed m.ram r va' →
        raised m.ram r va (upperFlags flags) va' = translate m.ram r va') ∧
      ((∀ va', Backed m.ram r va') →
        ∀ va', Backed (m.mapPage r va (frameOf pa) flags).2.ram r va') := by
  refine ⟨?_, fun va' hb => hb.raised, fun hb va' => h.mapPage_backed hpr (hb va')⟩
  cases h.mapPage va (frameOf pa) flags with
  | inl hfail =>
    obtain ⟨W, m₁, he, hopen, hW⟩ := hfail
    refine ⟨?_, ?_, ?_, ?_⟩
    · rw [he]
      exact fun hok => Bool.noConfusion hok
    · rw [he]
      exact fun hok => Bool.noConfusion hok
    · rw [he]
      exact fun hok => Bool.noConfusion hok
    · rw [he]
      exact fun _ va' => hopen.leafEntry hW va'
  | inr hok =>
    obtain ⟨m₁, m₂, he, hopen, hputs⟩ := hok
    have hpres : present (entry (frameOf pa) flags) = true := by rw [present_entry, hpr]
    have hleaf : leafEntry m₂.ram r va = some (entry (frameOf pa) flags) := by
      rw [leafEntry_eq, hputs.here, if_pos hpres]
    have hother : ∀ va', ¬ SamePage va va' → leafEntry m₂.ram r va' = leafEntry m.ram r va' ∧
        translate m₂.ram r va' = raised m.ram r va (upperFlags flags) va' := by
      intro va' hne
      obtain ⟨hl, ht⟩ := hputs.other hne
      exact ⟨hl.trans (hopen.leafEntry (fun q j hw => hw.length_lt) va'),
        ht.trans (hopen.translate va')⟩
    have hgone := hputs.tidy.unmapPage hleaf
    refine ⟨?_, ?_, ?_, ?_⟩
    · rw [he]
      exact fun _ => ⟨_, hleaf, frameOf_entry hfl, flagsOf_entry hfl⟩
    · rw [he]
      exact fun _ => hother
    · rw [he]
      refine fun _ => ⟨?_, fun va' hne => ?_⟩
      · rw [leafEntry_eq, hgone.here, if_neg (by simp)]
      · obtain ⟨hl, ht⟩ := hgone.other hne
        exact ⟨hl.trans (hother va' hne).1, ht.trans (hother va' hne).2⟩
    · rw [he]
      exact fun hno => Bool.noConfusion hno

section tables

def lowPages : Pmm := ⟨fun page => page < 0x200, 0, 0, 0x200⟩

def blankTable : Machine := ⟨lowPages, fun _ _ => 0⟩

theorem blankTable_path {p : List Nat} {x : Nat} (h : tableAt blankTable.ram 0x100 p = some x) :
    p = [] ∧ x = 0x100 := by
  cases p with
  | nil => exact ⟨rfl, (Option.some.inj h).symm⟩
  | cons i p =>
    rw [tableAt] at h
    have hno : ∀ t, lookup blankTable.ram t i = none := fun t => lookup_of_absent present_zero
    simp only [hno, Option.map_none] at h
    cases ht : tableAt blankTable.ram 0x100 p <;> rw [ht] at h <;> cases h

theorem blank_tidy {s : Pmm} (h : s.bitmap 0x100 = true) : Tidy 0x100 ⟨s, blankTable.ram⟩ := by
  refine ⟨fun _ _ hx hy => ?_, fun _ hx => ?_⟩
  · rw [(blankTable_path hx).1, (blankTable_path hy).1]
  · rw [(blankTable_path hx).2]
    exact h

theorem blankTable_tidy : Tidy 0x100 blankTable := blank_tidy (by decide)

/-- One page at address 0, whose own entry grants all and whose top-level entry does not grant
writing. -/
def guardedPage : Machine :=
  ⟨lowPages, fun x j =>
    if j ≠ 0 then 0
    else if x = 0x100 then entry 0x101 5
    else if x = 0x101 then entry 0x102 7
    else if x = 0x102 then entry 0x103 7
    else if x = 0x103 then entry 0x500 7
    else 0⟩

theorem guardedPage_word {x j w : Nat} (hlo : 0x100 ≤ x) (hhi : x < 0x103)
    (h : lookup guardedPage.ram x j = some w) : j = 0 ∧ frameOf w = x + 1 := by
  by_cases hj : j = 0
  · subst hj
    refine ⟨rfl, ?_⟩
    have hx : x = 0x100 ∨ x = 0x101 ∨ x = 0x102 := by omega
    rcases hx with rfl | rfl | rfl
    · cases h
      decide
    · cases h
      decide
    · cases h
      decide
  · have hno : lookup guardedPage.ram x j = none :=
      lookup_of_absent (by simp only [guardedPage, if_pos hj, present_zero])
    rw [hno] at h
    cases h

theorem guardedPage_path {p : List Nat} {x : Nat} (hp : p.length ≤ 3)
    (h : tableAt guardedPage.ram 0x100 p = some x) :
    p = List.replicate p.length 0 ∧ x = 0x100 + p.length := by
  induction p generalizing x with
  | nil => exact ⟨rfl, (Option.some.inj h).symm⟩
  | cons i p ih =>
    rw [List.length_cons] at hp
    rw [tableAt, Option.bind_eq_some_iff] at h
    obtain ⟨t, ht, hw⟩ := h
    obtain ⟨w, hword, rfl⟩ := Option.map_eq_some_iff.mp hw
    obtain ⟨hrep, hlen⟩ := ih (by omega) ht
    obtain ⟨hi, hframe⟩ := guardedPage_word (by omega) (by omega) hword
    rw [List.length_cons, List.replicate_succ, ← hrep, hi, hframe]
    exact ⟨rfl, by omega⟩

theorem guardedPage_tidy : Tidy 0x100 guardedPage := by
  refine ⟨fun {p q x} hp hq hx hy => ?_, fun {p x} hp hx => ?_⟩
  · obtain ⟨hpr, hpx⟩ := guardedPage_path hp.1 hx
    obtain ⟨hqr, hqx⟩ := guardedPage_path hq.1 hy
    have hlen : p.length = q.length := by omega
    rw [hpr, hqr, hlen]
  · have hpx := (guardedPage_path hp.1 hx).2
    have hle := hp.1
    simp only [guardedPage, lowPages, decide_eq_true_eq]
    omega

end tables

/-- Mapping the page beside it makes the guarded page writable. -/
theorem neighbour_gains_write :
    ¬ ∀ (m : Machine) (r va pa flags : Nat), Tidy r m → va % 4096 = 0 → flags < 4096 →
      present flags = true → m.MapsOnly r va pa flags (translate m.ram r) := by
  intro H
  have h := (H guardedPage 0x100 0x1000 0x501000 7 guardedPage_tidy rfl (by decide)
    (by decide)).others (by decide +kernel) 0 (by unfold SamePage; decide)
  exact absurd h.2 (by decide +kernel)

theorem mapPage_walks_blank :
    (blankTable.mapPage 0x100 0x40000000 (frameOf 0x5000) 7).1 = true ∧
      blankTable.MapsOnly 0x100 0x40000000 0x5000 7
        (raised blankTable.ram 0x100 0x40000000 (upperFlags 7)) :=
  ⟨by decide +kernel, (mapPage_walks blankTable_tidy (by decide) (by decide)).1⟩

end LosTacOS.Mm
