import LosTacOS.Mm.Ownership

/-! One page table on its own, seen through the present entries on its paths. A table is named by
the path of indices that leads to it, the last index first. -/
namespace LosTacOS.Mm

def tableAt (ram : Ram) (r : Nat) : List Nat → Option Nat
  | [] => some r
  | i :: p => (tableAt ram r p).bind fun t => (lookup ram t i).map frameOf

def wordAt (ram : Ram) (r : Nat) (p : List Nat) (i : Nat) : Option Nat :=
  (tableAt ram r p).bind fun t => lookup ram t i

def TablePath (p : List Nat) : Prop := p.length ≤ 3 ∧ ∀ i ∈ p, i < 512

structure Tidy (r : Nat) (m : Machine) : Prop where
  apart : ∀ {p q x}, TablePath p → TablePath q → tableAt m.ram r p = some x →
    tableAt m.ram r q = some x → p = q
  used : ∀ {p x}, TablePath p → tableAt m.ram r p = some x → m.pmm.bitmap x = true

def Idle (r : Nat) (m : Machine) (x : Nat) : Prop :=
  m.pmm.bitmap x = true ∧ ∀ q, TablePath q → tableAt m.ram r q ≠ some x

section walk

variable {ram : Ram} {r : Nat}

theorem tableAt_cons (i : Nat) (p : List Nat) :
    tableAt ram r (i :: p) = (wordAt ram r p i).map frameOf := by
  rw [tableAt, wordAt]
  cases tableAt ram r p with
  | none => rfl
  | some t => rfl

theorem wordAt_cons (i j : Nat) (p : List Nat) :
    wordAt ram r (i :: p) j = (wordAt ram r p i).bind fun w => lookup ram (frameOf w) j := by
  rw [wordAt, tableAt_cons]
  cases wordAt ram r p i with
  | none => rfl
  | some w => rfl

theorem wordAt_nil (i : Nat) : wordAt ram r [] i = lookup ram r i := rfl

/-- The walk of an address, as the entries on its path. -/
theorem leafEntry_eq (va : Nat) : leafEntry ram r va =
    wordAt ram r [pdIndex va, pdptIndex va, pml4Index va] (ptIndex va) := by
  simp only [leafEntry, wordAt_cons, wordAt_nil, Option.bind_eq_bind, Option.bind_assoc]

def permit (e4 e3 e2 e1 : Nat) : Translation :=
  ⟨frameOf e1, user e4 && user e3 && user e2 && user e1,
    writable e4 && writable e3 && writable e2 && writable e1⟩

theorem translate_eq (va : Nat) : translate ram r va =
    (wordAt ram r [] (pml4Index va)).bind fun e4 =>
    (wordAt ram r [pml4Index va] (pdptIndex va)).bind fun e3 =>
    (wordAt ram r [pdptIndex va, pml4Index va] (pdIndex va)).bind fun e2 =>
    (wordAt ram r [pdIndex va, pdptIndex va, pml4Index va] (ptIndex va)).map fun e1 =>
      permit e4 e3 e2 e1 := by
  simp only [translate, wordAt_cons, wordAt_nil, Option.bind_eq_bind]
  cases h4 : lookup ram r (pml4Index va) with
  | none => rfl
  | some e4 =>
    simp only [Option.bind_some]
    cases h3 : lookup ram (frameOf e4) (pdptIndex va) with
    | none => rfl
    | some e3 =>
      simp only [Option.bind_some]
      cases h2 : lookup ram (frameOf e3) (pdIndex va) with
      | none => rfl
      | some e2 =>
        simp only [Option.bind_some]
        cases lookup ram (frameOf e2) (ptIndex va) with
        | none => rfl
        | some e1 => rfl

theorem TablePath.tail {i : Nat} {p : List Nat} (h : TablePath (i :: p)) : TablePath p :=
  ⟨(Nat.le_succ _).trans h.1, fun j hj => h.2 j (List.mem_cons_of_mem _ hj)⟩

theorem TablePath.cons {i : Nat} {p : List Nat} (h : TablePath p) (hp : p.length < 3)
    (hi : i < 512) : TablePath (i :: p) := by
  refine ⟨hp, fun j hj => ?_⟩
  rcases List.mem_cons.mp hj with rfl | hj
  · exact hi
  · exact h.2 j hj

theorem lookup_of_present {t i : Nat} (h : present (ram t i) = true) :
    lookup ram t i = some (ram t i) := by rw [lookup, if_pos h]

theorem lookup_of_absent {t i : Nat} (h : present (ram t i) = false) : lookup ram t i = none := by
  rw [lookup, if_neg (by rw [h]; exact Bool.false_ne_true)]

end walk

section entries

variable {m m' : Machine} {r t i w : Nat} {p : List Nat}

structure Puts (r : Nat) (p : List Nat) (i w : Nat) (m m' : Machine) : Prop where
  tidy : Tidy r m'
  here : wordAt m'.ram r p i = if present w then some w else none
  else_same : ∀ {q j}, TablePath q → ¬ (q = p ∧ j = i) → wordAt m'.ram r q j = wordAt m.ram r q j
  idle : ∀ {x}, Idle r m x → m'.ram x = m.ram x ∧ Idle r m' x

theorem lookup_store_other (m : Machine) {x j : Nat} (w : Nat) (h : ¬ (x = t ∧ j = i)) :
    lookup (m.store t i w).ram x j = lookup m.ram x j := by
  have hram : (m.store t i w).ram x j = m.ram x j := by
    by_cases hx : x = t
    · rw [hx]
      exact store_index m w fun hj => h ⟨hx, hj⟩
    · rw [store_frame m i w hx]
  rw [lookup, lookup, hram]

/-- A word over an old one that leads to the same table, or at the lowest level: the tables stay. -/
theorem Tidy.tableAt_store (h : Tidy r m) (hp : TablePath p) (ht : tableAt m.ram r p = some t)
    (hsame : p.length < 3 →
      (lookup (m.store t i w).ram t i).map frameOf = (lookup m.ram t i).map frameOf)
    {q : List Nat} (hq : TablePath q) : tableAt (m.store t i w).ram r q = tableAt m.ram r q := by
  induction q with
  | nil => rfl
  | cons j q ih =>
    rw [tableAt, tableAt, ih hq.tail]
    cases hx : tableAt m.ram r q with
    | none => rfl
    | some x =>
      simp only [Option.bind_some]
      by_cases hxj : x = t ∧ j = i
      · obtain ⟨rfl, rfl⟩ := hxj
        have hqp : q = p := h.apart hq.tail hp hx ht
        apply hsame
        rw [← hqp]
        exact hq.1
      · rw [lookup_store_other m w hxj]

theorem Tidy.puts_store (h : Tidy r m) (hp : TablePath p) (ht : tableAt m.ram r p = some t)
    (hsame : p.length < 3 →
      (lookup (m.store t i w).ram t i).map frameOf = (lookup m.ram t i).map frameOf) :
    Puts r p i w m (m.store t i w) := by
  have htable : ∀ {q}, TablePath q → tableAt (m.store t i w).ram r q = tableAt m.ram r q :=
    fun hq => h.tableAt_store hp ht hsame hq
  refine ⟨⟨fun {a b x} ha hb hxa hxb => ?_, fun {a x} ha hxa => ?_⟩, ?_, fun {q j} hq hne => ?_,
    fun {x} hx => ⟨store_frame m i w fun he => hx.2 p hp (he ▸ ht), hx.1, fun q hq => ?_⟩⟩
  · rw [htable ha] at hxa
    rw [htable hb] at hxb
    exact h.apart ha hb hxa hxb
  · rw [htable ha] at hxa
    exact h.used ha hxa
  · rw [wordAt, htable hp, ht, Option.bind_some, lookup, store_same]
  · rw [wordAt, wordAt, htable hq]
    cases hx : tableAt m.ram r q with
    | none => rfl
    | some x =>
      refine lookup_store_other m w fun hxj => ?_
      rw [hxj.1] at hx
      exact hne ⟨h.apart hq hp hx ht, hxj.2⟩
  · rw [htable hq]
    exact hx.2 q hq

structure NewTable (m m' : Machine) (t i w : Nat) : Prop where
  entry : m'.ram t i = w
  present : present w = true
  free : m.pmm.bitmap (frameOf w) = false
  zeros : ∀ j, m'.ram (frameOf w) j = 0
  words : ∀ {x j}, m.pmm.bitmap x = true → ¬ (x = t ∧ j = i) → m'.ram x j = m.ram x j
  marked : m'.pmm.bitmap (frameOf w) = true
  kept : ∀ {x}, m.pmm.bitmap x = true → m'.pmm.bitmap x = true

theorem Tidy.tableAt_attach (h : Tidy r m) (hp : TablePath p) (ht : tableAt m.ram r p = some t)
    (hno : lookup m.ram t i = none) (hn : NewTable m m' t i w) {q : List Nat} (hq : TablePath q) :
    tableAt m'.ram r q = if q = i :: p then some (frameOf w) else tableAt m.ram r q := by
  induction q with
  | nil => rfl
  | cons j q ih =>
    rw [tableAt, ih hq.tail]
    by_cases hqi : q = i :: p
    · -- below the new table there is nothing, and there was nothing before
      have hlonger : j :: q ≠ i :: p := by
        intro he
        have hlen := congrArg List.length he
        rw [hqi] at hlen
        simp at hlen
      have hbelow : tableAt m.ram r q = none := by
        rw [hqi, tableAt, ht, Option.bind_some, hno, Option.map_none]
      have hblank : lookup m'.ram (frameOf w) j = none :=
        lookup_of_absent (by rw [hn.zeros]; exact present_zero)
      rw [if_pos hqi, if_neg hlonger, Option.bind_some, hblank, tableAt, hbelow]
      rfl
    · rw [if_neg hqi]
      cases hx : tableAt m.ram r q with
      | none =>
        have hne : j :: q ≠ i :: p := by
          intro he
          rw [(List.cons.inj he).2, ht] at hx
          cases hx
        rw [if_neg hne, tableAt, hx]
        rfl
      | some x =>
        rw [Option.bind_some]
        by_cases hxj : x = t ∧ j = i
        · obtain ⟨rfl, rfl⟩ := hxj
          have hqp : q = p := h.apart hq.tail hp hx ht
          have hpres : Mm.present (m'.ram x j) = true := by rw [hn.entry]; exact hn.present
          rw [hqp, if_pos rfl, lookup_of_present hpres, hn.entry, Option.map_some]
        · have hne : j :: q ≠ i :: p := by
            intro he
            obtain ⟨hj, hqp⟩ := List.cons.inj he
            rw [hqp, ht] at hx
            exact hxj ⟨(Option.some.inj hx).symm, hj⟩
          rw [if_neg hne, tableAt, hx, Option.bind_some, lookup, lookup,
            hn.words (h.used hq.tail hx) hxj]

theorem Tidy.unreached (h : Tidy r m) {f : Nat} (hf : m.pmm.bitmap f = false) {q : List Nat}
    (hq : TablePath q) : tableAt m.ram r q ≠ some f := by
  intro he
  rw [h.used hq he] at hf
  cases hf

theorem Tidy.puts_attach (h : Tidy r m) (hp : TablePath p)
    (ht : tableAt m.ram r p = some t) (hno : lookup m.ram t i = none)
    (hn : NewTable m m' t i w) : Puts r p i w m m' := by
  have htable : ∀ {q}, TablePath q →
      tableAt m'.ram r q = if q = i :: p then some (frameOf w) else tableAt m.ram r q :=
    fun hq => h.tableAt_attach hp ht hno hn hq
  have hpi : p ≠ i :: p := fun he => by simpa using congrArg List.length he
  refine ⟨⟨fun {a b x} ha hb hxa hxb => ?_, fun {a x} ha hxa => ?_⟩, ?_, fun {q j} hq hne => ?_,
    fun {x} hx => ⟨?_, hn.kept hx.1, fun q hq => ?_⟩⟩
  · rw [htable ha] at hxa
    rw [htable hb] at hxb
    by_cases hai : a = i :: p
    · by_cases hbi : b = i :: p
      · rw [hai, hbi]
      · rw [if_pos hai] at hxa
        rw [if_neg hbi, ← hxa] at hxb
        exact absurd hxb (h.unreached hn.free hb)
    · rw [if_neg hai] at hxa
      by_cases hbi : b = i :: p
      · rw [if_pos hbi] at hxb
        rw [← hxb] at hxa
        exact absurd hxa (h.unreached hn.free ha)
      · rw [if_neg hbi] at hxb
        exact h.apart ha hb hxa hxb
  · rw [htable ha] at hxa
    split at hxa
    · cases hxa
      exact hn.marked
    · exact hn.kept (h.used ha hxa)
  · have hpres : Mm.present (m'.ram t i) = true := by rw [hn.entry]; exact hn.present
    rw [wordAt, htable hp, if_neg hpi, ht, Option.bind_some, lookup_of_present hpres, hn.entry,
      if_pos hn.present]
  · rw [wordAt, wordAt, htable hq]
    by_cases hqi : q = i :: p
    · have hblank : lookup m'.ram (frameOf w) j = none :=
        lookup_of_absent (by rw [hn.zeros]; exact present_zero)
      rw [if_pos hqi, Option.bind_some, hblank, hqi, tableAt, ht, Option.bind_some, hno]
      rfl
    · rw [if_neg hqi]
      cases hx : tableAt m.ram r q with
      | none => rfl
      | some x =>
        have hxj : ¬ (x = t ∧ j = i) := by
          rintro ⟨hxt, hj⟩
          rw [hxt] at hx
          exact hne ⟨h.apart hq hp hx ht, hj⟩
        rw [Option.bind_some, Option.bind_some, lookup, lookup, hn.words (h.used hq hx) hxj]
  · funext j
    exact hn.words hx.1 fun he => hx.2 p hp (he.1 ▸ ht)
  · rw [htable hq]
    split
    · intro he
      have hused := hx.1
      rw [← Option.some.inj he, hn.free] at hused
      cases hused
    · exact hx.2 q hq

end entries

section descent

variable {m m' : Machine} {r t i u : Nat} {p : List Nat}

/-- A page taken from the allocator was free and holds zeros; otherwise memory stays. -/
theorem Machine.allocPage_free (m : Machine) :
    (∃ f, f ≠ 0 ∧ m.pmm.bitmap f = false ∧
      m.allocPage = (f, Machine.fill ⟨m.pmm.take f, m.ram⟩ f fun _ => 0)) ∨
    ∃ s : Pmm, (∀ f, m.pmm.bitmap f = true → s.bitmap f = true) ∧ m.allocPage = (0, ⟨s, m.ram⟩) := by
  have hpmm : (∃ f, m.pmm.bitmap f = false ∧ m.pmm.allocPage = (f * pageSize, m.pmm.take f)) ∨
      m.pmm.allocPage = (0, m.pmm) := by
    unfold Pmm.allocPage
    cases h1 : scan m.pmm.bitmap m.pmm.lastPage (totalPagesMax - m.pmm.lastPage) with
    | some f => exact Or.inl ⟨f, (scan_some h1).2.2.1, rfl⟩
    | none =>
      cases h2 : scan m.pmm.bitmap 0 m.pmm.lastPage with
      | some f => exact Or.inl ⟨f, (scan_some h2).2.2.1, rfl⟩
      | none => exact Or.inr rfl
  unfold Machine.allocPage
  cases hpmm with
  | inr hnone =>
    simp only [hnone]
    exact Or.inr ⟨m.pmm, fun _ => id, rfl⟩
  | inl hsome =>
    obtain ⟨f, hb, he⟩ := hsome
    simp only [he]
    have hpage : f * pageSize / pageSize = f := Nat.mul_div_cancel f (by decide)
    by_cases h0 : f * pageSize = 0
    · refine Or.inr ⟨m.pmm.take f, fun g hg => ?_, by rw [if_pos h0]⟩
      rw [take_bitmap, hg]
      split <;> rfl
    · rw [if_neg h0]
      by_cases hlim : identityMapLimit ≤ f * pageSize
      · refine Or.inr ⟨(m.pmm.take f).freePage (f * pageSize), fun g hg => ?_, by rw [if_pos hlim]⟩
        have hne : g ≠ f := by
          intro hgf
          rw [hgf, hb] at hg
          cases hg
        rw [freePage_bitmap, hpage, if_neg hne, take_bitmap, if_neg hne, hg]
      · refine Or.inl ⟨f, ?_, hb, by rw [if_neg hlim, hpage]⟩
        intro hz
        exact h0 (by rw [hz, Nat.zero_mul])

/-- The entries at `W` have got the flags `u` besides, and no walk to an entry of another table was
cut or led elsewhere. -/
structure Opened (r u : Nat) (W : List Nat → Nat → Prop) (m m' : Machine) : Prop where
  tidy : Tidy r m'
  off : ∀ {q j}, TablePath q → ¬ W q j → wordAt m'.ram r q j = wordAt m.ram r q j
  on : ∀ {q j w}, TablePath q → W q j → wordAt m.ram r q j = some w →
    wordAt m'.ram r q j = some (w ||| u)
  full : ∀ {q j}, TablePath q → W q j → ∃ w, wordAt m'.ram r q j = some w ∧ w ||| u = w
  idle : ∀ {x}, Idle r m x → m'.ram x = m.ram x ∧ Idle r m' x

theorem Opened.none (h : Tidy r m) (hram : m'.ram = m.ram)
    (hbit : ∀ x, m.pmm.bitmap x = true → m'.pmm.bitmap x = true) :
    Opened r u (fun _ _ => False) m m' := by
  refine ⟨⟨fun hp hq hx hy => ?_, fun hp hx => ?_⟩, fun _ _ => ?_, fun _ hw => hw.elim,
    fun _ hw => hw.elim, fun {x} hx => ⟨by rw [hram], hbit x hx.1, ?_⟩⟩
  · rw [hram] at hx hy
    exact h.apart hp hq hx hy
  · rw [hram] at hx
    exact hbit _ (h.used hp hx)
  · rw [hram]
  · rw [hram]
    exact hx.2

theorem Opened.trans {W W' : List Nat → Nat → Prop} {m₁ m₂ : Machine} (h : Opened r u W m m₁)
    (h' : Opened r u W' m₁ m₂) : Opened r u (fun q j => W q j ∨ W' q j) m m₂ where
  tidy := h'.tidy
  off hq hn := by
    rw [h'.off hq fun hw => hn (Or.inr hw), h.off hq fun hw => hn (Or.inl hw)]
  on {q j w} hq hw hword := by
    by_cases h1 : W q j
    · have hmid := h.on hq h1 hword
      by_cases h2 : W' q j
      · rw [h'.on hq h2 hmid, Nat.or_assoc, Nat.or_self]
      · rw [h'.off hq h2, hmid]
    · have h2 : W' q j := hw.resolve_left h1
      rw [h'.on hq h2]
      rw [h.off hq h1, hword]
  full {q j} hq hw := by
    by_cases h2 : W' q j
    · exact h'.full hq h2
    · obtain ⟨w, hword, hfull⟩ := h.full hq (hw.resolve_right h2)
      exact ⟨w, by rw [h'.off hq h2, hword], hfull⟩
  idle hx := by
    obtain ⟨hram, hmid⟩ := h.idle hx
    obtain ⟨hram', hend⟩ := h'.idle hmid
    exact ⟨hram'.trans hram, hend⟩

theorem Puts.opened {w : Nat} (h : Puts r p i w m m') (hw : present w = true) (hfull : w ||| u = w)
    (hold : ∀ v, wordAt m.ram r p i = some v → w = v ||| u) :
    Opened r u (fun q j => q = p ∧ j = i) m m' where
  tidy := h.tidy
  off hq hn := h.else_same hq hn
  on {q j v} hq he hv := by
    obtain ⟨rfl, rfl⟩ := he
    rw [h.here, if_pos hw, hold v hv]
  full {q j} hq he := by
    obtain ⟨rfl, rfl⟩ := he
    exact ⟨w, by rw [h.here, if_pos hw], hfull⟩
  idle hx := h.idle hx

theorem newTable_alloc {f : Nat} (hf : m.pmm.bitmap f = false) (ht : m.pmm.bitmap t = true)
    (hu : u < 4096) (hpu : present u = true) :
    NewTable m ((Machine.fill ⟨m.pmm.take f, m.ram⟩ f fun _ => 0).store t i (entry f u)) t i
      (entry f u) := by
  have hne : ∀ {x}, m.pmm.bitmap x = true → x ≠ f := by
    intro x hx he
    rw [he, hf] at hx
    cases hx
  have hfr : frameOf (entry f u) = f := frameOf_entry hu
  refine ⟨store_same _ _ _ _, by rw [present_entry]; exact hpu, by rw [hfr]; exact hf,
    fun j => ?_, fun {x j} hx hxj => ?_, ?_, fun {x} hx => ?_⟩
  · rw [hfr, store_frame _ _ _ (hne ht).symm, fill_same]
  · by_cases hxt : x = t
    · rw [hxt, store_index _ _ fun hj => hxj ⟨hxt, hj⟩, fill_frame _ _ (hne ht)]
    · rw [store_frame _ _ _ hxt, fill_frame _ _ (hne hx)]
  · rw [hfr, store_pmm, fill_pmm, take_bitmap, if_pos rfl]
  · rw [store_pmm, fill_pmm, take_bitmap, if_neg (hne hx), hx]

/-- One level of `map_page`. -/
theorem Tidy.descend (h : Tidy r m) (hp : TablePath p) (ht : tableAt m.ram r p = some t)
    (hu : u < 4096) (hpu : present u = true) :
    (∃ m', m.descend t i u = (none, m') ∧ Opened r u (fun _ _ => False) m m') ∨
    ∃ x m', m.descend t i u = (some x, m') ∧ Opened r u (fun q j => q = p ∧ j = i) m m' ∧
      tableAt m'.ram r (i :: p) = some x := by
  have hword : wordAt m.ram r p i = lookup m.ram t i := by rw [wordAt, ht, Option.bind_some]
  cases hold : present (m.ram t i) with
  | true =>
    have hw : present (m.ram t i ||| u) = true := by rw [present_or, hold, Bool.true_or]
    have hnew : lookup (m.store t i (m.ram t i ||| u)).ram t i = some (m.ram t i ||| u) := by
      rw [lookup, store_same, if_pos hw]
    have hputs := h.puts_store (i := i) (w := m.ram t i ||| u) hp ht fun _ => by
      rw [hnew, lookup_of_present hold, Option.map_some, Option.map_some, frameOf_or hu]
    refine Or.inr ⟨frameOf (m.ram t i), _, by simp only [Machine.descend, hold, if_true],
      hputs.opened hw (by rw [Nat.or_assoc, Nat.or_self]) fun v hv => ?_, ?_⟩
    · rw [hword, lookup_of_present hold] at hv
      rw [Option.some.inj hv]
    · rw [tableAt_cons, hputs.here, if_pos hw, Option.map_some, frameOf_or hu]
  | false =>
    have hno := lookup_of_absent hold
    cases m.allocPage_free with
    | inr hnull =>
      obtain ⟨s, hbit, he⟩ := hnull
      refine Or.inl ⟨⟨s, m.ram⟩, ?_, Opened.none h rfl hbit⟩
      simp only [Machine.descend, hold, Bool.false_eq_true, if_false, he, if_true]
    | inl hpage =>
      obtain ⟨f, h0, hf, he⟩ := hpage
      have hn := newTable_alloc (i := i) hf (h.used hp ht) hu hpu
      have hputs := h.puts_attach hp ht hno hn
      refine Or.inr ⟨f, _, by simp only [Machine.descend, hold, Bool.false_eq_true, if_false, he, h0],
        hputs.opened hn.present (by rw [entry, Nat.or_assoc, Nat.or_self]) fun v hv => ?_, ?_⟩
      · rw [hword, hno] at hv
        cases hv
      · rw [tableAt_cons, hputs.here, if_pos hn.present, Option.map_some, frameOf_entry hu]

/-- The entries on the way down from the table at `p` through the indices `is`. -/
def Way : List Nat → List Nat → List Nat → Nat → Prop
  | _, [], _, _ => False
  | p, i :: is, q, j => (q = p ∧ j = i) ∨ Way (i :: p) is q j

theorem Way.length_lt {is : List Nat} {q : List Nat} {j : Nat} (h : Way p is q j) :
    q.length < p.length + is.length := by
  induction is generalizing p with
  | nil => exact h.elim
  | cons i is ih =>
    cases h with
    | inl he =>
      rw [he.1, List.length_cons]
      omega
    | inr hw =>
      have := ih hw
      simp only [List.length_cons] at this ⊢
      omega

theorem Tidy.descendAll {is : List Nat} (h : Tidy r m) (hp : TablePath p)
    (hlen : p.length + is.length ≤ 3) (his : ∀ i ∈ is, i < 512) (ht : tableAt m.ram r p = some t)
    (hu : u < 4096) (hpu : present u = true) :
    (∃ W m', m.descendAll u t is = (none, m') ∧ Opened r u W m m' ∧
      ∀ q j, W q j → Way p is q j) ∨
    ∃ x m', m.descendAll u t is = (some x, m') ∧ Opened r u (Way p is) m m' ∧
      tableAt m'.ram r (is.reverse ++ p) = some x := by
  induction is generalizing p t m with
  | nil => exact Or.inr ⟨t, m, rfl, Opened.none h rfl fun _ => id, ht⟩
  | cons i is ih =>
    cases h.descend (i := i) hp ht hu hpu with
    | inl hstop =>
      obtain ⟨m₁, he, hopen⟩ := hstop
      exact Or.inl ⟨_, m₁, by simp only [Machine.descendAll, he], hopen, fun _ _ hw => hw.elim⟩
    | inr hgo =>
      obtain ⟨x, m₁, he, hopen, hx⟩ := hgo
      have hlen' : p.length + (is.length + 1) ≤ 3 := hlen
      have hp' : TablePath (i :: p) := hp.cons (by omega) (his i List.mem_cons_self)
      have hrest := ih hopen.tidy hp' (by simp only [List.length_cons]; omega)
        (fun j hj => his j (List.mem_cons_of_mem _ hj)) hx
      cases hrest with
      | inl hstop =>
        obtain ⟨W, m₂, he₂, hopen₂, hway⟩ := hstop
        refine Or.inl ⟨_, m₂, by simp only [Machine.descendAll, he, he₂], hopen.trans hopen₂, ?_⟩
        exact fun q j hw => hw.imp_right (hway q j)
      | inr hall =>
        obtain ⟨y, m₂, he₂, hopen₂, hy⟩ := hall
        refine Or.inr ⟨y, m₂, by simp only [Machine.descendAll, he, he₂], hopen.trans hopen₂, ?_⟩
        rw [List.reverse_cons, List.append_assoc]
        exact hy

end descent

end LosTacOS.Mm
