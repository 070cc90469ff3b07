import LosTacOS.Mm.FileReads

/-! `sys_mmap`: a process draws zeroed pages from a pointer that only moves up. -/
namespace LosTacOS.Mm

/-- `sys_mmap`: the base or 0, the process and the memory after the call. -/
def Machine.sysMmap (m : Machine) (p : Proc) (len : Nat) : Nat × Proc × Machine :=
  if len = 0 then (0, p, m)
  else
    let (done, m) := m.mapFresh p.pml4 (fun _ => none) (mmapPages len) p.mmapAddr
    (if done < mmapPages len then 0 else p.mmapAddr,
      { p with mmapNext := p.mmapAddr + done * 0x1000 }, m)

theorem Sys.mmap_eq {s : Sys} {pid : Nat} {p : Proc} (hp : s.procs pid = some p) (len : Nat) :
    s.mmap pid p len = { s with
      mm := (s.mm.sysMmap p len).2.2
      procs := Function.update s.procs pid (some (s.mm.sysMmap p len).2.1) } := by
  unfold Sys.mmap Machine.sysMmap
  split
  · rw [← hp, Function.update_eq_self]
  · rfl

def userTop : Nat := 2^47

def Machine.Zeroed (m : Machine) (r a : Nat) : Prop :=
  a < userTop ∧ (∃ f, translate m.ram r a = some ⟨f, true, true⟩) ∧ m.byteAt r a = some 0

/-- What a call owes to the process, which has got the ranges `given` (start and length) before. -/
structure Machine.MmapOk (m : Machine) (p : Proc) (given : List (Nat × Nat)) (len : Nat) : Prop where
  aligned : (m.sysMmap p len).1 ≠ 0 → (m.sysMmap p len).1 % 0x1000 = 0
  mapped : (m.sysMmap p len).1 ≠ 0 → ∀ a, (m.sysMmap p len).1 ≤ a →
    a / 0x1000 * 0x1000 < (m.sysMmap p len).1 + len → (m.sysMmap p len).2.2.Zeroed p.pml4 a
  apart : (m.sysMmap p len).1 ≠ 0 → ∀ g ∈ given,
    g.1 + g.2 ≤ (m.sysMmap p len).1 ∨ (m.sysMmap p len).1 + len ≤ g.1
  failed : (m.sysMmap p len).1 = 0 → (m.sysMmap p len).2.1 = p ∧
    (∀ va, leafEntry (m.sysMmap p len).2.2.ram p.pml4 va = leafEntry m.ram p.pml4 va) ∧
    (m.sysMmap p len).2.2.pmm.freePagesCount = m.pmm.freePagesCount

def Pmm.found (s : Pmm) : Option Nat :=
  (scan s.bitmap s.lastPage (totalPagesMax - s.lastPage)).or (scan s.bitmap 0 s.lastPage)

/-- The length does not wrap, and either every page and table is granted and lies in the user's
half, or the pointer is set and already the first page is refused, without page 0 being lost. -/
def Machine.MmapGranted (m : Machine) (p : Proc) (len : Nat) : Prop :=
  len + 0xFFF < 2^64 ∧
    (p.mmapAddr + mmapPages len * 0x1000 ≤ userTop ∧
        m.freshGranted p.pml4 (fun _ => none) (mmapPages len) p.mmapAddr = true ∨
      p.mmapNext ≠ 0 ∧ ∀ i, m.pmm.found = some i → identityMapLimit ≤ i * pageSize)

/-- The ranges that a process has got so far, and where its pointer is. Memory may be any at each
call; each call meets the condition. -/
inductive Calls (r : Nat) : Nat → List (Nat × Nat) → Prop
  | start : Calls r 0 []
  | call {next len : Nat} {given : List (Nat × Nat)} {m : Machine} : Calls r next given →
      Tidy r m → 0 < len → m.MmapGranted ⟨r, next⟩ len →
      Calls r (m.sysMmap ⟨r, next⟩ len).2.1.mmapNext
        (if (m.sysMmap ⟨r, next⟩ len).1 = 0 then given
          else ((m.sysMmap ⟨r, next⟩ len).1, len) :: given)

section refusal

variable {m : Machine}

theorem Pmm.allocPage_found (s : Pmm) : s.allocPage =
    match s.found with
    | some i => (i * pageSize, s.take i)
    | none => (0, s) := by
  unfold Pmm.allocPage Pmm.found
  cases scan s.bitmap s.lastPage (totalPagesMax - s.lastPage) with
  | some i => rfl
  | none => cases scan s.bitmap 0 s.lastPage <;> rfl

theorem take_freePage_count (s : Pmm) (i : Nat) :
    ((s.take i).freePage (i * pageSize)).freePagesCount = s.freePagesCount := by
  have hpage : i * pageSize / pageSize = i := Nat.mul_div_cancel i (by decide)
  have hbit : (s.take i).bitmap i = true := by rw [take_bitmap, if_pos rfl]
  have hcount : (s.take i).freePagesCount = s.freePagesCount - 1 := rfl
  simp only [Pmm.freePage, hpage, hbit, if_true]
  split
  · simp only [hcount, UInt64.sub_add_cancel]
  · simp only [hcount, UInt64.sub_add_cancel]

theorem allocPage_refused (h : ∀ i, m.pmm.found = some i → identityMapLimit ≤ i * pageSize) :
    m.allocPage.1 = 0 ∧ m.allocPage.2.ram = m.ram ∧
      m.allocPage.2.pmm.freePagesCount = m.pmm.freePagesCount := by
  cases hf : m.pmm.found with
  | none =>
    have ha : m.pmm.allocPage = (0, m.pmm) := by rw [Pmm.allocPage_found, hf]
    simp only [Machine.allocPage, ha, if_true]
    exact ⟨trivial, trivial, trivial⟩
  | some i =>
    have hlim := h i hf
    have h0 : i * pageSize ≠ 0 := by
      simp only [identityMapLimit] at hlim
      omega
    have ha : m.pmm.allocPage = (i * pageSize, m.pmm.take i) := by rw [Pmm.allocPage_found, hf]
    simp only [Machine.allocPage, ha, if_neg h0, if_pos hlim]
    exact ⟨trivial, trivial, take_freePage_count m.pmm i⟩

theorem found_of_refused (h0 : m.allocPage.1 = 0)
    (hc : m.allocPage.2.pmm.freePagesCount = m.pmm.freePagesCount) {i : Nat}
    (hf : m.pmm.found = some i) : identityMapLimit ≤ i * pageSize := by
  have ha : m.pmm.allocPage = (i * pageSize, m.pmm.take i) := by rw [Pmm.allocPage_found, hf]
  have hpage : i * pageSize / pageSize = i := Nat.mul_div_cancel i (by decide)
  by_contra hlim
  by_cases hz : i * pageSize = 0
  · -- page 0 is taken and not handed out
    simp only [Machine.allocPage, ha, if_pos hz] at hc
    have hcount : (m.pmm.take i).freePagesCount = m.pmm.freePagesCount - 1 := rfl
    rw [hcount] at hc
    grind
  · simp only [Machine.allocPage, ha, if_neg hz, if_neg hlim, hpage] at h0
    rw [h0] at hz
    simp at hz

end refusal

section tables

variable {m m' : Machine} {r t u : Nat} {p : List Nat}

theorem tableAt_none (h : tableAt m.ram r p = none) (is : List Nat) :
    tableAt m.ram r (is ++ p) = none := by
  induction is with
  | nil => exact h
  | cons i is ih => rw [List.cons_append, tableAt, ih, Option.bind_none]

theorem Tidy.descendAll_cut {is : List Nat} (h : Tidy r m) (hp : TablePath p)
    (hlen : p.length + is.length ≤ 3) (his : ∀ i ∈ is, i < 512) (ht : tableAt m.ram r p = some t)
    (hu : u < 4096) (hpu : present u = true) (he : m.descendAll u t is = (none, m')) :
    tableAt m'.ram r (is.reverse ++ p) = none := by
  induction is generalizing p t m with
  | nil => cases he
  | cons i is ih =>
    cases h.descend (i := i) hp ht hu hpu with
    | inl hstop =>
      obtain ⟨m₁, hd, -⟩ := hstop
      simp only [Machine.descendAll, hd] at he
      cases he
      rw [List.reverse_cons, List.append_assoc]
      refine tableAt_none ?_ _
      have hram : m'.ram = m.ram ∧ present (m.ram t i) = false := by
        unfold Machine.descend at hd
        dsimp only at hd
        split at hd
        · cases hd
        · rename_i hno
          refine ⟨?_, by simpa using hno⟩
          cases m.allocPage_free with
          | inl hpage =>
            obtain ⟨f, h0, -, ha⟩ := hpage
            simp only [ha, if_neg h0] at hd
            cases hd
          | inr hnull =>
            obtain ⟨s, -, ha⟩ := hnull
            simp only [ha, if_true] at hd
            cases hd
            rfl
      rw [List.singleton_append, tableAt, hram.1, ht, Option.bind_some, lookup_of_absent hram.2]
      rfl
    | inr hgo =>
      obtain ⟨x, m₁, hd, hopen, hx⟩ := hgo
      simp only [Machine.descendAll, hd] at he
      have hlen' : p.length + (is.length + 1) ≤ 3 := hlen
      have hp' : TablePath (i :: p) := hp.cons (by omega) (his i List.mem_cons_self)
      have hcut := ih hopen.tidy hp' (by simp only [List.length_cons]; omega)
        (fun j hj => his j (List.mem_cons_of_mem _ hj)) hx he
      rw [List.reverse_cons, List.append_assoc]
      exact hcut

theorem Tidy.mapPage_failed {va f flags : Nat} (h : Tidy r m)
    (he : m.mapPage r va f flags = (false, m')) : leafEntry m'.ram r va = none := by
  obtain ⟨hu, hpu⟩ := upperFlags_ok flags
  have hlt : ∀ i ∈ [pml4Index va, pdptIndex va, pdIndex va], i < 512 :=
    fun i hi => (leafPath_path va).2 i (by simpa [or_comm, or_assoc, or_left_comm] using hi)
  have hroot : TablePath [] := ⟨Nat.zero_le _, fun _ hi => absurd hi (by simp)⟩
  have hd : m.descendAll (upperFlags flags) r [pml4Index va, pdptIndex va, pdIndex va] =
      (none, m') := by
    unfold Machine.mapPage Machine.tableFor at he
    unfold upperFlags
    dsimp only at he
    split at he
    · rename_i m₁ heq
      cases he
      exact heq
    · cases he
  have hcut := h.descendAll_cut hroot (by simp) hlt rfl hu hpu hd
  rw [leafEntry_eq, wordAt]
  have hpath : [pml4Index va, pdptIndex va, pdIndex va].reverse ++ [] =
      [pdIndex va, pdptIndex va, pml4Index va] := rfl
  rw [← hpath, hcut, Option.bind_none]

end tables

section loop

variable {m m' : Machine} {r a : Nat}

def Writes (ram : Ram) (r a : Nat) : Prop := ∃ f, translate ram r a = some ⟨f, true, true⟩

theorem Writes.backed {ram : Ram} (h : Writes ram r a) : Backed ram r a := by
  obtain ⟨f, hf⟩ := h
  cases hl : leafEntry ram r a with
  | none =>
    rw [translate_none hl] at hf
    cases hf
  | some e1 =>
    obtain ⟨e4, e3, e2, h4, h3, h2, h1⟩ := words_of_leaf hl
    rw [Backed, hl, hf, Option.map_some]
    rw [translate_eq, h4, h3, h2, h1] at hf
    simp only [Option.bind_some, Option.map_some, Option.some.injEq, permit, Translation.mk.injEq,
      Bool.and_eq_true] at hf
    rw [hf.1, hf.2.1.2, hf.2.2.2]

/-- With the same entry a backed page gives the same rights. -/
theorem Writes.of_backed {ram ram' : Ram} (h : Writes ram r a) (hb : Backed ram' r a)
    (hl : leafEntry ram' r a = leafEntry ram r a) : Writes ram' r a := by
  have hold := h.backed
  obtain ⟨f, hf⟩ := h
  refine ⟨f, ?_⟩
  rw [Backed] at hb hold
  rw [hb, hl, ← hold, hf]

/-- Where the tables stay as they are, so do the rights. -/
theorem Calm.translate (h : Calm r m m')
    (hram : ∀ {q x}, TablePath q → tableAt m.ram r q = some x → m'.ram x = m.ram x) (va : Nat) :
    translate m'.ram r va = translate m.ram r va := by
  have hword : ∀ {q : List Nat} (j : Nat), TablePath q → wordAt m'.ram r q j = wordAt m.ram r q j := by
    intro q j hq
    rw [wordAt, wordAt, h.table hq]
    cases hx : tableAt m.ram r q with
    | none => rfl
    | some x => rw [Option.bind_some, Option.bind_some, lookup, lookup, hram hq hx]
  have hp := leafPath_path va
  rw [translate_eq, translate_eq, hword _ hp.tail.tail.tail, hword _ hp.tail.tail, hword _ hp.tail,
    hword _ hp]

theorem Drawn.translate {f : Nat} (h : Tidy r m) (hd : Drawn r m m' f) (va : Nat) :
    translate m'.ram r va = translate m.ram r va :=
  hd.calm.translate (fun hq hx => (hd.others (h.used hq hx)).2.2) va

/-- What `map_page` does not aim at it leaves alone, whether it succeeds or not. -/
theorem Tidy.mapPage_else {b f flags : Nat} (h : Tidy r m) (hne : ¬ SamePage b a) :
    leafEntry (m.mapPage r b f flags).2.ram r a = leafEntry m.ram r a := by
  cases h.mapPage b f flags with
  | inl hfail =>
    obtain ⟨W, m₁, he, hopen, hW⟩ := hfail
    rw [he]
    exact hopen.leafEntry hW a
  | inr hok =>
    obtain ⟨m₁, m₂, he, hopen, hputs⟩ := hok
    rw [he]
    exact (hputs.other hne).1.trans (hopen.leafEntry (fun q j hw => hw.length_lt) a)

/-- The page that `map_page` has just mapped for the user. -/
theorem Tidy.mapPage_writes {b f : Nat} (h : Tidy r m) (he : m.mapPage r b f 7 = (true, m'))
    (hs : SamePage b a) : Writes m'.ram r a := by
  have hpr : present 7 = true := by decide
  cases h.mapPage b f 7 with
  | inl hfail =>
    obtain ⟨W, m₁, he', -⟩ := hfail
    rw [he] at he'
    cases he'
  | inr hok =>
    obtain ⟨m₁, m₂, he', hopen, hputs⟩ := hok
    rw [he] at he'
    cases he'
    have hb := Puts.backed hopen hputs hpr
    have hl : leafEntry m'.ram r b = some (entry f 7) := by
      rw [leafEntry_eq, hputs.here, if_pos (by rw [present_entry, hpr])]
    have hw : writable (entry f 7) = true := by
      simp only [writable, entry, Nat.testBit_or, testBit_frame f (show 1 < 12 by norm_num)]
      decide
    have hu : user (entry f 7) = true := by
      rw [user_entry]
      decide
    refine ⟨frameOf (entry f 7), ?_⟩
    rw [Backed, hl, Option.map_some, hu, hw] at hb
    rw [← hb, translate_eq, translate_eq, hs.1, hs.2.1, hs.2.2.1, hs.2.2.2]

/-- Every page that is granted can be written by the user. -/
theorem Tidy.mapFresh_writes {n : Nat} :
    ∀ {addr : Nat} {m : Machine}, Tidy r m → m.freshGranted r (fun _ => none) n addr = true →
      addr % 4096 = 0 → addr + n * 4096 ≤ 2^48 → a < 2^48 →
      (addr ≤ a ∧ a < addr + n * 4096 ∨ Writes m.ram r a) →
      Writes (m.mapFresh r (fun _ => none) n addr).2.ram r a := by
  induction n with
  | zero => exact fun _ _ _ _ _ hor => hor.resolve_left (by omega)
  | succ n ih =>
    intro addr m h hg hmod hlt ha hor
    cases hal : m.allocPage with
    | mk f m₁ =>
      cases hm : m₁.mapPage r addr f 7 with
      | mk ok m₂ =>
        simp only [Machine.freshGranted, hal, hm, Bool.and_eq_true, decide_eq_true_eq,
          Machine.copyIn] at hg
        obtain ⟨⟨h0, rfl⟩, hg⟩ := hg
        have hd := h.drawn hal h0
        obtain ⟨htidy, -⟩ := hd.calm.tidy.maps (by decide) hm
        simp only [Machine.mapFresh, hal, if_neg h0, hm, Machine.copyIn]
        refine ih htidy hg (by omega) (by omega) ha ?_
        by_cases hs : SamePage addr a
        · exact Or.inr (hd.calm.tidy.mapPage_writes hm hs)
        · have hpage : ¬ addr / 4096 = a / 4096 := by rwa [samePage_iff (by omega) ha] at hs
          refine hor.imp (fun hin => by omega) fun hw => ?_
          have hw₁ : Writes m₁.ram r a := by
            obtain ⟨g, hg⟩ := hw
            exact ⟨g, by rw [hd.translate h, hg]⟩
          have hb := @Tidy.mapPage_backed m₁ r addr a f 7 hd.calm.tidy (by decide) hw₁.backed
          have hl := @Tidy.mapPage_else m₁ r a addr f 7 hd.calm.tidy hs
          rw [hm] at hb hl
          exact hw₁.of_backed hb hl

/-- A round of the loop that gets its page, mapped or not. -/
theorem Tidy.freshPage_else {addr f : Nat} (h : Tidy r m) (hal : m.allocPage = (f, m'))
    (h0 : f ≠ 0) (hne : ¬ SamePage addr a) :
    Tidy r (m'.mapPage r addr f 7).2 ∧
      leafEntry (m'.mapPage r addr f 7).2.ram r a = leafEntry m.ram r a := by
  have hd := h.drawn hal h0
  obtain ⟨htidy, -⟩ := @Tidy.mapPage_keeps m' r addr f 7 hd.calm.tidy (by decide)
  exact ⟨htidy, by rw [hd.calm.tidy.mapPage_else hne, hd.calm.leaf]⟩

/-- The loop does not touch what lies outside of its range. -/
theorem Tidy.mapFresh_else {n : Nat} :
    ∀ {addr : Nat} {m : Machine}, Tidy r m → addr % 4096 = 0 → addr + n * 4096 ≤ 2^48 →
      a < 2^48 → ¬ (addr ≤ a ∧ a < addr + n * 4096) → (m.mapFresh r (fun _ => none) n addr).1 = n →
      leafEntry (m.mapFresh r (fun _ => none) n addr).2.ram r a = leafEntry m.ram r a := by
  induction n with
  | zero => exact fun _ _ _ _ _ _ => rfl
  | succ n ih =>
    intro addr m h hmod hlt ha hout hdone
    cases hal : m.allocPage with
    | mk f m₁ =>
      simp only [Machine.mapFresh, hal] at hdone ⊢
      by_cases h0 : f = 0
      · rw [if_pos h0] at hdone
        cases hdone
      · rw [if_neg h0] at hdone ⊢
        have hne : ¬ SamePage addr a := by
          rw [samePage_iff (by omega) ha]
          omega
        obtain ⟨htidy, hl⟩ := h.freshPage_else hal h0 hne
        simp only [Machine.copyIn, Nat.add_right_cancel_iff] at hdone ⊢
        rw [ih htidy (by omega) (by omega) ha (by omega) hdone, hl]

theorem Tidy.mapFresh_unmapped {n : Nat} :
    ∀ {addr : Nat} {m : Machine}, Tidy r m → addr % 4096 = 0 → addr + n * 4096 ≤ 2^48 →
      (m.mapFresh r (fun _ => none) n addr).1 = n →
      m.freshGranted r (fun _ => none) n addr = false →
      ∃ i < n, leafEntry (m.mapFresh r (fun _ => none) n addr).2.ram r (addr + i * 4096) = none := by
  induction n with
  | zero => exact fun _ _ _ _ hg => by cases hg
  | succ n ih =>
    intro addr m h hmod hlt hdone hg
    cases hal : m.allocPage with
    | mk f m₁ =>
      simp only [Machine.mapFresh, hal] at hdone ⊢
      by_cases h0 : f = 0
      · rw [if_pos h0] at hdone
        cases hdone
      · rw [if_neg h0] at hdone ⊢
        have hd := h.drawn hal h0
        obtain ⟨htidy, -⟩ := @Tidy.mapPage_keeps m₁ r addr f 7 hd.calm.tidy (by decide)
        simp only [Machine.copyIn, Nat.add_right_cancel_iff] at hdone ⊢
        cases hm : m₁.mapPage r addr f 7 with
        | mk ok m₂ =>
          rw [hm] at htidy hdone
          dsimp only
          cases ok with
          | false =>
            refine ⟨0, by omega, ?_⟩
            rw [Nat.zero_mul, Nat.add_zero,
              htidy.mapFresh_else (by omega) (by omega) (by omega) (by omega) hdone]
            exact hd.calm.tidy.mapPage_failed hm
          | true =>
            have hg' : m₂.freshGranted r (fun _ => none) n (addr + 0x1000) = false := by
              simpa [Machine.freshGranted, hal, hm, h0, Machine.copyIn] using hg
            obtain ⟨i, hi, hl⟩ := ih htidy (by omega) (by omega) hdone hg'
            refine ⟨i + 1, by omega, ?_⟩
            rwa [show addr + (i + 1) * 4096 = addr + 0x1000 + i * 4096 by omega]

end loop

section call

variable {m : Machine} {p : Proc} {given : List (Nat × Nat)} {len : Nat}

/-- The number of pages of a length that does not wrap. -/
theorem mmapPages_eq (hlen : 0 < len) (hw : len + 0xFFF < 2^64) :
    len ≤ mmapPages len * 0x1000 ∧ mmapPages len * 0x1000 < len + 0x1000 ∧ 0 < mmapPages len := by
  rw [mmapPages, Nat.mod_eq_of_lt hw]
  omega

theorem mmapAddr_pos (p : Proc) : p.mmapAddr ≠ 0 := by
  unfold Proc.mmapAddr
  split
  · decide
  · assumption

theorem sysMmap_done (hlen : 0 < len)
    (hd : (m.mapFresh p.pml4 (fun _ => none) (mmapPages len) p.mmapAddr).1 = mmapPages len) :
    m.sysMmap p len = (p.mmapAddr, { p with mmapNext := p.mmapAddr + mmapPages len * 0x1000 },
      (m.mapFresh p.pml4 (fun _ => none) (mmapPages len) p.mmapAddr).2) := by
  simp only [Machine.sysMmap, if_neg (show ¬ len = 0 by omega), hd, Nat.lt_irrefl, if_false]

theorem sysMmap_refused (hlen : 0 < len)
    (hd : (m.mapFresh p.pml4 (fun _ => none) (mmapPages len) p.mmapAddr).1 < mmapPages len) :
    m.sysMmap p len = (0,
      { p with mmapNext := p.mmapAddr +
          (m.mapFresh p.pml4 (fun _ => none) (mmapPages len) p.mmapAddr).1 * 0x1000 },
      (m.mapFresh p.pml4 (fun _ => none) (mmapPages len) p.mmapAddr).2) := by
  simp only [Machine.sysMmap, if_neg (show ¬ len = 0 by omega), if_pos hd]

/-- The loop stops at once when the first page is refused. -/
theorem mapFresh_first {r n addr : Nat} (hn : 0 < n) :
    (m.mapFresh r (fun _ => none) n addr).1 = 0 ↔ m.allocPage.1 = 0 := by
  obtain ⟨n, rfl⟩ := Nat.exists_eq_add_of_lt hn
  simp only [Nat.zero_add, Machine.mapFresh]
  split
  · rename_i h
    simp only [h]
  · rename_i h
    simp only [h, Nat.add_one_ne_zero]

theorem mapFresh_stopped {r n addr : Nat} (hn : 0 < n) (h : m.allocPage.1 = 0) :
    m.mapFresh r (fun _ => none) n addr = (0, m.allocPage.2) := by
  obtain ⟨n, rfl⟩ := Nat.exists_eq_add_of_lt hn
  simp only [Nat.zero_add, Machine.mapFresh, h, if_true]

theorem mapFresh_le {r : Nat} {contents : Nat → Option (Nat → Nat)} (n : Nat) :
    ∀ {addr : Nat} {m : Machine}, (m.mapFresh r contents n addr).1 ≤ n := by
  induction n with
  | zero => exact Nat.le_refl 0
  | succ n ih =>
    intro addr m
    simp only [Machine.mapFresh]
    split
    · exact Nat.zero_le _
    · exact Nat.succ_le_succ ih

theorem page_lt {n i : Nat} (b : Nat) (hi : i < n) (hlt : n * 0x1000 < len + 0x1000) :
    (b + i * 0x1000) / 0x1000 * 0x1000 < b + len := by
  have hle := Nat.div_mul_le_self (b + i * 0x1000) 0x1000
  exact hle.trans_lt (by omega)

theorem last_lt (b : Nat) (hlen : 0 < len) :
    (b + (len - 1)) / 0x1000 * 0x1000 < b + len := by
  have hle := Nat.div_mul_le_self (b + (len - 1)) 0x1000
  exact hle.trans_lt (by omega)

theorem MmapGranted.ok (h : m.MmapGranted p len) (ht : Tidy p.pml4 m) (hlen : 0 < len)
    (hp : p.mmapNext % 0x1000 = 0) (hg : ∀ g ∈ given, g.1 + g.2 ≤ p.mmapAddr) :
    m.MmapOk p given len := by
  obtain ⟨hw, hcase⟩ := h
  obtain ⟨hle, hlt, hpos⟩ := mmapPages_eq hlen hw
  have hmod : p.mmapAddr % 4096 = 0 := by
    unfold Proc.mmapAddr
    split
    · decide
    · exact hp
  rcases hcase with ⟨htop, hgr⟩ | ⟨hnext, hfound⟩
  · have h48 : p.mmapAddr + mmapPages len * 4096 ≤ 2^48 := by
      simp only [userTop] at htop
      omega
    obtain ⟨hdone, -, -, hshow⟩ := ht.mapFresh hgr hmod h48
    have hcall := sysMmap_done hlen hdone
    have hbase : (m.sysMmap p len).1 = p.mmapAddr := by rw [hcall]
    refine ⟨fun _ => ?_, fun _ a hlo hhi => ?_, fun _ g hgm => ?_, fun h0 => ?_⟩
    · rw [hbase]
      exact hmod
    · rw [hbase] at hlo hhi
      have hin : a < p.mmapAddr + mmapPages len * 4096 := by omega
      rw [hcall]
      refine ⟨by omega, ?_, ?_⟩
      · exact ht.mapFresh_writes hgr hmod h48 (by omega) (Or.inl ⟨hlo, hin⟩)
      · have hb := (hshow a hlo hin).byteAt
        rw [hb, pageOf, byteOf, Nat.zero_div]
        rfl
    · rw [hbase]
      exact Or.inl (hg g hgm)
    · rw [hbase] at h0
      exact absurd h0 (mmapAddr_pos p)
  · obtain ⟨h0, hram, hcount⟩ := allocPage_refused hfound
    have hstop := @mapFresh_stopped m p.pml4 (mmapPages len) p.mmapAddr hpos h0
    have hcall := @sysMmap_refused m p len hlen (by rw [hstop]; exact hpos)
    rw [hstop] at hcall
    have haddr : p.mmapAddr = p.mmapNext := by rw [Proc.mmapAddr, if_neg hnext]
    simp only [Nat.zero_mul, Nat.add_zero, haddr] at hcall
    have hzero : (m.sysMmap p len).1 = 0 := by rw [hcall]
    refine ⟨fun hne => absurd hzero hne, fun hne => absurd hzero hne,
      fun hne => absurd hzero hne, fun _ => ?_⟩
    rw [hcall]
    refine ⟨rfl, fun va => ?_, hcount⟩
    simp only [hram]

theorem MmapOk.granted (h : m.MmapOk p given len) (ht : Tidy p.pml4 m) (hlen : 0 < len)
    (h64 : len < 2^64) : m.MmapGranted p len := by
  have hne := mmapAddr_pos p
  by_cases hw : len + 0xFFF < 2^64
  · refine ⟨hw, ?_⟩
    obtain ⟨hle, hlt, hpos⟩ := mmapPages_eq hlen hw
    by_cases hd : (m.mapFresh p.pml4 (fun _ => none) (mmapPages len) p.mmapAddr).1 < mmapPages len
    · -- a refused page: nothing may have changed
      have hcall := sysMmap_refused hlen hd
      obtain ⟨hproc, -, hcount⟩ := h.failed (by rw [hcall])
      rw [hcall] at hproc hcount
      have hnext := congrArg Proc.mmapNext hproc
      simp only [Proc.mmapAddr] at hnext
      have hn0 : p.mmapNext ≠ 0 := by
        intro hz
        rw [if_pos hz, hz, mmapBase] at hnext
        omega
      rw [if_neg hn0] at hnext
      have hz : (m.mapFresh p.pml4 (fun _ => none) (mmapPages len) p.mmapAddr).1 = 0 := by
        simp only [Proc.mmapAddr, if_neg hn0]
        omega
      have h0 := (mapFresh_first hpos).mp hz
      rw [mapFresh_stopped hpos h0] at hcount
      exact Or.inr ⟨hn0, fun i hi => found_of_refused h0 hcount hi⟩
    · have hdone : (m.mapFresh p.pml4 (fun _ => none) (mmapPages len) p.mmapAddr).1 =
          mmapPages len := Nat.le_antisymm (mapFresh_le _) (Nat.not_lt.mp hd)
      have hcall := sysMmap_done hlen hdone
      have hbase : (m.sysMmap p len).1 = p.mmapAddr := by rw [hcall]
      have hmod := h.aligned (by rw [hbase]; exact hne)
      have hmap := h.mapped (by rw [hbase]; exact hne)
      rw [hbase] at hmod hmap
      rw [hcall] at hmap
      have hlast := (hmap _ (Nat.le_add_right _ _) (last_lt p.mmapAddr hlen)).1
      have htop : p.mmapAddr + mmapPages len * 0x1000 ≤ userTop := by
        simp only [userTop] at hlast ⊢
        omega
      refine Or.inl ⟨htop, ?_⟩
      by_contra hgr
      have h48 : p.mmapAddr + mmapPages len * 4096 ≤ 2^48 := by
        simp only [userTop] at htop
        omega
      obtain ⟨i, hi, hl⟩ := ht.mapFresh_unmapped hmod h48 hdone (by simpa using hgr)
      obtain ⟨-, -, hbyte⟩ := hmap _ (Nat.le_add_right _ _) (page_lt p.mmapAddr hi hlt)
      rw [Machine.byteAt, hl] at hbyte
      cases hbyte
  · -- a length that wraps asks for no page at all
    have hzero : mmapPages len = 0 := by
      rw [mmapPages]
      omega
    have hcall := @sysMmap_done m p len hlen (by rw [hzero]; rfl)
    have hbase : (m.sysMmap p len).1 = p.mmapAddr := by rw [hcall]
    have hmap := h.mapped (by rw [hbase]; exact hne)
    rw [hbase] at hmap
    have hlast := (hmap _ (Nat.le_add_right _ _) (last_lt p.mmapAddr hlen)).1
    simp only [userTop] at hlast
    omega

end call

section runs

variable {r next : Nat} {given : List (Nat × Nat)}

structure Bumped (next : Nat) (given : List (Nat × Nat)) : Prop where
  aligned : next % 0x1000 = 0
  above : ∀ g ∈ given, g.1 + g.2 ≤ next
  unset : next = 0 → given = []

theorem Bumped.addr (h : Bumped next given) : ∀ g ∈ given, g.1 + g.2 ≤ (⟨r, next⟩ : Proc).mmapAddr := by
  intro g hg
  unfold Proc.mmapAddr
  split
  · rename_i h0
    rw [h.unset h0] at hg
    cases hg
  · exact h.above g hg

theorem Bumped.call {m : Machine} {len : Nat} (h : Bumped next given) (ht : Tidy r m)
    (hlen : 0 < len) (hgr : m.MmapGranted ⟨r, next⟩ len) :
    Bumped (m.sysMmap ⟨r, next⟩ len).2.1.mmapNext
      (if (m.sysMmap ⟨r, next⟩ len).1 = 0 then given
        else ((m.sysMmap ⟨r, next⟩ len).1, len) :: given) := by
  have hok : m.MmapOk ⟨r, next⟩ given len := MmapGranted.ok hgr ht hlen h.aligned h.addr
  obtain ⟨hle, hlt, hpos⟩ := mmapPages_eq hlen hgr.1
  by_cases h0 : (m.sysMmap ⟨r, next⟩ len).1 = 0
  · rw [if_pos h0, (hok.failed h0).1]
    exact h
  · rw [if_neg h0]
    have hal := hok.aligned h0
    have hdone : (m.mapFresh r (fun _ => none) (mmapPages len) (⟨r, next⟩ : Proc).mmapAddr).1 =
        mmapPages len := by
      by_contra hne
      have hlt : (m.mapFresh r (fun _ => none) (mmapPages len) (⟨r, next⟩ : Proc).mmapAddr).1 <
          mmapPages len := Nat.lt_of_le_of_ne (mapFresh_le _) hne
      exact h0 (by rw [sysMmap_refused hlen hlt])
    have hcall := @sysMmap_done m ⟨r, next⟩ len hlen hdone
    have habove := @Bumped.addr r next given h
    rw [hcall] at hal ⊢
    simp only at hal ⊢
    refine ⟨by omega, fun g hg => ?_, fun hz => by omega⟩
    rcases List.mem_cons.mp hg with rfl | hg
    · simp only
      omega
    · have := habove g hg
      omega

theorem Calls.bumped (h : Calls r next given) : Bumped next given := by
  induction h with
  | start => exact ⟨rfl, fun _ hg => (by cases hg), fun _ => rfl⟩
  | call _ ht hlen hgr ih => exact ih.call ht hlen hgr

/-- After any calls that met the condition, the next one keeps its promises exactly when it meets
the condition too. -/
theorem mmapOk_iff {m : Machine} {len : Nat} (h : Calls r next given) (ht : Tidy r m)
    (hlen : 0 < len) (h64 : len < 2^64) :
    m.MmapOk ⟨r, next⟩ given len ↔ m.MmapGranted ⟨r, next⟩ len :=
  ⟨fun hok => MmapOk.granted hok ht hlen h64,
    fun hgr => MmapGranted.ok hgr ht hlen h.bumped.aligned h.bumped.addr⟩

/-- The first page of a process. -/
theorem mmapOk_iff_first_page : blankTable.MmapOk ⟨0x100, 0⟩ [] 1 := by
  have hgr : blankTable.freshGranted 0x100 (fun _ => none) 1 0x50000000 = true := by
    decide +kernel
  have htop : mmapBase + mmapPages 1 * 0x1000 ≤ userTop := by decide
  exact (mmapOk_iff .start blankTable_tidy Nat.one_pos (by norm_num)).mpr
    ⟨by norm_num, Or.inl ⟨htop, hgr⟩⟩

/-- A length whose round-up wraps is answered with a base and no page. -/
theorem wrapped_length_unmapped :
    ¬ ∀ (m : Machine) (r next len : Nat) (given : List (Nat × Nat)), Calls r next given →
      Tidy r m → 0 < len → len < 2^64 → m.MmapOk ⟨r, next⟩ given len := by
  intro hall
  have hok := hall blankTable 0x100 0 (2^64 - 1) [] .start blankTable_tidy (by norm_num)
    (by norm_num)
  have hgr := MmapOk.granted hok blankTable_tidy (by norm_num) (by norm_num)
  exact absurd hgr.1 (by norm_num)

end runs

end LosTacOS.Mm
