import LosTacOS.Mm.Exec

/-! `create_user_stack` and how many pages it needs. -/
namespace LosTacOS.Mm

variable {Z : Prop} {k : Nat} {fb : Framebuffer} {m : Machine} {own : Nat → Owner}

section supply

theorem allocPage_congr {m m' : Machine} (h : m.pmm = m'.pmm) :
    m.allocPage.1 = m'.allocPage.1 ∧ m.allocPage.2.pmm = m'.allocPage.2.pmm := by
  simp only [Machine.allocPage, h]
  split_ifs <;> exact ⟨rfl, rfl⟩

/-- The supply of pages is a matter of the allocator alone. -/
theorem supplies_congr {n : Nat} {m m' : Machine} (h : m.pmm = m'.pmm) :
    m.supplies n = m'.supplies n := by
  induction n generalizing m m' with
  | zero => rfl
  | succ n ih =>
    obtain ⟨h1, h2⟩ := allocPage_congr h
    rw [Machine.supplies, Machine.supplies, h1, ih h2]

theorem supplies_succ {n f : Nat} {m' : Machine} (h : m.supplies (n + 1) = true)
    (he : m.allocPage = (f, m')) : f ≠ 0 ∧ m'.supplies n = true := by
  simpa [Machine.supplies, he] using h

theorem supplies_le {n j : Nat} (h : m.supplies (n + j) = true) : m.supplies n = true := by
  induction n generalizing m with
  | zero => rfl
  | succ n ih =>
    rw [Nat.add_right_comm] at h
    cases he : m.allocPage with
    | mk f m' =>
      obtain ⟨h0, hs⟩ := supplies_succ h he
      simp only [Machine.supplies, he, ih hs, Bool.and_true]
      exact decide_eq_true h0

theorem lacking_le {t : Nat} {is : List Nat} : m.lacking t is ≤ is.length := by
  induction is generalizing t with
  | nil => exact Nat.le_refl _
  | cons i is ih =>
    unfold Machine.lacking
    split
    · exact Nat.le_succ_of_le ih
    · exact Nat.le_refl _

theorem descendAll_blank {u j : Nat} {is : List Nat} :
    ∀ {m : Machine} {t : Nat}, m.pmm.lastPage ≤ totalPagesMax →
      (∀ i, present (m.ram t i) = false) → m.pmm.bitmap t = true →
      m.supplies (j + is.length) = true →
      ∃ t', (m.descendAll u t is).1 = some t' ∧ (m.descendAll u t is).2.supplies j = true := by
  induction is with
  | nil => intro m t _ _ _ hs; exact ⟨t, rfl, hs⟩
  | cons i is ih =>
    intro m t hc hblank hused hs
    cases m.allocPage_cases hc with
    | inl hpage =>
      obtain ⟨f, h0, hf, hb, he⟩ := hpage
      obtain ⟨-, hs'⟩ := supplies_succ (n := j + is.length) (by simpa [Nat.add_assoc] using hs) he
      have hft : f ≠ t := by
        intro hft
        rw [hft, hused] at hb
        exact Bool.noConfusion hb
      have hd : m.descend t i u =
          (some f, (Machine.fill ⟨m.pmm.take f, m.ram⟩ f fun _ => 0).store t i (entry f u)) := by
        simp only [Machine.descend, hblank i, Bool.false_eq_true, if_false, he, h0]
      simp only [Machine.descendAll, hd]
      refine ih (by simpa using hf) (fun l => ?_) (by simp) ?_
      · rw [store_frame _ _ _ hft, fill_same]
        exact present_zero
      · rw [← hs']
        exact supplies_congr rfl
    | inr hnull =>
      obtain ⟨s, -, -, he⟩ := hnull
      obtain ⟨hne, -⟩ := supplies_succ (n := j + is.length) (by simpa [Nat.add_assoc] using hs) he
      exact absurd rfl hne

/-- A word above does not matter for what is lacking below. -/
theorem Owned.lacking_store (h : Owned Z k fb m own) {t a i w : Nat} {p : List Nat}
    (ht : own t = .table a p) {is : List Nat} :
    ∀ {x b : Nat} {q : List Nat}, own x = .table b q → p.length < q.length →
      q.length + is.length ≤ 3 → (m.store t i w).lacking x is = m.lacking x is := by
  induction is with
  | nil => intros; rfl
  | cons l is ih =>
    intro x b q hx hlt hlen
    have hxt : x ≠ t := by
      intro he
      rw [he, ht] at hx
      cases hx
      omega
    simp only [List.length_cons] at hlen
    simp only [Machine.lacking, store_frame _ _ _ hxt]
    split_ifs with hp
    · cases h.child hx (by omega) hp with
      | inl hc => exact ih hc (by simp; omega) (by simp; omega)
      | inr hc => exact ih hc.2.2 (by simp; omega) (by simp; omega)
    · rfl

/-- The way down succeeds when the allocator can supply the tables it lacks. -/
theorem Owned.descendAll_supplied {u j : Nat} (hu : u = 3 ∨ u = 7) {is : List Nat} :
    ∀ {m : Machine} {own : Nat → Owner} {t a : Nat} {p : List Nat}, Owned Z k fb m own →
      own t = .table a p → p.length + is.length ≤ 3 → m.supplies (j + m.lacking t is) = true →
      ∃ t', (m.descendAll u t is).1 = some t' ∧ (m.descendAll u t is).2.supplies j = true := by
  obtain ⟨hu12, hpu⟩ := or_seven hu
  induction is with
  | nil => intro m own t a p _ _ _ hs; exact ⟨t, rfl, hs⟩
  | cons i is ih =>
    intro m own t a p h ht hlen hs
    simp only [List.length_cons] at hlen
    cases hp : present (m.ram t i) with
    | true =>
      have hd : m.descend t i u = (some (frameOf (m.ram t i)), m.store t i (m.ram t i ||| u)) := by
        simp only [Machine.descend, hp, if_true]
      have h' : Owned Z k fb (m.store t i (m.ram t i ||| u)) own := by
        refine h.reflag ht (by omega) hp (by rw [present_or, hp]; rfl) (frameOf_or hu12) fun h7 => ?_
        rw [Nat.or_assoc, Nat.or_comm u 7, ← Nat.or_assoc, h7]
      simp only [Machine.lacking, hp, if_true] at hs
      simp only [Machine.descendAll, hd]
      have hnext : ∀ b, own (frameOf (m.ram t i)) = .table b (i :: p) →
          ∃ t', ((m.store t i (m.ram t i ||| u)).descendAll u (frameOf (m.ram t i)) is).1 = some t' ∧
            ((m.store t i (m.ram t i ||| u)).descendAll u (frameOf (m.ram t i)) is).2.supplies j
              = true := by
        intro b hb
        refine ih h' hb (by simp; omega) ?_
        rw [h.lacking_store ht hb (by simp) (by simp; omega), ← hs]
        exact supplies_congr rfl
      cases h.child ht (by omega) hp with
      | inl hc => exact hnext _ hc
      | inr hc => exact hnext _ hc.2.2
    | false =>
      obtain ⟨f, m₁, he, h₁, hkept, hfresh⟩ := h.allocPage
      simp only [Machine.lacking, hp, Bool.false_eq_true, if_false, ← Nat.add_assoc] at hs
      obtain ⟨h0, hs₁⟩ := supplies_succ hs he
      obtain ⟨hf, -, hblank⟩ := hfresh h0
      have hd : m.descend t i u = (some f, m₁.store t i (entry f u)) := by
        simp only [Machine.descend, hp, Bool.false_eq_true, if_false, he, h0]
      have hft : f ≠ t := by
        intro hft
        rw [← hft] at ht
        exact hf.no_table a p ht
      simp only [Machine.descendAll, hd]
      refine descendAll_blank h₁.cursor (fun l => ?_) hf.used ?_
      · rw [store_frame _ _ _ hft, hblank]
        exact present_zero
      · rw [← hs₁]
        exact supplies_congr rfl

end supply

theorem mapPage_supplied (h : Owned Z k fb m own) {r va f j flags : Nat}
    (hroot : own r = .table r []) (hu : user flags = true)
    (hs : m.supplies (j + m.missing r va) = true) :
    (m.mapPage r va f flags).1 = true ∧ (m.mapPage r va f flags).2.supplies j = true := by
  obtain ⟨t, ht, hs'⟩ := h.descendAll_supplied (Or.inr rfl) hroot (by simp) hs
  have hres : m.mapPage r va f flags =
      (true, (m.descendAll 7 r [pml4Index va, pdptIndex va, pdIndex va]).2.store t (ptIndex va)
        (entry f flags)) := by
    cases hd : m.descendAll 7 r [pml4Index va, pdptIndex va, pdIndex va] with
    | mk o m' =>
      rw [hd] at ht
      simp only at ht
      simp only [Machine.mapPage, Machine.tableFor, hu, if_true, hd, ht]
  rw [hres]
  exact ⟨rfl, by rw [← hs']; exact supplies_congr rfl⟩

theorem user_seven : user 7 = true := by decide

theorem missing_le {r va : Nat} : m.missing r va ≤ 3 := lacking_le

theorem Owned.missing_zero (h : Owned Z k fb m own) {r t va : Nat}
    (ht : own t = .table r [pdIndex va, pdptIndex va, pml4Index va]) : m.missing r va = 0 := by
  obtain ⟨pd, hpd, hp2, -⟩ := h.parent ht
  obtain ⟨pdpt, hpdpt, hp3, hf3⟩ := h.parent hpd
  obtain ⟨root, hroot, hp4, hf4⟩ := h.parent hpdpt
  have he := h.root hroot
  subst he
  simp only [Machine.missing, Machine.lacking, hp4, if_true, hf4, hp3, hf3, hp2]

theorem Owned.lacking_congr (h : Owned Z k fb m own) {m' : Machine}
    (hram : ∀ x a p, own x = .table a p → m'.ram x = m.ram x) {is : List Nat} :
    ∀ {x b : Nat} {q : List Nat}, own x = .table b q → q.length + is.length ≤ 3 →
      m'.lacking x is = m.lacking x is := by
  induction is with
  | nil => intros; rfl
  | cons i is ih =>
    intro x b q hx hlen
    simp only [List.length_cons] at hlen
    simp only [Machine.lacking, hram x b q hx]
    split_ifs with hp
    · cases h.child hx (by omega) hp with
      | inl hc => exact ih hc (by simp; omega)
      | inr hc => exact ih hc.2.2 (by simp; omega)
    · rfl

/-- All pages of the stack hang below the same lowest table. -/
theorem stack_index {n addr : Nat} (he : addr + n * 0x1000 = stackTop) (h0 : 0 < n)
    (hn : n ≤ stackPages) : pml4Index addr = pml4Index stackBase ∧
      pdptIndex addr = pdptIndex stackBase ∧ pdIndex addr = pdIndex stackBase := by
  have e4 : pml4Index stackBase = 0 := by decide
  have e3 : pdptIndex stackBase = 511 := by decide
  have e2 : pdIndex stackBase = 511 := by decide
  have ht : stackTop = 549755813888 := rfl
  have hs : stackPages = 64 := rfl
  rw [ht] at he
  rw [hs] at hn
  rw [e4, e3, e2]
  simp only [pml4Index, pdptIndex, pdIndex]
  norm_num
  omega

theorem stackBase_add : stackBase + stackPages * 0x1000 = stackTop := by
  decide

/-- The loop of `create_user_stack`. Where frame 0 must not be mapped, the allocator has to
supply every page of the stack and every missing table. -/
theorem Owned.mapStack {r : Nat} (hr : r ≠ k) {n : Nat} :
    ∀ {m : Machine} {own : Nat → Owner} {addr top : Nat}, Owned Z k fb m own →
      own r = .table r [] → addr + n * 0x1000 = stackTop → n ≤ stackPages →
      m.vacant k stackBase = true →
      (Z ∨ m.supplies (n + m.missing r stackBase) = true) →
      (top = 0 ∨ n = 0 ∧ ∀ a p, own top ≠ .table a p) →
      ∃ own', Working Z k fb r m own (m.mapStack r n addr top).2 own' ∧
        ∀ a p, own' (m.mapStack r n addr top).1 ≠ .table a p := by
  induction n with
  | zero =>
    intro m own addr top h _ _ _ _ _ htop
    refine ⟨own, Working.refl h r, fun a p => ?_⟩
    cases htop with
    | inl h0 =>
      simp only [Machine.mapStack, h0, h.zero]
      exact Owner.noConfusion
    | inr ht => exact ht.2 a p
  | succ n ih =>
    intro m own addr top h hroot hend hn hv hz htop
    obtain ⟨e4, e3, e2⟩ := stack_index hend (by omega) hn
    have hmiss : ∀ m : Machine, m.missing r addr = m.missing r stackBase := by
      intro m
      simp only [Machine.missing, e4, e3, e2]
    obtain ⟨f, m₁, he₁, h₁, hkept, hfresh⟩ := h.allocPage
    have e₁ : Ext r m m₁ own own := Ext.of_used h hkept
    -- what is left of the supply after the page itself
    have hz₁ : Z ∨ f ≠ 0 ∧ m₁.supplies (n + m₁.missing r addr) = true := by
      refine hz.imp_right fun hs => ?_
      rw [Nat.add_right_comm] at hs
      obtain ⟨h0, hs₁⟩ := supplies_succ hs he₁
      refine ⟨h0, ?_⟩
      rw [hmiss, Machine.missing, h.lacking_congr (fun x a p hx => (hkept x (h.used (by simp [hx]))).1)
        hroot (by simp)]
      exact hs₁
    have hmap : Mappable Z fb m₁ own f := by
      by_cases h0 : f = 0
      · cases hz₁ with
        | inl hZ => exact Or.inr (Or.inr ⟨hZ, h0⟩)
        | inr hs => exact absurd h0 hs.1
      · exact Or.inl (hfresh h0).1
    have hv₁ : m₁.vacant k addr = true := by
      have := Machine.vacant_ext h hr e₁ hv
      simpa only [Machine.vacant, e4, e3] using this
    obtain ⟨o₂, h₂, e₂, -, hnt, htab⟩ := h₁.mapPage hr hroot hv₁ (show 7 < 4096 by norm_num) hmap
    have e₁₂ := e₁.trans e₂
    have hz₂ : Z ∨ (m₁.mapPage r addr f 7).2.supplies
        (n + (m₁.mapPage r addr f 7).2.missing r stackBase) = true := by
      refine hz₁.imp_right fun hs => ?_
      obtain ⟨hok, hs₂⟩ := mapPage_supplied (f := f) h₁ hroot user_seven hs.2
      obtain ⟨t, ht⟩ := htab hok
      rw [← hmiss, h₂.missing_zero ht]
      exact hs₂
    have htop' : (if addr + 0x1000 = stackTop then f else top) = 0 ∨
        n = 0 ∧ ∀ a p, o₂ (if addr + 0x1000 = stackTop then f else top) ≠ .table a p := by
      split_ifs with hlast
      · by_cases h0 : f = 0
        · exact Or.inl h0
        · exact Or.inr ⟨by omega, hnt (hfresh h0).1⟩
      · cases htop with
        | inl h0 => exact Or.inl h0
        | inr ht => omega
    have hres : m.mapStack r (n + 1) addr top =
        (m₁.mapPage r addr f 7).2.mapStack r n (addr + 0x1000)
          (if addr + 0x1000 = stackTop then f else top) := by
      simp only [Machine.mapStack, he₁]
    rw [hres]
    have hend' : addr + 0x1000 + n * 0x1000 = stackTop := by omega
    obtain ⟨o₃, w₃, hnt₃⟩ := ih h₂ (e₂.keep hroot) hend' (Nat.le_of_succ_le hn)
      (Machine.vacant_ext h hr e₁₂ hv) hz₂ htop'
    exact ⟨o₃, Working.trans ⟨h₂, e₁₂⟩ w₃, hnt₃⟩

/-- `create_user_stack` in a user space. -/
theorem Owned.createUserStack (h : Owned Z k fb m own) {r : Nat} (hr : r ≠ k)
    (hroot : own r = .table r []) (hv : m.vacant k stackBase = true)
    (hz : Z ∨ m.StackSupplied r) :
    ∃ own', Working Z k fb r m own (m.createUserStack r) own' := by
  have htop : 0 = 0 ∨ stackPages = 0 ∧ ∀ a p, own 0 ≠ .table a p := Or.inl rfl
  obtain ⟨o, w, hnt⟩ := h.mapStack hr hroot stackBase_add (Nat.le_refl _) hv hz htop
  have hdata : ∀ {m' : Machine} {t : Nat} (i x : Nat), Owned Z k fb m' o →
      (∀ a p, o t ≠ .table a p) → Working Z k fb r m' o (m'.store t i x) o := by
    intro m' t i x h' ht
    exact ⟨h'.fill ht _, Ext.of_fill ht _⟩
  rw [Machine.createUserStack]
  generalize Machine.mapStack r stackPages stackBase 0 m = res at w hnt
  have w₁ := w.trans (hdata 511 0 w.owned hnt)
  have w₂ := w₁.trans (hdata 510 0 w₁.owned hnt)
  exact ⟨o, w₂.trans (hdata 509 0 w₂.owned hnt)⟩

section dry

structure Dry (m : Machine) : Prop where
  free : m.pmm.bitmap m.pmm.lastPage = false
  lt : m.pmm.lastPage < totalPagesMax
  high : identityMapLimit ≤ m.pmm.lastPage * pageSize

theorem Dry.allocPage (h : Dry m) : m.allocPage = (0, m) := by
  obtain ⟨⟨b, tp, fc, i⟩, ram⟩ := m
  obtain ⟨hfree, hlt, hhigh⟩ := h
  simp only at hfree hlt hhigh
  have hscan : scan b i (totalPagesMax - i) = some i := by
    obtain ⟨j, hj⟩ : ∃ j, totalPagesMax - i = j + 1 := ⟨totalPagesMax - i - 1, by omega⟩
    rw [hj, scan, hfree]
    rfl
  have hne : i * pageSize ≠ 0 := by
    intro h0
    rw [h0] at hhigh
    exact absurd hhigh (by decide)
  have hdiv : i * pageSize / pageSize = i := Nat.mul_div_cancel _ (by decide)
  have hback : (Pmm.take ⟨b, tp, fc, i⟩ i).freePage (i * pageSize) = ⟨b, tp, fc, i⟩ := by
    simp only [Pmm.freePage, Pmm.take, Pmm.setBit, Pmm.clearBit, hdiv, Function.update_self,
      if_true, Function.update_idem, Nat.lt_succ_self]
    rw [← hfree, Function.update_eq_self, UInt64.sub_add_cancel]
  simp only [Machine.allocPage, Pmm.allocPage, hscan, if_neg hne, if_pos hhigh, hback]

structure Lowest (m : Machine) (r va a b t : Nat) : Prop where
  pml4 : m.ram r (pml4Index va) = entry a 7
  pdpt : m.ram a (pdptIndex va) = entry b 7
  pd : m.ram b (pdIndex va) = entry t 7

theorem descend_mapped {t i f : Nat} (h : m.ram t i = entry f 7) : m.descend t i 7 = (some f, m) := by
  have hp : present (entry f 7) = true := by
    rw [present_entry]
    decide
  have hor : entry f 7 ||| 7 = m.ram t i := by
    rw [h, entry, Nat.or_assoc, Nat.or_self]
  simp only [Machine.descend, h, hp, if_true, frameOf_entry (show 7 < 4096 by norm_num)]
  rw [hor, store_self]

theorem Lowest.mapPage {r va a b t : Nat} (h : Lowest m r va a b t) (f : Nat) :
    m.mapPage r va f 7 = (true, m.store t (ptIndex va) (entry f 7)) := by
  have hu : user 7 = true := by decide
  simp only [Machine.mapPage, Machine.tableFor, hu, if_true, Machine.descendAll,
    descend_mapped h.pml4, descend_mapped h.pdpt, descend_mapped h.pd]

theorem Lowest.store {r va a b t : Nat} (h : Lowest m r va a b t) (hr : r ≠ t) (ha : a ≠ t)
    (hb : b ≠ t) (i w : Nat) : Lowest (m.store t i w) r va a b t where
  pml4 := by rw [store_frame _ _ _ hr, h.pml4]
  pdpt := by rw [store_frame _ _ _ ha, h.pdpt]
  pd := by rw [store_frame _ _ _ hb, h.pd]

theorem mapStack_succ (r n addr top : Nat) (m : Machine) : m.mapStack r (n + 1) addr top =
    (m.allocPage.2.mapPage r addr m.allocPage.1 7).2.mapStack r n (addr + 0x1000)
      (if addr + 0x1000 = stackTop then m.allocPage.1 else top) := rfl

/-- Without pages the loop goes on and maps frame 0, up to the top of the stack. -/
theorem Lowest.mapStack_dry {r a b t : Nat} (hr : r ≠ t) (ha : a ≠ t) (hb : b ≠ t) {n : Nat} :
    ∀ {m : Machine} {addr top : Nat}, Dry m → Lowest m r stackBase a b t →
      addr + (n + 1) * 0x1000 = stackTop → n + 1 ≤ stackPages →
      (m.mapStack r (n + 1) addr top).1 = 0 ∧
      Lowest (m.mapStack r (n + 1) addr top).2 r stackBase a b t ∧
      (m.mapStack r (n + 1) addr top).2.ram t 511 = entry 0 7 := by
  induction n with
  | zero =>
    intro m addr top hd hl hend hn
    obtain ⟨e4, e3, e2⟩ := stack_index hend (by omega) hn
    have hl' : Lowest m r addr a b t := ⟨by rw [e4, hl.pml4], by rw [e3, hl.pdpt], by rw [e2, hl.pd]⟩
    have hlast : addr + 0x1000 = stackTop := by simpa using hend
    have hpt : ptIndex addr = 511 := by
      have ht : stackTop = 549755813888 := rfl
      rw [ht] at hlast
      simp only [ptIndex]
      norm_num
      omega
    simp only [Machine.mapStack, hd.allocPage, hl'.mapPage, hlast, if_true, hpt]
    exact ⟨trivial, hl.store hr ha hb _ _, store_same _ _ _ _⟩
  | succ n ih =>
    intro m addr top hd hl hend hn
    obtain ⟨e4, e3, e2⟩ := stack_index hend (by omega) hn
    have hl' : Lowest m r addr a b t := ⟨by rw [e4, hl.pml4], by rw [e3, hl.pdpt], by rw [e2, hl.pd]⟩
    have hend' : addr + 0x1000 + (n + 1) * 0x1000 = stackTop := by omega
    rw [Machine.mapStack]
    simp only [hd.allocPage, hl'.mapPage]
    exact ih ⟨hd.free, hd.lt, hd.high⟩ (hl.store hr ha hb _ _) hend' (Nat.le_of_succ_le hn)

end dry

end LosTacOS.Mm
