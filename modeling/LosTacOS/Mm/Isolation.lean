import LosTacOS.Mm.Loading

/-! What one process can do to the memory of the others, over whole runs. -/
namespace LosTacOS.Mm
open ByteMemory

variable {Z : Prop} {k : Nat} {fb : Framebuffer} {s : Sys} {own : Nat → Owner}

structure Sys.Ok (Z : Prop) (k : Nat) (fb : Framebuffer) (s : Sys) (own : Nat → Owner) : Prop where
  owned : Owned Z k fb s.mm own
  root : ∀ {pid p}, s.procs pid = some p → own p.pml4 = .table p.pml4 [] ∧ p.pml4 ≠ k
  apart : ∀ {pid pid' p p'}, s.procs pid = some p → s.procs pid' = some p' →
    p.pml4 = p'.pml4 → pid = pid'
  unused : ∀ {pid}, s.pidCounter ≤ pid → s.procs pid = none
  stack : s.mm.vacant k stackBase = true

def Sys.Touches (s : Sys) (e : Event) (own : Nat → Owner) (a : Nat) : Prop :=
  own a ≠ .table a [] ∨ ∃ pid p, e.actor = some pid ∧ s.procs pid = some p ∧ a = p.pml4

theorem Sys.Ok.kernel_untouched (h : s.Ok Z k fb own) (e : Event) : ¬ s.Touches e own k := by
  intro hk
  cases hk with
  | inl hk => exact hk h.owned.kernelRoot
  | inr hk =>
    obtain ⟨pid, p, -, hp, he⟩ := hk
    exact (h.root hp).2 he.symm

theorem Sys.Ok.other_untouched (h : s.Ok Z k fb own) {e : Event} {pid : Nat} {p : Proc}
    (hp : s.procs pid = some p) (hne : e.actor ≠ some pid) : ¬ s.Touches e own p.pml4 := by
  intro ht
  cases ht with
  | inl ht => exact ht (h.root hp).1
  | inr ht =>
    obtain ⟨pid', p', hact, hp', he⟩ := ht
    rw [h.apart hp hp' he] at hne
    exact hne hact

theorem Sys.touches_new {e : Event} {f : Nat} (hf : own f = .none) : s.Touches e own f := by
  refine Or.inl fun ht => ?_
  rw [hf] at ht
  exact Owner.noConfusion ht

theorem Sys.Ok.ne_new (h : s.Ok Z k fb own) {f pid : Nat} {p : Proc} (hf : own f = .none)
    (hp : s.procs pid = some p) : p.pml4 ≠ f := by
  intro he
  have hroot := (h.root hp).1
  rw [he, hf] at hroot
  exact Owner.noConfusion hroot

theorem Sys.Ok.pid_lt (h : s.Ok Z k fb own) {pid : Nat} {p : Proc} (hp : s.procs pid = some p) :
    pid < s.pidCounter := by
  by_contra hge
  rw [h.unused (Nat.le_of_not_lt hge)] at hp
  cases hp

section moves

variable {A : Nat → Prop} {m' : Machine} {own' : Nat → Owner} {n : Nat}

theorem Sys.Ok.keep (h : s.Ok Z k fb own) (hO : Owned Z k fb m' own')
    (hC : Change A s.mm m' own own') (hk : ¬ A k) (hn : s.pidCounter ≤ n) :
    Sys.Ok Z k fb ⟨m', s.procs, n⟩ own' where
  owned := hO
  root hp := ⟨hC.keep (h.root hp).1, (h.root hp).2⟩
  apart := h.apart
  unused hpid := h.unused (hn.trans hpid)
  stack := hC.vacant h.owned hk h.stack

theorem Sys.Ok.remove (h : s.Ok Z k fb own) (pid : Nat) :
    Sys.Ok Z k fb ⟨s.mm, Function.update s.procs pid none, s.pidCounter⟩ own := by
  have hold : ∀ {q p}, Function.update s.procs pid none q = some p → s.procs q = some p := by
    intro q p hq
    by_cases he : q = pid
    · rw [he, Function.update_self] at hq
      cases hq
    · rwa [Function.update_of_ne he] at hq
  refine ⟨h.owned, fun hp => h.root (hold hp), fun hp hp' => h.apart (hold hp) (hold hp'), ?_, h.stack⟩
  intro q hq
  by_cases he : q = pid
  · simp [he]
  · simp only [Function.update_of_ne he]
    exact h.unused hq

theorem Sys.Ok.insert (h : s.Ok Z k fb own) {pid : Nat} {p : Proc} (hpid : pid < s.pidCounter)
    (hroot : own p.pml4 = .table p.pml4 []) (hk : p.pml4 ≠ k)
    (hnew : ∀ q p', q ≠ pid → s.procs q = some p' → p'.pml4 ≠ p.pml4) :
    Sys.Ok Z k fb ⟨s.mm, Function.update s.procs pid (some p), s.pidCounter⟩ own := by
  have hold : ∀ {q p'}, Function.update s.procs pid (some p) q = some p' →
      (q = pid ∧ p' = p) ∨ (q ≠ pid ∧ s.procs q = some p') := by
    intro q p' hq
    by_cases he : q = pid
    · rw [he, Function.update_self] at hq
      exact Or.inl ⟨he, (Option.some.inj hq).symm⟩
    · rw [Function.update_of_ne he] at hq
      exact Or.inr ⟨he, hq⟩
  refine ⟨h.owned, ?_, ?_, ?_, h.stack⟩
  · intro q p' hq
    cases hold hq with
    | inl hc => rw [hc.2]; exact ⟨hroot, hk⟩
    | inr hc => exact h.root hc.2
  · intro q q' p₁ p₂ hq hq' he
    cases hold hq with
    | inl hc =>
      cases hold hq' with
      | inl hc' => rw [hc.1, hc'.1]
      | inr hc' => rw [hc.2] at he; exact absurd he.symm (hnew q' p₂ hc'.1 hc'.2)
    | inr hc =>
      cases hold hq' with
      | inl hc' => rw [hc'.2] at he; exact absurd he (hnew q p₁ hc.1 hc.2)
      | inr hc' => exact h.apart hc.2 hc'.2 he
  · intro q hq
    have he : q ≠ pid := by
      intro he
      rw [he] at hq
      exact absurd hpid (Nat.not_lt.mpr hq)
    simp only [Function.update_of_ne he]
    exact h.unused hq

end moves

def Sys.Follows (Z : Prop) (k : Nat) (fb : Framebuffer) (s : Sys) (own : Nat → Owner) (e : Event)
    (s' : Sys) : Prop :=
  ∃ own', s'.Ok Z k fb own' ∧ Change (s.Touches e own) s.mm s'.mm own own'

section step

theorem Sys.Ok.same (h : s.Ok Z k fb own) (e : Event) : s.Follows Z k fb own e s :=
  ⟨own, h, Change.refl s.mm own⟩

theorem Sys.Ok.spawn (h : s.Ok Z k fb own) {luck : Luck} {file : Option Mem}
    (hv : s.MapsVacant k (.spawn luck file)) (hz : Z ∨ s.StacksSupplied k fb (.spawn luck file)) :
    s.Follows Z k fb own (.spawn luck file) (s.spawn k luck file) := by
  have hk := h.kernel_untouched (.spawn luck file)
  simp only [Sys.MapsVacant, Machine.ProgramVacant] at hv
  simp only [Sys.StacksSupplied] at hz
  rw [Sys.spawn]
  by_cases hl : luck.process = true
  swap
  · rw [if_neg hl]
    exact h.same _
  rw [if_pos hl]
  replace hv := hv hl
  replace hz := hz.imp_right fun hs => hs hl
  obtain ⟨f, m₁, o₁, he, w₁, hnone, hf⟩ := h.owned.createSpace luck
  have hA : s.Touches (.spawn luck file) own f := Sys.touches_new hnone
  have c₁ := (Change.refl s.mm own).work hA w₁.ext
  simp only [he] at hv hz ⊢
  by_cases h0 : f = 0
  · rw [if_pos h0]
    exact ⟨o₁, h.keep w₁.owned c₁ hk (Nat.le_succ _), c₁⟩
  rw [if_neg h0]
  obtain ⟨hroot, hfk⟩ := hf h0
  obtain ⟨o₂, w₂⟩ := w₁.owned.load hfk hroot (hv h0)
  have c₂ := c₁.work hA w₂.ext
  split_ifs with hfail
  · exact ⟨o₂, h.keep w₂.owned c₂ hk (Nat.le_succ _), c₂⟩
  · obtain ⟨hentry, hluck⟩ := not_or.mp hfail
    obtain ⟨o₃, w₃⟩ := w₂.owned.createUserStack hfk (w₂.ext.keep hroot)
      (c₂.vacant h.owned hk h.stack) (hz.imp_right fun hs => hs h0 hentry (by simpa using hluck))
    have c₃ := c₂.work hA w₃.ext
    refine ⟨o₃, ?_, c₃⟩
    exact (h.keep w₃.owned c₃ hk (Nat.le_succ s.pidCounter)).insert (p := ⟨f, 0⟩)
      (Nat.lt_succ_self _) (w₃.ext.keep (w₂.ext.keep hroot)) hfk fun q p' _ hq => h.ne_new hnone hq

theorem Sys.Ok.exec (h : s.Ok Z k fb own) {pid : Nat} {p : Proc} (hp : s.procs pid = some p)
    {luck : Luck} {file : Option Mem} (hv : s.MapsVacant k (.exec pid luck file))
    (hz : Z ∨ s.StacksSupplied k fb (.exec pid luck file)) :
    s.Follows Z k fb own (.exec pid luck file) (s.exec k fb pid p luck file) := by
  have hk := h.kernel_untouched (.exec pid luck file)
  have hold : s.Touches (.exec pid luck file) own p.pml4 := Or.inr ⟨pid, p, rfl, hp, rfl⟩
  simp only [Sys.MapsVacant, Machine.ProgramVacant] at hv
  simp only [Sys.StacksSupplied] at hz
  replace hv := hv (Option.isSome_of_mem hp)
  replace hz := hz.imp_right fun hs => hs p hp
  rw [Sys.exec]
  obtain ⟨f, m₁, o₁, he, w₁, hnone, hf⟩ := h.owned.createSpace luck
  have hA : s.Touches (.exec pid luck file) own f := Sys.touches_new hnone
  have c₁ := (Change.refl s.mm own).work hA w₁.ext
  simp only [he] at hv hz ⊢
  by_cases h0 : f = 0
  · rw [if_pos h0]
    exact ⟨o₁, h.keep w₁.owned c₁ hk (Nat.le_refl _), c₁⟩
  rw [if_neg h0]
  obtain ⟨hroot, hfk⟩ := hf h0
  obtain ⟨o₂, w₂⟩ := w₁.owned.load hfk hroot (hv h0)
  have c₂ := c₁.work hA w₂.ext
  split_ifs with hentry
  · obtain ⟨o₃, hO, hE⟩ := w₂.owned.destroyUserPages hfk (w₂.ext.keep hroot)
    have c₃ := c₂.work hA hE
    exact ⟨o₃, h.keep hO c₃ hk (Nat.le_refl _), c₃⟩
  · obtain ⟨o₃, hO, hE⟩ := w₂.owned.destroyUserPages (h.root hp).2 (c₂.keep (h.root hp).1)
    have c₃ := c₂.work hold hE
    have hroot₃ := hE.keep (w₂.ext.keep hroot)
    obtain ⟨o₄, w₄⟩ := hO.createUserStack hfk hroot₃ (c₃.vacant h.owned hk h.stack)
      (hz.imp_right fun hs => hs h0 hentry)
    have c₄ := c₃.work hA w₄.ext
    refine ⟨o₄, ?_, c₄⟩
    exact (h.keep w₄.owned c₄ hk (Nat.le_refl s.pidCounter)).insert (p := ⟨f, 0⟩)
      (h.pid_lt hp) (w₄.ext.keep hroot₃) hfk fun q p' _ hq => h.ne_new hnone hq

theorem Sys.Ok.fork (h : s.Ok Z k fb own) {pid : Nat} {p : Proc} (hp : s.procs pid = some p)
    (luck : Luck) : s.Follows Z k fb own (.fork pid luck) (s.fork k fb p luck) := by
  have hk := h.kernel_untouched (.fork pid luck)
  rw [Sys.fork]
  by_cases hl : luck.process = true
  swap
  · rw [if_neg hl]
    exact h.same _
  rw [if_pos hl]
  obtain ⟨f, m₁, o₁, he, w₁, hnone, hf⟩ := h.owned.createSpace luck
  have hA : s.Touches (.fork pid luck) own f := Sys.touches_new hnone
  have c₁ := (Change.refl s.mm own).work hA w₁.ext
  simp only [he]
  by_cases h0 : f = 0
  · rw [if_pos h0]
    exact ⟨o₁, h.keep w₁.owned c₁ hk (Nat.le_succ _), c₁⟩
  rw [if_neg h0]
  obtain ⟨hroot, hfk⟩ := hf h0
  obtain ⟨o₂, hO₂, hE₂⟩ := w₁.owned.cloneUserPages hfk (h.root hp).2 (h.ne_new hnone hp) hroot
    (c₁.keep (h.root hp).1)
  have c₂ := c₁.work hA hE₂
  split_ifs
  · refine ⟨o₂, ?_, c₂⟩
    exact (h.keep hO₂ c₂ hk (Nat.le_succ s.pidCounter)).insert (p := ⟨f, p.mmapNext⟩)
      (Nat.lt_succ_self _) (hE₂.keep hroot) hfk fun q p' _ hq => h.ne_new hnone hq
  · obtain ⟨o₃, hO₃, hE₃⟩ := hO₂.destroyUserPages hfk (hE₂.keep hroot)
    have c₃ := c₂.work hA hE₃
    exact ⟨o₃, h.keep hO₃ c₃ hk (Nat.le_succ _), c₃⟩

theorem Sys.Ok.mmap (h : s.Ok Z k fb own) {pid len : Nat} {p : Proc} (hp : s.procs pid = some p)
    (hv : s.MapsVacant k (.mmap pid len)) :
    s.Follows Z k fb own (.mmap pid len) (s.mmap pid p len) := by
  have hk := h.kernel_untouched (.mmap pid len)
  have hA : s.Touches (.mmap pid len) own p.pml4 := Or.inr ⟨pid, p, rfl, hp, rfl⟩
  rw [Sys.mmap]
  split_ifs
  · exact h.same _
  · obtain ⟨o, w⟩ := h.owned.mapFresh (h.root hp).2 (h.root hp).1 (hv p hp)
    have c := (Change.refl s.mm own).work hA w.ext
    refine ⟨o, ?_, c⟩
    exact (h.keep w.owned c hk (Nat.le_refl s.pidCounter)).insert
      (h.pid_lt hp) (w.ext.keep (h.root hp).1) (h.root hp).2
      fun q p' hq hp' he => hq (h.apart hp' hp he)

theorem Sys.Ok.exit (h : s.Ok Z k fb own) {pid : Nat} {p : Proc} (hp : s.procs pid = some p) :
    s.Follows Z k fb own (.exit pid) (s.exit fb pid p) := by
  have hA : s.Touches (.exit pid) own p.pml4 := Or.inr ⟨pid, p, rfl, hp, rfl⟩
  obtain ⟨o, hO, hE⟩ := h.owned.destroyUserPages (h.root hp).2 (h.root hp).1
  have c := (Change.refl s.mm own).work hA hE
  exact ⟨o, (h.keep hO c (h.kernel_untouched _) (Nat.le_refl _)).remove pid, c⟩

theorem Sys.Ok.step (h : s.Ok Z k fb own) {e : Event} (hv : s.MapsVacant k e)
    (hz : Z ∨ s.StacksSupplied k fb e) : s.Follows Z k fb own e (s.step k fb e) := by
  cases e with
  | spawn luck file => exact h.spawn hv hz
  | exec pid luck file =>
    rw [Sys.step]
    cases hp : s.procs pid with
    | none => exact h.same _
    | some p => exact h.exec hp hv hz
  | fork pid luck =>
    rw [Sys.step]
    cases hp : s.procs pid with
    | none => exact h.same _
    | some p => exact h.fork hp luck
  | mmap pid len =>
    rw [Sys.step]
    cases hp : s.procs pid with
    | none => exact h.same _
    | some p => exact h.mmap hp hv
  | exit pid =>
    rw [Sys.step]
    cases hp : s.procs pid with
    | none => exact h.same _
    | some p => exact h.exit hp

end step

section user

variable {m : Machine}

theorem Owned.leaf_table (h : Owned Z k fb m own) {a va e : Nat} (hroot : own a = .table a [])
    (he : leafEntry m.ram a va = some e) :
    ∃ t b, own t = .table b [pdIndex va, pdptIndex va, pml4Index va] ∧ (b = a ∨ b = k) ∧
      present (m.ram t (ptIndex va)) = true ∧ m.ram t (ptIndex va) = e := by
  have hlook : ∀ {t i w}, lookup m.ram t i = some w → present (m.ram t i) = true ∧ m.ram t i = w := by
    intro t i w hw
    unfold lookup at hw
    split_ifs at hw with hp
    exact ⟨hp, Option.some.inj hw⟩
  have hdown : ∀ {t b p i w}, own t = .table b p → (b = a ∨ b = k) → p.length < 3 →
      lookup m.ram t i = some w → ∃ b', own (frameOf w) = .table b' (i :: p) ∧ (b' = a ∨ b' = k) := by
    intro t b p i w ht hb hlen hw
    obtain ⟨hp, rfl⟩ := hlook hw
    cases h.child ht hlen hp with
    | inl hc => exact ⟨b, hc, hb⟩
    | inr hc => exact ⟨k, hc.2.2, Or.inr rfl⟩
  simp only [leafEntry, Option.bind_eq_bind, Option.bind_eq_some_iff] at he
  obtain ⟨e4, h4, e3, h3, e2, h2, h1⟩ := he
  obtain ⟨b3, ht3, hb3⟩ := hdown hroot (Or.inl rfl) (by simp) h4
  obtain ⟨b2, ht2, hb2⟩ := hdown ht3 hb3 (by simp) h3
  obtain ⟨b1, ht1, hb1⟩ := hdown ht2 hb2 (by simp) h2
  exact ⟨frameOf e2, b1, ht1, hb1, hlook h1⟩

/-- Where frame 0 is not mapped, a user page belongs to the one space and path that map it. -/
theorem Owned.user_leaf (h : Owned False k fb m own) {a va e : Nat} (hroot : own a = .table a [])
    (he : leafEntry m.ram a va = some e) (hu : user e = true) (hfb : ¬ IsFb fb (frameOf e)) :
    own (frameOf e) = .leaf a [ptIndex va, pdIndex va, pdptIndex va, pml4Index va] := by
  obtain ⟨t, b, ht, hb, hp, rfl⟩ := h.leaf_table hroot he
  obtain ⟨hbk, hl⟩ := (h.leaf ht rfl hp hu).resolve_left hfb
  rw [← hb.resolve_right hbk]
  exact hl.resolve_left fun hz => hz.1

end user

/-- Frame `f` is one of the tables of `n` levels below table `t`, or `t` itself. -/
def IsTable (ram : Ram) : Nat → Nat → Nat → Prop
  | 0, t, f => f = t
  | n + 1, t, f => f = t ∨ ∃ i, present (ram t i) = true ∧ IsTable ram n (frameOf (ram t i)) f

theorem Owned.table_of_isTable {m : Machine} (h : Owned Z k fb m own) {n x : Nat} :
    ∀ {t a p}, own t = .table a p → p.length + n ≤ 3 → IsTable m.ram n t x →
      ∃ b q, own x = .table b q := by
  induction n with
  | zero =>
    intro t a p ht _ hx
    rw [IsTable] at hx
    exact ⟨a, p, hx ▸ ht⟩
  | succ n ih =>
    intro t a p ht hlen hx
    cases hx with
    | inl hx => exact ⟨a, p, hx ▸ ht⟩
    | inr hx =>
      obtain ⟨i, hp, hx⟩ := hx
      cases h.child ht (by omega) hp with
      | inl hc => exact ih hc (by simp; omega) hx
      | inr hc => exact ih hc.2.2 (by simp; omega) hx

def Sys.Space (k : Nat) (s : Sys) (r : Nat) : Prop := r = k ∨ ∃ pid p, s.procs pid = some p ∧ p.pml4 = r

def Sys.UserPage (s : Sys) (r va x : Nat) : Prop :=
  ∃ e, leafEntry s.mm.ram r va = some e ∧ user e = true ∧ frameOf e = x

/-- Every user page outside the framebuffer is in use, is mapped once, and is neither frame 0 nor
a page table. -/
def Sys.UserPagesOwned (k : Nat) (fb : Framebuffer) (s : Sys) : Prop :=
  ∀ r va x, s.Space k r → va < 2^48 → s.UserPage r va x → ¬ IsFb fb x →
    s.mm.pmm.bitmap x = true ∧ x ≠ 0 ∧ (∀ r', s.Space k r' → ¬ IsTable s.mm.ram 3 r' x) ∧
    ∀ r' va', s.Space k r' → va' < 2^48 → s.UserPage r' va' x →
      r' = r ∧ va' / pageSize = va / pageSize

theorem page_of_indices {va va' : Nat} (h : va < 2^48) (h' : va' < 2^48)
    (h4 : pml4Index va = pml4Index va') (h3 : pdptIndex va = pdptIndex va')
    (h2 : pdIndex va = pdIndex va') (h1 : ptIndex va = ptIndex va') :
    va / pageSize = va' / pageSize := by
  simp only [pml4Index, pdptIndex, pdIndex, ptIndex, pageSize] at *
  omega

theorem Sys.Ok.userPagesOwned (h : s.Ok False k fb own) : s.UserPagesOwned k fb := by
  have hroot : ∀ {r}, s.Space k r → own r = .table r [] := by
    intro r hr
    cases hr with
    | inl hr => rw [hr]; exact h.owned.kernelRoot
    | inr hr =>
      obtain ⟨pid, p, hp, rfl⟩ := hr
      exact (h.root hp).1
  intro r va x hr hva hx hfb
  obtain ⟨e, he, hu, rfl⟩ := hx
  have hleaf := h.owned.user_leaf (hroot hr) he hu hfb
  have hsome : own (frameOf e) ≠ .none := by
    rw [hleaf]
    exact Owner.noConfusion
  refine ⟨h.owned.used hsome, h.owned.ne_zero hsome, ?_, ?_⟩
  · intro r' hr' ht
    obtain ⟨b, q, hb⟩ := h.owned.table_of_isTable (hroot hr') (by simp) ht
    rw [hleaf] at hb
    exact Owner.noConfusion hb
  · intro r' va' hr' hva' hx'
    obtain ⟨e', he', hu', hee⟩ := hx'
    rw [← hee] at hfb hleaf
    have hleaf' := h.owned.user_leaf (hroot hr') he' hu' hfb
    rw [hleaf] at hleaf'
    injection hleaf' with hr'' hpath
    simp only [List.cons.injEq, and_true] at hpath
    obtain ⟨e1, e2, e3, e4⟩ := hpath
    exact ⟨hr''.symm, (page_of_indices hva hva' e4 e3 e2 e1).symm⟩

section machine

/-- 512 MiB of memory, a kernel of one page and a boot module that ends at `stop`. -/
def moduleTags (stop : UInt32) : List Tag :=
  [.mmap [⟨0x100000, 0x1ff00000, 1⟩], .module 0x400000 stop]

def onePageImage : KernelImage := ⟨0x100000, 0x101000, by decide, by decide⟩

def onePageTable : KernelTable onePageImage := ⟨0x100, by decide, by decide, by decide⟩

def noFramebuffer : Framebuffer := ⟨0, 0, by decide⟩

def started (stop : UInt32) : Machine := ⟨(boot id onePageImage (moduleTags stop)).pmm, fun _ _ => 0⟩

theorem started_bitmap {stop : UInt32} {n : Nat} (hs : stop.toNat = n * pageSize) (hn : 257 ≤ n) :
    (started stop).pmm.bitmap = fun i => !(decide (n ≤ i) && decide (i < 0x20000)) := by
  funext i
  rw [started]
  by_cases hi : i < totalPagesMax
  · have h := boot_bitmap id onePageImage (moduleTags stop) hi
    have hmap : (∃ e ∈ (moduleTags stop).flatMap Tag.entries, e.Frees i) ↔ 256 ≤ i ∧ i < 0x20000 := by
      have hlo : ((0x100000 : UInt64) / 4096).toNat = 256 := by decide
      have hhi : (((0x100000 : UInt64) + MmapEntry.pages ⟨0x100000, 0x1ff00000, 1⟩ * 4096)
          / 4096).toNat = 0x20000 := by decide
      simp only [moduleTags, List.flatMap_cons, List.flatMap_nil, Tag.entries, List.append_nil,
        List.mem_cons, List.not_mem_nil, or_false, exists_eq_left, MmapEntry.Frees,
        memoryAvailable, hlo, hhi, true_and]
    have himg : onePageImage.Covers i ↔ i = 256 := by
      simp only [KernelImage.Covers, onePageImage, UInt64.reduceToNat]
      omega
    have hmod : (∀ lo hi, Tag.module lo hi ∈ moduleTags stop → hi.toNat ≤ i * pageSize) ↔ n ≤ i := by
      simp only [moduleTags, List.mem_cons, List.not_mem_nil, reduceCtorEq, or_false, false_or,
        Tag.module.injEq]
      constructor
      · intro hall
        have := hall _ _ ⟨rfl, rfl⟩
        rw [hs] at this
        exact Nat.le_of_mul_le_mul_right this (by decide)
      · rintro hle lo hi ⟨-, rfl⟩
        rw [hs]
        exact Nat.mul_le_mul_right _ hle
    rw [hmap, himg, hmod] at h
    cases hb : (boot id onePageImage (moduleTags stop)).pmm.bitmap i with
    | false =>
      have := h.mp hb
      simp
      omega
    | true =>
      have hno : ¬ (n ≤ i ∧ i < 0x20000) := by
        intro hin
        have := h.mpr (by omega)
        rw [hb] at this
        exact Bool.noConfusion this
      simp
      omega
  · rw [boot_bitmap_past _ _ _ (Nat.le_of_not_lt hi)]
    simp only [totalPagesMax] at hi
    simp
    omega

def drawn (stop : UInt32) (n : Nat) : Machine :=
  ⟨⟨fun i => !(decide (n < i) && decide (i < 0x20000)), (started stop).pmm.totalPages,
    (started stop).pmm.freePagesCount - 1, n + 1⟩, fun _ _ => 0⟩

theorem started_drawn {stop : UInt32} {n : Nat} (hs : stop.toNat = n * pageSize) (hn : 257 ≤ n)
    (hlow : n < 0x10000) : (started stop).allocPage.2 = drawn stop n := by
  have hb := started_bitmap hs hn
  have h0 : (started stop).pmm.lastPage = 0 := boot_lastPage _ _ _
  obtain ⟨i, -, hle, hfree, he⟩ := allocPage_ahead (s := (started stop).pmm) (k := n)
    (by simp only [totalPagesMax]; omega) (by rw [h0]; exact Nat.zero_le _)
    (by rw [hb]; simp; omega)
  have hi : i = n := by
    rw [hb] at hfree
    simp at hfree
    omega
  subst hi
  have hphys : i * pageSize ≠ 0 ∧ ¬ identityMapLimit ≤ i * pageSize := by
    simp only [pageSize, identityMapLimit]
    omega
  simp only [Machine.allocPage, he, if_neg hphys.1, if_neg hphys.2, Machine.fill]
  simp only [drawn, Machine.mk.injEq]
  refine ⟨?_, ?_⟩
  · simp only [Pmm.take, Pmm.setBit, Pmm.mk.injEq, and_true]
    funext j
    rw [Function.update_apply, hb]
    split_ifs with hj
    · simp [hj]
    · have hlt : (i ≤ j) = (i < j) := propext (by omega)
      simp only [hlt]
  · funext x j
    simp [started, Function.update_apply]

theorem drawn_boot (stop : UInt32) (n : Nat) (hs : stop.toNat = n * pageSize) (hn : 257 ≤ n)
    (hlow : n < 0x10000) :
    KernelBoot id onePageImage (moduleTags stop) onePageTable noFramebuffer (drawn stop n) := by
  rw [← started_drawn hs hn hlow]
  exact KernelBoot.alloc (KernelBoot.init fun _ => rfl)

/-- An executable without segments and with entry point 0x400000. -/
def bareElf : Mem := fileOf [(0, 0x7f), (1, 0x45), (2, 0x4c), (3, 0x46), (26, 0x40)]

def lowElf : Mem := fileOf
  [(0, 0x7f), (1, 0x45), (2, 0x4c), (3, 0x46), (26, 0x40), (32, 64), (56, 1), (64, 1), (82, 0x40),
    (104, 1)]

/-- The same linked at 1 GiB, as `user.ld` does. -/
def highElf : Mem := fileOf
  [(0, 0x7f), (1, 0x45), (2, 0x4c), (3, 0x46), (27, 0x40), (32, 64), (56, 1), (64, 1), (83, 0x40),
    (104, 1)]

def fullLuck : Luck := ⟨true, true, true, true, true⟩

theorem highElf_vacant : (Sys.idle (drawn 0xff00000 0xff00)).MapsVacant onePageTable.frame
    (.spawn fullLuck (some highElf)) := by
  have hseg : segments highElf = [⟨1, 0, 0x40000000, 0, 1⟩] := by decide
  intro _ _ data hdata _
  cases hdata
  rw [hseg]
  refine ⟨fun i hi => ?_, fun _ => trivial⟩
  have hle := hi.trans_le (Machine.mapFresh_le _ _ _ _ _)
  have h0 : i = 0 := Nat.lt_one_iff.mp hle
  subst h0
  decide

theorem bareElf_load (m : Machine) (r : Nat) : m.load r (some bareElf) = (0x400000, m) := by
  have helf : isElf bareElf = true := by decide
  have hseg : segments bareElf = [] := by decide
  have hent : eEntry bareElf = 0x400000 := by decide
  simp only [Machine.load, helf, if_true, hseg, Machine.loadSegments, hent]

/-- Memory after `create_address_space`, when six pages below the identity-map line were left at
boot. -/
def sixPages : Machine := ((drawn 0xfffa000 0xfffa).createAddressSpace 0x100).2

/-- The first page of the stack and its tables use up what is left. -/
theorem sixPages_mapStack :
    (sixPages.mapStack 0xfffb stackPages stackBase 0).1 = 0 ∧
    Lowest (sixPages.mapStack 0xfffb stackPages stackBase 0).2 0xfffb stackBase 0xfffc 0xfffe 0xffff ∧
    (sixPages.mapStack 0xfffb stackPages stackBase 0).2.ram 0xffff 511 = entry 0 7 := by
  generalize hm : (sixPages.allocPage.2.mapPage 0xfffb stackBase sixPages.allocPage.1 7).2 = m
  have hdry : Dry m := by
    rw [← hm]
    exact ⟨by decide, by decide, by decide⟩
  have hlow : Lowest m 0xfffb stackBase 0xfffc 0xfffe 0xffff := by
    rw [← hm]
    exact ⟨by decide, by decide, by decide⟩
  have hfirst : sixPages.mapStack 0xfffb stackPages stackBase 0 =
      m.mapStack 0xfffb (62 + 1) (stackBase + 0x1000)
        (if stackBase + 0x1000 = stackTop then sixPages.allocPage.1 else 0) := by
    rw [← hm, show stackPages = 62 + 1 + 1 from rfl, mapStack_succ]
  rw [hfirst]
  exact Lowest.mapStack_dry (by decide) (by decide) (by decide) hdry hlow (by decide) (by decide)

theorem sixPages_frame_zero :
    leafEntry (sixPages.createUserStack 0xfffb).ram 0xfffb (stackTop - 0x1000) = some (entry 0 7) := by
  obtain ⟨htop, hlow, hlast⟩ := sixPages_mapStack
  rw [Machine.createUserStack]
  generalize Machine.mapStack 0xfffb stackPages stackBase 0 sixPages = res at htop hlow hlast
  obtain ⟨top, m⟩ := res
  simp only at htop hlow hlast
  subst htop
  have hkept : ∀ {x}, x ≠ 0 → (((m.store 0 511 0).store 0 510 0).store 0 509 0).ram x = m.ram x := by
    intro x hx
    rw [store_frame _ _ _ hx, store_frame _ _ _ hx, store_frame _ _ _ hx]
  have h4 : m.ram 0xfffb (pml4Index (stackTop - 0x1000)) = entry 0xfffc 7 := hlow.pml4
  have h3 : m.ram 0xfffc (pdptIndex (stackTop - 0x1000)) = entry 0xfffe 7 := hlow.pdpt
  have h2 : m.ram 0xfffe (pdIndex (stackTop - 0x1000)) = entry 0xffff 7 := hlow.pd
  have h1 : m.ram 0xffff (ptIndex (stackTop - 0x1000)) = entry 0 7 := hlast
  have hp : ∀ x, present (entry x 7) = true := fun x => by rw [present_entry]; decide
  have hf : ∀ x, frameOf (entry x 7) = x := fun x => frameOf_entry (by norm_num)
  simp only [leafEntry, lookup, hkept (show 0xfffb ≠ 0 by decide), h4, hp, if_true,
    Option.bind_eq_bind, Option.bind_some, hf, hkept (show 0xfffc ≠ 0 by decide), h3,
    hkept (show 0xfffe ≠ 0 by decide), h2, hkept (show 0xffff ≠ 0 by decide), h1]

theorem bareElf_supplied : (Sys.idle (drawn 0xff00000 0xff00)).StacksSupplied onePageTable.frame
    noFramebuffer (.spawn fullLuck (some bareElf)) := by
  rw [Sys.StacksSupplied]
  simp only [bareElf_load]
  intro _ _ _ _
  rw [Machine.StackSupplied]
  decide

end machine

section runs

variable {f : Pmm → Pmm} {img : KernelImage} {tags : List Tag} {kt : KernelTable img} {m₀ : Machine}

theorem Sys.Reached.ok (hboot : KernelBoot f img tags kt fb m₀)
    (hfb : fb.address % pageSize = 0) (hstack : m₀.vacant kt.frame stackBase = true)
    {P : Sys → Event → Prop} (hv : ∀ s e, P s e → s.MapsVacant kt.frame e)
    (hz : Z ∨ ∀ s e, P s e → s.StacksSupplied kt.frame fb e)
    (hr : Sys.Reached kt.frame fb P (Sys.idle m₀) s) : ∃ own, s.Ok Z kt.frame fb own := by
  induction hr with
  | start =>
    obtain ⟨own, hO, -⟩ := hboot.owned (Z := Z) hfb
    exact ⟨own, hO, (fun hp => nomatch hp), (fun hp => nomatch hp), fun _ => rfl, hstack⟩
  | step _ hp ih =>
    obtain ⟨own, h⟩ := ih
    obtain ⟨own', h', -⟩ := h.step (hv _ _ hp) (hz.imp_right fun hs => hs _ _ hp)
    exact ⟨own', h'⟩

/-- In runs that map user pages only where the kernel's tables are empty, a step changes no
translation of the kernel's table and none of another process. -/
theorem translations_kept (hboot : KernelBoot f img tags kt fb m₀)
    (hfb : fb.address % pageSize = 0) (hstack : m₀.vacant kt.frame stackBase = true) {e : Event}
    (hr : Sys.Reached kt.frame fb (Sys.MapsVacant kt.frame) (Sys.idle m₀) s)
    (hv : s.MapsVacant kt.frame e) :
    (∀ va, translate (s.step kt.frame fb e).mm.ram kt.frame va =
      translate s.mm.ram kt.frame va) ∧
    ∀ pid p, s.procs pid = some p → e.actor ≠ some pid →
      ∀ va, translate (s.step kt.frame fb e).mm.ram p.pml4 va = translate s.mm.ram p.pml4 va := by
  obtain ⟨own, h⟩ := hr.ok (Z := True) hboot hfb hstack (fun _ _ hp => hp) (Or.inl trivial)
  obtain ⟨own', -, hC⟩ := h.step hv (Or.inl trivial)
  have hk := h.kernel_untouched e
  refine ⟨hC.translate h.owned hk hk h.owned.kernelRoot, fun pid p hp hne => ?_⟩
  exact hC.translate h.owned hk (h.other_untouched hp hne) (h.root hp).1

/-- The kernel maps the page at 4 MiB for itself; loading `lowElf` replaces it. -/
theorem loader_remaps_kernel_page :
    ¬ ∀ (f : Pmm → Pmm) (img : KernelImage) (tags : List Tag) (kt : KernelTable img)
      (fb : Framebuffer) (m₀ : Machine) (s : Sys) (e : Event),
      KernelBoot f img tags kt fb m₀ → fb.address % pageSize = 0 →
      m₀.vacant kt.frame 0x40000000 = true → m₀.vacant kt.frame stackBase = true →
      Sys.Reached kt.frame fb (fun _ _ => True) (Sys.idle m₀) s →
      (∀ va, translate (s.step kt.frame fb e).mm.ram kt.frame va =
        translate s.mm.ram kt.frame va) ∧
      ∀ pid p, s.procs pid = some p → e.actor ≠ some pid →
        ∀ va, translate (s.step kt.frame fb e).mm.ram p.pml4 va = translate s.mm.ram p.pml4 va := by
  intro H
  have hboot : KernelBoot _ _ _ _ _ ((drawn 0xff00000 0xff00).mapPage 0x100 0x400000 0x400 3).2 :=
    .map (drawn_boot 0xff00000 0xff00 (by decide) (by decide) (by decide))
  have h := (H _ _ _ _ _ _ _ (.spawn ⟨true, true, true, false, true⟩ (some lowElf)) hboot rfl
    (by decide)
    (by decide) Sys.Reached.start).1 0x400000
  revert h
  decide +kernel

theorem translations_kept_high_program :
    (Sys.idle (drawn 0xff00000 0xff00)).MapsVacant onePageTable.frame
      (.spawn fullLuck (some highElf)) ∧
    ∀ va, translate ((Sys.idle (drawn 0xff00000 0xff00)).step onePageTable.frame noFramebuffer
      (.spawn fullLuck (some highElf))).mm.ram onePageTable.frame va =
        translate (drawn 0xff00000 0xff00).ram onePageTable.frame va :=
  ⟨highElf_vacant,
    (translations_kept (drawn_boot 0xff00000 0xff00 (by decide) (by decide) (by decide)) rfl
      (by decide) Sys.Reached.start highElf_vacant).1⟩

/-- In runs whose user stacks can be supplied, and which map user pages only where the kernel's
tables are empty, every user page has one owner. -/
theorem user_pages_owned (hboot : KernelBoot f img tags kt fb m₀)
    (hfb : fb.address % pageSize = 0) (hstack : m₀.vacant kt.frame stackBase = true)
    (hr : Sys.Reached kt.frame fb
      (fun s e => s.MapsVacant kt.frame e ∧ s.StacksSupplied kt.frame fb e) (Sys.idle m₀) s) :
    s.UserPagesOwned kt.frame fb := by
  obtain ⟨own, h⟩ := hr.ok (Z := False) hboot hfb hstack (fun _ _ hp => hp.1)
    (Or.inr fun _ _ hp => hp.2)
  exact h.userPagesOwned

/-- With six free pages the second page of the stack is refused and frame 0 is mapped in its
place. -/
theorem stack_maps_frame_zero :
    ¬ ∀ (f : Pmm → Pmm) (img : KernelImage) (tags : List Tag) (kt : KernelTable img)
      (fb : Framebuffer) (m₀ : Machine) (s : Sys), KernelBoot f img tags kt fb m₀ →
      fb.address % pageSize = 0 → Sys.Reached kt.frame fb (fun _ _ => True) (Sys.idle m₀) s →
      s.UserPagesOwned kt.frame fb := by
  intro H
  have hc : (drawn 0xfffa000 0xfffa).createAddressSpace 0x100 = (0xfffb, sixPages) :=
    Prod.ext (by decide) rfl
  have hs : (Sys.idle (drawn 0xfffa000 0xfffa)).step 0x100 noFramebuffer
      (.spawn fullLuck (some bareElf)) =
        ⟨sixPages.createUserStack 0xfffb,
          Function.update (fun _ => none) 1 (some ⟨0xfffb, 0⟩), 2⟩ := by
    simp [Sys.step, Sys.spawn, Sys.idle, fullLuck, Machine.createSpace, hc, bareElf_load]
  have h := H id onePageImage _ onePageTable noFramebuffer _ _
    (drawn_boot 0xfffa000 0xfffa (by decide) (by decide) (by decide)) rfl
    (.step (e := .spawn fullLuck (some bareElf)) .start trivial)
  rw [show onePageTable.frame = 0x100 from rfl, hs] at h
  refine (h 0xfffb (stackTop - 0x1000) 0 (Or.inr ⟨1, ⟨0xfffb, 0⟩, rfl, rfl⟩) (by decide)
    ⟨entry 0 7, sixPages_frame_zero, by decide, by decide⟩ ?_).2.1 rfl
  rw [IsFb]
  decide

theorem user_pages_owned_bare_program :
    ((Sys.idle (drawn 0xff00000 0xff00)).step onePageTable.frame noFramebuffer
      (.spawn fullLuck (some bareElf))).UserPagesOwned onePageTable.frame noFramebuffer := by
  refine user_pages_owned (drawn_boot 0xff00000 0xff00 (by decide) (by decide) (by decide)) rfl
    (by decide) (.step .start ⟨?_, bareElf_supplied⟩)
  intro _ _ data hdata _
  cases hdata
  rw [show segments bareElf = [] by decide]
  trivial

end runs

end LosTacOS.Mm
