import LosTacOS.Mm.Stack

/-! The set-up of the kernel and the loading of programs keep the ownership invariant. -/
namespace LosTacOS.Mm
open ByteMemory

variable {Z : Prop} {k : Nat} {fb : Framebuffer} {m : Machine} {own : Nat → Owner}

section boot

variable {f : Pmm → Pmm} {img : KernelImage} {tags : List Tag} {kt : KernelTable img}

theorem fb_pages (ha : fb.address % pageSize = 0) {i : Nat} (hpos : fb.address ≠ 0)
    (hi : i * pageSize < fb.size) : IsFb fb (fb.phys / pageSize + i) := by
  have hphys : fb.phys % pageSize = 0 := by
    simp only [Framebuffer.phys, pageSize] at ha ⊢
    split_ifs <;> omega
  have he : (fb.phys / pageSize + i) * pageSize = fb.phys + i * pageSize := by
    simp only [pageSize] at hphys ⊢
    omega
  simp only [IsFb, Framebuffer.isFbPhysAddress, he]
  simp only [pageSize] at hi ⊢
  simp only [ne_eq, hpos, not_false_eq_true, decide_true, Bool.true_and, Bool.and_eq_true,
    decide_eq_true_eq]
  omega

theorem Owned.start {ram : Ram} (h0 : ∀ i, ram kt.frame i = 0) :
    Owned Z kt.frame fb ⟨(boot f img tags).pmm, ram⟩
      (fun x => if x = kt.frame then .table kt.frame [] else .none) := by
  have hlt : kt.frame < totalPagesMax := by
    have := kt.low
    simp only [identityMapLimit, pageSize, totalPagesMax] at this ⊢
    omega
  have hcases : ∀ {x o}, o ≠ .none →
      (if x = kt.frame then Owner.table kt.frame [] else .none) = o →
      x = kt.frame ∧ o = .table kt.frame [] := by
    intro x o ho hx
    split_ifs at hx with he
    · exact ⟨he, hx.symm⟩
    · exact absurd hx.symm ho
  have hblank : ∀ {j}, present (ram kt.frame j) = true → False := by
    intro j hj
    rw [h0] at hj
    exact Bool.noConfusion hj
  refine ⟨?_, ?_, ?_, by simp, ?_, ?_, ?_, ?_, ?_, ?_, ?_, ?_, ?_⟩
  · simp [boot_lastPage]
  · intro x hx
    have he : x = kt.frame := by
      by_contra hne
      simp [hne] at hx
    rw [he]
    by_contra hb
    have := (boot_bitmap f img tags hlt).mp (Bool.eq_false_of_not_eq_true hb)
    exact this.2.2.1 kt.covered
  · have := kt.pos
    rw [if_neg (by omega)]
  · intro x a hx
    obtain ⟨he, ho⟩ := hcases (by simp) hx
    cases ho
    exact he
  · intro x a p hx
    obtain ⟨-, ho⟩ := hcases (by simp) hx
    cases ho
    simp
  · intro x a i p hx
    exact absurd (hcases (by simp) hx).2 (by simp)
  · intro x a p i hx _ hp
    rw [(hcases (by simp) hx).1] at hp
    exact (hblank hp).elim
  · intro x a p i hx _ hp
    rw [(hcases (by simp) hx).1] at hp
    exact (hblank hp).elim
  · intro x p i j hx _ hp
    rw [(hcases (by simp) hx).1] at hp
    exact (hblank hp).elim
  · intro x a y i _ hx
    exact absurd (hcases (by simp) hx).2 (by simp)
  · intro a ha hx
    exact absurd (hcases (by simp) hx).1 ha
  · intro _
    simp [h0, frameOf]

/-- The kernel's set-up establishes the invariant; there is no other space yet. -/
theorem KernelBoot.owned (hfb : fb.address % pageSize = 0) (h : KernelBoot f img tags kt fb m) :
    ∃ own, Owned Z kt.frame fb m own ∧ Alone kt.frame own := by
  induction h with
  | init h0 =>
    refine ⟨_, Owned.start h0, fun x a q hx => ?_⟩
    split_ifs at hx with he
    cases hx
    rfl
  | map _ ih =>
    obtain ⟨own, hO, hA⟩ := ih
    exact hO.mapKernel hA (by norm_num) fun hu => absurd hu (by decide)
  | framebuffer _ hpos hi ih =>
    obtain ⟨own, hO, hA⟩ := ih
    rw [hfb, Nat.zero_add] at hi
    exact hO.mapKernel hA (by norm_num) fun _ => fb_pages hfb hpos hi
  | alloc _ ih =>
    obtain ⟨own, hO, hA⟩ := ih
    obtain ⟨g, m', he, hO', -, -⟩ := hO.allocPage
    rw [he]
    exact ⟨own, hO', hA⟩

end boot

theorem Owned.mapFresh {r : Nat} (hr : r ≠ k) {contents : Nat → Option (Nat → Nat)} {n : Nat} :
    ∀ {m : Machine} {own : Nat → Owner} {addr : Nat}, Owned Z k fb m own →
      own r = .table r [] →
      (∀ i < (m.mapFresh r contents n addr).1, m.vacant k (addr + i * 0x1000) = true) →
      ∃ own', Working Z k fb r m own (m.mapFresh r contents n addr).2 own' := by
  induction n with
  | zero => intro m own addr h _ _; exact ⟨own, Working.refl h r⟩
  | succ n ih =>
    intro m own addr h hroot hv
    obtain ⟨f, m₁, he₁, h₁, hkept, hfresh⟩ := h.allocPage
    have e₁ : Ext r m m₁ own own := Ext.of_used h hkept
    by_cases h0 : f = 0
    · have hres : m.mapFresh r contents (n + 1) addr = (0, m₁) := by
        simp only [Machine.mapFresh, he₁, h0, if_true]
      rw [hres]
      exact ⟨own, h₁, e₁⟩
    obtain ⟨hf, -, -⟩ := hfresh h0
    generalize hm₂ : (m₁.mapPage r addr f 7).2 = m₂
    generalize hm₃ : m₂.copyIn f (contents addr) = m₃
    have hres : m.mapFresh r contents (n + 1) addr =
        ((m₃.mapFresh r contents n (addr + 0x1000)).1 + 1,
          (m₃.mapFresh r contents n (addr + 0x1000)).2) := by
      simp only [Machine.mapFresh, he₁, h0, if_false, hm₂, hm₃]
    rw [hres] at hv ⊢
    have hv₁ : m₁.vacant k addr = true :=
      Machine.vacant_ext h hr e₁ (by simpa using hv 0 (by omega))
    obtain ⟨o₂, h₂, e₂, -, hnt, -⟩ := h₁.mapPage hr hroot hv₁ (show 7 < 4096 by norm_num)
      (Or.inl hf)
    rw [hm₂] at h₂ e₂
    have hfill : Working Z k fb r m₂ o₂ m₃ o₂ := by
      rw [← hm₃]
      cases contents addr with
      | none => exact Working.refl h₂ r
      | some ws => exact ⟨h₂.fill (hnt hf) ws, Ext.of_fill (hnt hf) ws⟩
    have w₃ : Working Z k fb r m own m₃ o₂ := Working.trans ⟨h₂, e₁.trans e₂⟩ hfill
    have hv₃ : ∀ i < (m₃.mapFresh r contents n (addr + 0x1000)).1,
        m₃.vacant k (addr + 0x1000 + i * 0x1000) = true := by
      intro i hi
      have := Machine.vacant_ext h hr w₃.ext (hv (i + 1) (by omega))
      rwa [show addr + (i + 1) * 0x1000 = addr + 0x1000 + i * 0x1000 by omega] at this
    obtain ⟨o₄, w₄⟩ := ih w₃.owned (w₃.ext.keep hroot) hv₃
    exact ⟨o₄, w₃.trans w₄⟩

theorem Machine.mapFresh_le (r : Nat) (contents : Nat → Option (Nat → Nat)) (n addr : Nat)
    (m : Machine) : (m.mapFresh r contents n addr).1 ≤ n := by
  induction n generalizing addr m with
  | zero => exact Nat.le_refl 0
  | succ n ih =>
    simp only [Machine.mapFresh]
    split_ifs
    · exact Nat.zero_le _
    · exact Nat.succ_le_succ (ih _ _)

/-- `elf::load` of a program whose pages lie at vacant addresses. -/
theorem Owned.loadSegments {r : Nat} (hr : r ≠ k) {data : Mem} {phs : List Elf64Phdr} :
    ∀ {m : Machine} {own : Nat → Owner}, Owned Z k fb m own → own r = .table r [] →
      m.LoadVacant k r data phs →
      ∃ own', Working Z k fb r m own (m.loadSegments r data phs).2 own' := by
  induction phs with
  | nil => intro m own h _ _; exact ⟨own, Working.refl h r⟩
  | cons ph phs ih =>
    intro m own h hroot hv
    rw [Machine.LoadVacant] at hv
    rw [Machine.loadSegments]
    by_cases ht : ph.pType = ptLoad
    · rw [if_pos ht] at hv ⊢
      obtain ⟨o₁, w₁⟩ := h.mapFresh hr hroot hv.1
      by_cases hlt : (m.mapFresh r (ph.pageWords data) ph.pageCount ph.segStart).1 < ph.pageCount
      · simp only [if_pos hlt]
        exact ⟨o₁, w₁⟩
      · simp only [if_neg hlt]
        have hall : (m.mapFresh r (ph.pageWords data) ph.pageCount ph.segStart).1 = ph.pageCount := by
          have := Machine.mapFresh_le r (ph.pageWords data) ph.pageCount ph.segStart m
          omega
        obtain ⟨o₂, w₂⟩ := ih w₁.owned (w₁.ext.keep hroot) (hv.2 hall)
        exact ⟨o₂, w₁.trans w₂⟩
    · rw [if_neg ht] at hv ⊢
      exact ih h hroot hv

/-- `elf::load` under the same condition. -/
theorem Owned.load (h : Owned Z k fb m own) {r : Nat} (hr : r ≠ k) (hroot : own r = .table r [])
    {file : Option Mem}
    (hv : ∀ data ∈ file, isElf data = true → m.LoadVacant k r data (segments data)) :
    ∃ own', Working Z k fb r m own (m.load r file).2 own' := by
  cases file with
  | none => exact ⟨own, Working.refl h r⟩
  | some data =>
    rw [Machine.load]
    by_cases helf : isElf data = true
    · simp only [if_pos helf]
      obtain ⟨o, w⟩ := h.loadSegments hr hroot (hv data rfl helf)
      generalize Machine.loadSegments r data (segments data) m = res at w
      cases res with
      | mk ok m' => cases ok <;> exact ⟨o, w⟩
    · simp only [if_neg helf]
      exact ⟨own, Working.refl h r⟩

/-- `AddressSpace::create` and what it allocates on the heap. -/
theorem Owned.createSpace (h : Owned Z k fb m own) (luck : Luck) :
    ∃ f m' own', m.createSpace k luck = (f, m') ∧ Working Z k fb f m own m' own' ∧ own f = .none ∧
      (f ≠ 0 → own' f = .table f [] ∧ f ≠ k) := by
  rw [Machine.createSpace]
  split_ifs
  · obtain ⟨f, m', own', he, hO, hE, -, hf⟩ := h.createAddressSpace
    have hnone : own f = .none := by
      by_cases h0 : f = 0
      · rw [h0, h.zero]
      · exact (hf h0).1
    refine ⟨f, m', own', he, ⟨hO, hE⟩, hnone, fun h0 => ⟨(hf h0).2, fun hk => ?_⟩⟩
    rw [hk, h.kernelRoot] at hnone
    exact Owner.noConfusion hnone
  · exact ⟨0, m, own, rfl, Working.refl h 0, h.zero, fun h0 => absurd rfl h0⟩

section change

/-- A change of memory that touches the tables of spaces in `A` only. -/
structure Change (A : Nat → Prop) (m m' : Machine) (own own' : Nat → Owner) : Prop where
  keep : ∀ {f a p}, own f = .table a p → own' f = .table a p
  foreign : ∀ {f a p}, own f = .table a p → ¬ A a → m'.ram f = m.ram f

variable {A : Nat → Prop} {m' m'' : Machine} {own' own'' : Nat → Owner}

theorem Change.refl (m : Machine) (own : Nat → Owner) : Change A m m own own :=
  ⟨id, fun _ _ => rfl⟩

theorem Change.work (h : Change A m m' own own') {r : Nat} (hr : A r)
    (h' : Ext r m' m'' own' own'') : Change A m m'' own own'' := by
  refine ⟨fun hf => h'.keep (h.keep hf), fun {f a p} hf ha => ?_⟩
  have hne : a ≠ r := by
    intro he
    rw [he] at ha
    exact ha hr
  rw [h'.foreign (h.keep hf) hne, h.foreign hf ha]

theorem Change.vacant (hO : Owned Z k fb m own) (h : Change A m m' own own') (hk : ¬ A k)
    {va : Nat} (hv : m.vacant k va = true) : m'.vacant k va = true := by
  have hroot : m'.ram k = m.ram k := h.foreign hO.kernelRoot hk
  simp only [Machine.vacant, hroot] at hv ⊢
  split_ifs at hv ⊢ with h0
  · cases hp : present (m.ram k 0) with
    | false => rfl
    | true =>
      rw [h.foreign (hO.kernel_pdpt hp) hk]
      rwa [hp] at hv
  · exact hv

/-- A space outside `A` is translated as before. -/
theorem Change.translate (hO : Owned Z k fb m own) (h : Change A m m' own own') (hk : ¬ A k)
    {a : Nat} (ha : ¬ A a) (hroot : own a = .table a []) (va : Nat) :
    translate m'.ram a va = Mm.translate m.ram a va := by
  refine hO.translate_congr hroot (fun f b p hf hb => ?_) va
  cases hb with
  | inl he => rw [he] at hf; exact h.foreign hf ha
  | inr he => rw [he] at hf; exact h.foreign hf hk

end change

end LosTacOS.Mm
