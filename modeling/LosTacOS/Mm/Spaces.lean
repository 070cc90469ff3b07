import LosTacOS.Mm.Mapping

/-! Whole address spaces: `create_address_space`, `clone_user_pages` and `destroy_user_pages` keep
the ownership of frames, and leave the tables of other spaces alone. -/
namespace LosTacOS.Mm

variable {Z : Prop} {k : Nat} {fb : Framebuffer} {m : Machine} {own : Nat → Owner}

section newSpace

variable {m' : Machine} {own' : Nat → Owner} {f₁ f₂ x a j : Nat} {q : List Nat} {o : Owner}

/-- Two fresh pages become the top of a new space: `f₁` with the kernel's upper half and entry 0
to `f₂`, `f₂` with the kernel's low directories. -/
structure NewSpace (k : Nat) (m m' : Machine) (own own' : Nat → Owner) (f₁ f₂ : Nat) : Prop where
  top : own' f₁ = .table f₁ []
  low : own' f₂ = .table f₁ [0]
  rest : ∀ x, x ≠ f₁ → x ≠ f₂ → own' x = own x
  fresh₁ : Fresh m own f₁
  fresh₂ : Fresh m own f₂
  ram : ∀ x, x ≠ f₁ → x ≠ f₂ → m'.ram x = m.ram x
  zero : present (m'.ram f₁ 0) = true ∧ frameOf (m'.ram f₁ 0) = f₂
  upper : ∀ i, i ≠ 0 → present (m'.ram f₁ i) = true → 256 ≤ i ∧ m'.ram f₁ i = m.ram k i
  dir : ∀ i, present (m'.ram f₂ i) = true →
    frameOf (m.ram k 0) ≠ 0 ∧ m'.ram f₂ i = m.ram (frameOf (m.ram k 0)) i
  copy : frameOf (m.ram k 0) ≠ 0 → ∀ i < 512, m'.ram f₂ i = m.ram (frameOf (m.ram k 0)) i

namespace NewSpace

variable (hn : NewSpace k m m' own own' f₁ f₂)
include hn

theorem old (hx : own x = o) (ho : o ≠ .none) : x ≠ f₁ ∧ x ≠ f₂ := by
  refine ⟨fun he => ?_, fun he => ?_⟩
  · rw [he, hn.fresh₁.unowned] at hx
    exact ho hx.symm
  · rw [he, hn.fresh₂.unowned] at hx
    exact ho hx.symm

theorem keep (hx : own x = o) (ho : o ≠ .none) : own' x = o := by
  obtain ⟨hx₁, hx₂⟩ := hn.old hx ho
  rw [hn.rest x hx₁ hx₂, hx]

theorem word (hx : own x = .table a q) : m'.ram x = m.ram x := by
  obtain ⟨hx₁, hx₂⟩ := hn.old hx (by simp)
  exact hn.ram x hx₁ hx₂

theorem owner_cases (hx : own' x = o) :
    (x = f₁ ∧ o = .table f₁ []) ∨ (x = f₂ ∧ o = .table f₁ [0]) ∨ own x = o := by
  by_cases hx₁ : x = f₁
  · rw [hx₁, hn.top] at hx
    exact Or.inl ⟨hx₁, hx.symm⟩
  · by_cases hx₂ : x = f₂
    · rw [hx₂, hn.low] at hx
      exact Or.inr (Or.inl ⟨hx₂, hx.symm⟩)
    · rw [hn.rest x hx₁ hx₂] at hx
      exact Or.inr (Or.inr hx)

theorem table_cases (hx : own' x = .table a q) (hq : 2 ≤ q.length) : own x = .table a q := by
  obtain h | h | h := hn.owner_cases hx
  · cases h.2
    cases hq
  · cases h.2
    exact absurd hq (by decide)
  · exact h

theorem parent (h : Owned Z k fb m own) (hx : own' x = .table a (j :: q)) :
    ∃ g, own' g = .table a q ∧ present (m'.ram g j) = true ∧ frameOf (m'.ram g j) = x := by
  obtain he | he | ho := hn.owner_cases hx
  · exact absurd he.2 (by simp)
  · cases he.2
    rw [he.1]
    exact ⟨f₁, hn.top, hn.zero.1, hn.zero.2⟩
  · obtain ⟨y, hy, hpy, hfy⟩ := h.parent ho
    refine ⟨y, hn.keep hy (by simp), ?_⟩
    rw [hn.word hy]
    exact ⟨hpy, hfy⟩

theorem ne_kernel (h : Owned Z k fb m own) : f₁ ≠ k :=
  fun he => (hn.old h.kernelRoot (by simp)).1 he.symm

omit hn in
/-- The kernel's low directories sit behind its entry 0. -/
theorem kernel_low (h : Owned Z k fb m own) (hnz : frameOf (m.ram k 0) ≠ 0) :
    own (frameOf (m.ram k 0)) = .table k [0] := by
  refine h.kernel_pdpt ?_
  cases hp : present (m.ram k 0) with
  | true => rfl
  | false => exact absurd (h.kernelLow hp) hnz

omit hn in
theorem kernel_child (h : Owned Z k fb m own) {g i : Nat} (hg : own g = .table k q)
    (hq : q.length < 3) (hp : present (m.ram g i) = true) :
    own (frameOf (m.ram g i)) = .table k (i :: q) := by
  cases h.child hg hq hp with
  | inl hc => exact hc
  | inr hc => exact absurd rfl hc.1

theorem child (h : Owned Z k fb m own) (hx : own' x = .table a q) (hq : q.length < 3)
    (hpx : present (m'.ram x j) = true) : own' (frameOf (m'.ram x j)) = .table a (j :: q) ∨
      a ≠ k ∧ SharedAt q j ∧ own' (frameOf (m'.ram x j)) = .table k (j :: q) := by
  obtain he | he | ho := hn.owner_cases hx
  · cases he.2
    rw [he.1] at hpx ⊢
    by_cases hj : j = 0
    · rw [hj, hn.zero.2]
      exact Or.inl hn.low
    · obtain ⟨hge, hw⟩ := hn.upper j hj hpx
      rw [hw] at hpx ⊢
      exact Or.inr ⟨hn.ne_kernel h, Or.inl ⟨rfl, hge⟩,
        hn.keep (kernel_child h h.kernelRoot (by simp) hpx) (by simp)⟩
  · cases he.2
    rw [he.1] at hpx ⊢
    obtain ⟨hnz, hw⟩ := hn.dir j hpx
    rw [hw] at hpx ⊢
    exact Or.inr ⟨hn.ne_kernel h, Or.inr rfl,
      hn.keep (kernel_child h (kernel_low h hnz) (by simp) hpx) (by simp)⟩
  · rw [hn.word ho] at hpx ⊢
    cases h.child ho hq hpx with
    | inl hc => exact Or.inl (hn.keep hc (by simp))
    | inr hc => exact Or.inr ⟨hc.1, hc.2.1, hn.keep hc.2.2 (by simp)⟩

theorem leaf (h : Owned Z k fb m own) (hx : own' x = .table a q) (hq : q.length = 3)
    (hpx : present (m'.ram x j) = true) (hux : user (m'.ram x j) = true) :
    IsFb fb (frameOf (m'.ram x j)) ∨ a ≠ k ∧ (Z ∧ frameOf (m'.ram x j) = 0 ∨
      own' (frameOf (m'.ram x j)) = .leaf a (j :: q)) := by
  have ho := hn.table_cases hx (by omega)
  rw [hn.word ho] at hpx hux ⊢
  cases h.leaf ho hq hpx hux with
  | inl hc => exact Or.inl hc
  | inr hc => exact Or.inr ⟨hc.1, hc.2.imp_right fun hl => hn.keep hl (by simp)⟩

theorem raised (h : Owned Z k fb m own) {l : Nat} (hx : own' x = .table k q) (hq : q.length = 2)
    (hpx : present (m'.ram x j) = true) (hpl : present (m'.ram (frameOf (m'.ram x j)) l) = true)
    (hul : user (m'.ram (frameOf (m'.ram x j)) l) = true) :
    m'.ram x j ||| 7 = m'.ram x j := by
  have ho := hn.table_cases hx (by omega)
  rw [hn.word ho] at hpx hpl hul ⊢
  rw [hn.word (kernel_child h ho (by omega) hpx)] at hpl hul
  exact h.raised ho hq hpx hpl hul

theorem copied (h : Owned Z k fb m own) {y : Nat} (ha : a ≠ k) (hx : own' x = .table a [0])
    (hy : own' y = .table k [0]) (hj : j < 512) (hpy : present (m'.ram y j) = true) :
    present (m'.ram x j) = true ∧ frameOf (m'.ram x j) = frameOf (m'.ram y j) := by
  have hoy : own y = .table k [0] := by
    obtain he | he | ho := hn.owner_cases hy
    · exact absurd he.2 (by simp)
    · exact absurd (Owner.table.inj he.2).1.symm (hn.ne_kernel h)
    · exact ho
  rw [hn.word hoy] at hpy ⊢
  obtain he | he | ho := hn.owner_cases hx
  · exact absurd he.2 (by simp)
  · obtain ⟨z, hz, -, hfz⟩ := h.parent hoy
    rw [h.root hz] at hfz
    have hnz : frameOf (m.ram k 0) ≠ 0 := by
      rw [hfz]
      exact h.ne_zero (by simp [hoy])
    rw [he.1, hn.copy hnz j hj, hfz]
    exact ⟨hpy, rfl⟩
  · rw [hn.word ho]
    exact h.copied ha ho hoy hj hpy

theorem ext : Ext f₁ m m' own own' := by
  refine ⟨fun hx => hn.keep hx (by simp), fun hx _ => hn.word hx, fun hx ha => ?_⟩
  obtain he | he | ho := hn.owner_cases hx
  · cases he.2
    exact absurd rfl ha
  · cases he.2
    exact absurd rfl ha
  · exact ho

end NewSpace

theorem Owned.newSpace (h : Owned Z k fb m own) (hn : NewSpace k m m' own own' f₁ f₂)
    (hpmm : m'.pmm = m.pmm) : Owned Z k fb m' own' := by
  refine ⟨?_, fun {x} hx => ?_, ?_, hn.keep h.kernelRoot (by simp), fun {x a} hx => ?_,
    fun {x a q} hx => ?_, hn.parent h, hn.child h, hn.leaf h, hn.raised h, hn.copied h,
    fun {a} ha hx => ?_, ?_⟩
  · rw [hpmm]
    exact h.cursor
  · rw [hpmm]
    by_cases hx₁ : x = f₁
    · rw [hx₁]
      exact hn.fresh₁.used
    · by_cases hx₂ : x = f₂
      · rw [hx₂]
        exact hn.fresh₂.used
      · rw [hn.rest x hx₁ hx₂] at hx
        exact h.used hx
  · rw [hn.rest 0 hn.fresh₁.ne_zero.symm hn.fresh₂.ne_zero.symm]
    exact h.zero
  · obtain he | he | ho := hn.owner_cases hx
    · cases he.2
      exact he.1
    · exact absurd he.2 (by simp)
    · exact h.root ho
  · obtain he | he | ho := hn.owner_cases hx
    · cases he.2
      simp
    · cases he.2
      simp
    · exact h.depth ho
  · obtain he | he | ho := hn.owner_cases hx
    · rw [he.1]
      exact hn.zero.1
    · exact absurd he.2 (by simp)
    · rw [hn.word ho]
      exact h.low ha ho
  · rw [hn.word h.kernelRoot]
    exact h.kernelLow

end newSpace

theorem Owned.fill (h : Owned Z k fb m own) {f : Nat} (hf : ∀ a p, own f ≠ .table a p)
    (ws : Nat → Nat) : Owned Z k fb (m.fill f ws) own := by
  refine h.congr h.cursor (fun x hx => h.used hx) fun x a p hx => fill_frame _ _ fun he => ?_
  rw [he] at hx
  exact hf a p hx

theorem Ext.of_fill {r f : Nat} (hf : ∀ a p, own f ≠ .table a p) (ws : Nat → Nat) :
    Ext r m (m.fill f ws) own own := by
  refine ⟨id, fun {x a q} hx _ => fill_frame _ _ fun he => ?_, fun hx _ => hx⟩
  rw [he] at hx
  exact hf a q hx

/-- The low directories of the kernel, if it has any, are copied to a blank page. -/
theorem copyLow (m : Machine) (k : Nat) {f : Nat} (hf : m.ram f = fun _ => 0) :
    ∃ m', (if frameOf (m.ram k 0) ≠ 0 then
        m.fill f fun i => if i < 512 then m.ram (frameOf (m.ram k 0)) i else m.ram f i
      else m) = m' ∧ m'.pmm = m.pmm ∧ (∀ x, x ≠ f → m'.ram x = m.ram x) ∧
      ∀ i, m'.ram f i =
        if frameOf (m.ram k 0) ≠ 0 ∧ i < 512 then m.ram (frameOf (m.ram k 0)) i else 0 := by
  refine ⟨_, rfl, ?_, fun x hx => ?_, fun i => ?_⟩
  · split_ifs <;> rfl
  · split_ifs
    · exact fill_frame _ _ hx
    · rfl
  · by_cases hk0 : frameOf (m.ram k 0) ≠ 0
    · rw [if_pos hk0, fill_same, hf]
      simp [hk0]
    · rw [if_neg hk0, hf, if_neg fun hc => hk0 hc.1]

/-- `create_address_space`: a root nobody owned before, or null and no change of owners. The two
tables of the new space are frames that were not standing. -/
theorem Owned.createAddressSpace_tables (h : Owned Z k fb m own) :
    ∃ f m' own', m.createAddressSpace k = (f, m') ∧ Owned Z k fb m' own' ∧
      Ext f m m' own own' ∧ (f = 0 → own' = own) ∧
      (f ≠ 0 → (own f = .none ∧ own' f = .table f []) ∧ (∀ {x}, Standing m x → Standing m' x) ∧
        ∀ {x q}, own' x = .table f q → q.length < 3 ∧ ¬ Standing m x) := by
  obtain ⟨f₁, m₁, he₁, h₁, hkept₁, hfresh₁⟩ := h.allocPage
  by_cases hz₁ : f₁ = 0
  · refine ⟨0, m₁, own, ?_, h₁, Ext.of_used h hkept₁, fun _ => rfl, fun h0 => absurd rfl h0⟩
    simp only [Machine.createAddressSpace, he₁, hz₁, if_true]
  obtain ⟨hf₁, -, hblank₁⟩ := hfresh₁ hz₁
  obtain ⟨hnew₁, hstand₁⟩ := h.allocPage_standing he₁
  generalize hws : (fun i => if 256 ≤ i ∧ i < 512 then m₁.ram k i else m₁.ram f₁ i) = ws
  have h₂ := h₁.fill hf₁.no_table ws
  obtain ⟨f₂, m₃, he₂, h₃, hkept₂, hfresh₂⟩ := h₂.allocPage
  have hext : ∀ r, Ext r m m₃ own own := fun r =>
    ((Ext.of_used h hkept₁).trans (Ext.of_fill hf₁.no_table ws)).trans (Ext.of_used h₂ hkept₂)
  by_cases hz₂ : f₂ = 0
  · refine ⟨0, m₃.freePage f₁, own, ?_, h₃.freePage hf₁.unowned, ?_, fun _ => rfl,
      fun h0 => absurd rfl h0⟩
    · simp only [Machine.createAddressSpace, he₁, hz₁, if_false, hws, he₂, hz₂, if_true]
    · exact ⟨id, fun hx ha => (hext 0).foreign hx ha, fun hx _ => hx⟩
  obtain ⟨hf₂, hfree₂, hblank₂⟩ := hfresh₂ hz₂
  obtain ⟨hnew₂, hstand₂⟩ := h₂.allocPage_standing he₂
  have hne : f₁ ≠ f₂ := by
    intro he
    have := hf₁.used
    rw [he] at this
    rw [fill_pmm, this] at hfree₂
    exact Bool.noConfusion hfree₂
  have hf₁' : Fresh m₃ own f₁ := ⟨hf₁.ne_zero, hf₁.unowned, (hkept₂ f₁ hf₁.used).2⟩
  have hws₃ : m₃.ram f₁ = ws := by rw [(hkept₂ f₁ hf₁.used).1, fill_same]
  have hk₃ : m₃.ram k = m₁.ram k := by
    rw [(hkept₂ k (h₁.used (by simp [h.kernelRoot]))).1, fill_frame]
    intro he
    have := h.kernelRoot
    rw [he, hf₁.unowned] at this
    exact Owner.noConfusion this
  obtain ⟨m₄, hm₄, hpmm₄, hram₄, hdir₄⟩ := copyLow m₃ k hblank₂
  have hstore : ∀ i, i ≠ 0 → (m₄.store f₁ 0 (entry f₂ 7)).ram f₁ i = ws i := by
    intro i hi
    rw [store_index _ _ hi, hram₄ f₁ hne, hws₃]
  have hstore₂ : (m₄.store f₁ 0 (entry f₂ 7)).ram f₂ = m₄.ram f₂ := store_frame _ _ _ hne.symm
  have hspace : NewSpace k m₃ (m₄.store f₁ 0 (entry f₂ 7)) own
      (Function.update (Function.update own f₁ (.table f₁ [])) f₂ (.table f₁ [0])) f₁ f₂ := by
    refine ⟨by simp [hne], by simp, fun x hx₁ hx₂ => by simp [hx₁, hx₂], hf₁', hf₂,
      fun x hx₁ hx₂ => ?_, ?_, fun i hi hp => ?_, fun i hp => ?_, fun hnz i hi => ?_⟩
    · rw [store_frame _ _ _ hx₁, hram₄ x hx₂]
    · rw [store_same, present_entry]
      exact ⟨rfl, frameOf_entry (by norm_num)⟩
    · have hwsi : ws i = if 256 ≤ i ∧ i < 512 then m₁.ram k i else m₁.ram f₁ i := by rw [← hws]
      rw [hstore i hi, hwsi] at hp ⊢
      by_cases hin : 256 ≤ i ∧ i < 512
      · rw [if_pos hin, hk₃]
        exact ⟨hin.1, rfl⟩
      · rw [if_neg hin, hblank₁] at hp
        simp [present] at hp
    · rw [hstore₂, hdir₄] at hp ⊢
      split_ifs at hp ⊢ with hc
      · exact ⟨hc.1, rfl⟩
      · exact Bool.noConfusion hp
    · rw [hstore₂, hdir₄, if_pos ⟨hnz, hi⟩]
  refine ⟨f₁, m₄.store f₁ 0 (entry f₂ 7), _, ?_, h₃.newSpace hspace (by rw [store_pmm, hpmm₄]),
    (hext f₁).trans hspace.ext, fun h0 => absurd h0 hz₁,
    fun _ => ⟨⟨hf₁.unowned, hspace.top⟩, fun {x} hx => ?_, fun {x q} hx => ?_⟩⟩
  · simp only [Machine.createAddressSpace, he₁, hz₁, if_false, hws, he₂, hz₂, hm₄]
  · refine (hstand₂ (hstand₁ hx).2).2.imp_left fun hb => ?_
    rw [store_pmm, hpmm₄]
    exact hb
  · obtain he | he | ho := hspace.owner_cases hx
    · cases he.2
      rw [he.1]
      exact ⟨by simp, hnew₁ hz₁⟩
    · cases he.2
      rw [he.1]
      exact ⟨by simp, fun hs => hnew₂ hz₂ (hstand₁ hs).2⟩
    · exact Owner.noConfusion (hf₁.unowned.symm.trans (h.table_root ho))

theorem Owned.createAddressSpace (h : Owned Z k fb m own) :
    ∃ f m' own', m.createAddressSpace k = (f, m') ∧ Owned Z k fb m' own' ∧
      Ext f m m' own own' ∧ (f = 0 → own' = own) ∧
      (f ≠ 0 → own f = .none ∧ own' f = .table f []) := by
  obtain ⟨f, m', own', he, hO, hE, h0, hf⟩ := h.createAddressSpace_tables
  exact ⟨f, m', own', he, hO, hE, h0, fun hz => (hf hz).1⟩

section leaves

theorem eachEntry_inv {P : Machine → Prop} {table : Nat} {body : Nat → Nat → Machine → Bool × Machine}
    {is : List Nat}
    (hbody : ∀ i ∈ is, ∀ m, P m → present (m.ram table i) = true → P (body i (m.ram table i) m).2) :
    ∀ m, P m → P (Machine.eachEntry table body is m).2 := by
  induction is with
  | nil => exact fun m hm => hm
  | cons i is ih =>
    have ih' := ih fun j hj => hbody j (List.mem_cons_of_mem _ hj)
    intro m hm
    rw [Machine.eachEntry]
    split_ifs with hp
    · have hm' := hbody i List.mem_cons_self m hm hp
      cases hb : body i (m.ram table i) m with
      | mk go m' =>
        rw [hb] at hm'
        cases go with
        | true => exact ih' m' hm'
        | false => exact hm'
    · exact ih' m hm

/-- The nested loops over the leaves of space `s` keep `J` when their body does. The lowest
tables met on the way belong to `s`, or to the kernel under entry 0; `J` keeps both. -/
theorem eachLeaf_inv {J : Machine → (Nat → Owner) → Prop} {s : Nat} {own₀ : Nat → Owner}
    {body : Nat → Nat → Nat → Nat → Nat → Nat → Machine → Bool × Machine}
    (hJ : ∀ {m o}, J m o → Owned Z k fb m o)
    (htab : ∀ {m o}, J m o → ∀ {x a q}, a = s ∨ a = k → (o x = .table a q ↔ own₀ x = .table a q))
    (hs : own₀ s = .table s [])
    (hbody : ∀ {i4 i3 i2 i1 pt a m o}, i4 < 256 → i3 < 512 → i2 < 512 → i1 < 512 →
      (a = s ∨ a = k ∧ i4 = 0) → own₀ pt = .table a [i2, i3, i4] → J m o →
      present (m.ram pt i1) = true → ∃ o', J (body i4 i3 i2 i1 pt (m.ram pt i1) m).2 o') :
    ∀ m, (∃ o, J m o) → ∃ o, J (Machine.eachLeaf s body m).2 o := by
  -- the table below an entry of a table of `s` or of the kernel
  have hnext : ∀ {g a p i m}, (a = s ∨ a = k) → own₀ g = .table a p → p.length < 3 →
      (∃ o, J m o) → present (m.ram g i) = true →
      own₀ (frameOf (m.ram g i)) = .table a (i :: p) ∨
        SharedAt p i ∧ own₀ (frameOf (m.ram g i)) = .table k (i :: p) := by
    intro g a p i m ha hg hp hm hpr
    obtain ⟨o, ho⟩ := hm
    cases (hJ ho).child ((htab ho ha).mpr hg) hp hpr with
    | inl hc => exact Or.inl ((htab ho ha).mp hc)
    | inr hc => exact Or.inr ⟨hc.2.1, (htab ho (Or.inr rfl)).mp hc.2.2⟩
  unfold Machine.eachLeaf
  refine eachEntry_inv (P := fun m => ∃ o, J m o) fun i4 hi4 m4 hm4 hp4 => ?_
  have hi4 := List.mem_range.mp hi4
  have hg3 : own₀ (frameOf (m4.ram s i4)) = .table s [i4] := by
    cases hnext (Or.inl rfl) hs (by simp) hm4 hp4 with
    | inl hc => exact hc
    | inr hc =>
      cases hc.1 with
      | inl hge => omega
      | inr h0 => simp at h0
  refine eachEntry_inv (P := fun m => ∃ o, J m o) (fun i3 hi3 m3 hm3 hp3 => ?_) m4 hm4
  have hg2 : ∃ a, (a = s ∨ a = k ∧ i4 = 0) ∧
      own₀ (frameOf (m3.ram (frameOf (m4.ram s i4)) i3)) = .table a [i3, i4] := by
    cases hnext (Or.inl rfl) hg3 (by simp) hm3 hp3 with
    | inl hc => exact ⟨s, Or.inl rfl, hc⟩
    | inr hc =>
      cases hc.1 with
      | inl h0 => simp at h0
      | inr h0 => exact ⟨k, Or.inr ⟨rfl, by simpa using h0⟩, hc.2⟩
  obtain ⟨a, ha, hg2⟩ := hg2
  have ha' : a = s ∨ a = k := ha.imp_right And.left
  refine eachEntry_inv (P := fun m => ∃ o, J m o) (fun i2 hi2 m2 hm2 hp2 => ?_) m3 hm3
  have hg1 := hnext ha' hg2 (by simp) hm2 hp2
  refine eachEntry_inv (P := fun m => ∃ o, J m o) (fun i1 hi1 m1 hm1 hp1 => ?_) m2 hm2
  obtain ⟨o, ho⟩ := hm1
  refine hbody hi4 (List.mem_range.mp hi3) (List.mem_range.mp hi2) (List.mem_range.mp hi1) ha ?_ ho hp1
  cases hg1 with
  | inl hc => exact hc
  | inr hc =>
    cases hc.1 with
    | inl h0 => simp at h0
    | inr h0 => simp at h0

end leaves

theorem Ext.of_release {r f : Nat} (hf : ∀ a q, own f ≠ .table a q) :
    Ext r m m own (Function.update own f .none) := by
  refine ⟨fun {x a q} hx => ?_, fun _ _ => rfl, fun {x a q} hx _ => ?_⟩
  · have hxf : x ≠ f := fun he => hf a q (he ▸ hx)
    rwa [Function.update_of_ne hxf]
  · by_cases hxf : x = f
    · rw [hxf, Function.update_self] at hx
      exact Owner.noConfusion hx
    · rwa [Function.update_of_ne hxf] at hx

structure Releasing (Z : Prop) (k : Nat) (fb : Framebuffer) (r : Nat) (m : Machine)
    (own : Nat → Owner) (m' : Machine) (own' : Nat → Owner) : Prop where
  owned : Owned Z k fb m' own'
  ext : Ext r m m' own own'
  tables : ∀ {x a q}, own' x = .table a q → own x = .table a q

theorem Releasing.releaseLeaf {r : Nat} {m' : Machine} {o : Nat → Owner} (hr : r ≠ k)
    (hJ : Releasing Z k fb r m own m' o) {i4 i3 i2 i1 pt a : Nat} (ha : a = r ∨ a = k)
    (hpt : own pt = .table a [i2, i3, i4]) (hp : present (m'.ram pt i1) = true) :
    ∃ o', Releasing Z k fb r m own
      (Machine.releaseLeaf fb i4 i3 i2 i1 pt (m'.ram pt i1) m').2 o' := by
  have hpt' := hJ.ext.keep hpt
  unfold Machine.releaseLeaf
  by_cases hu : user (m'.ram pt i1) = true
  · rw [if_pos hu]
    by_cases hfb : fb.isFbPhysAddress (frameOf (m'.ram pt i1) * pageSize) = true
    · rw [if_pos hfb]
      exact ⟨o, hJ⟩
    · rw [if_neg hfb]
      -- a user page of the kernel's tables is framebuffer memory
      have hleaf := (hJ.owned.leaf hpt' rfl hp hu).resolve_left hfb
      have har : a = r := ha.resolve_right hleaf.1
      rw [har] at hpt'
      have hfree : ∀ b q, o (frameOf (m'.ram pt i1)) ≠ .table b q := by
        intro b q hb
        cases hleaf.2 with
        | inl hz =>
          rw [hz.2, hJ.owned.zero] at hb
          exact Owner.noConfusion hb
        | inr hl =>
          rw [hl] at hb
          exact Owner.noConfusion hb
      have hback : Ext r m' (m'.freePage (frameOf (m'.ram pt i1))) o o :=
        ⟨id, fun _ _ => rfl, fun hx _ => hx⟩
      have hrel := (hback.trans (Ext.of_store (i := i1) (w := 0) hpt')).trans
        (Ext.of_release hfree)
      refine ⟨_, hJ.owned.unmapLeaf hr hpt' rfl hp hu hfb, hJ.ext.trans hrel, fun {x b q} hx => ?_⟩
      by_cases hxf : x = frameOf (m'.ram pt i1)
      · rw [hxf, Function.update_self] at hx
        exact Owner.noConfusion hx
      · rw [Function.update_of_ne hxf] at hx
        exact hJ.tables hx
  · rw [if_neg hu]
    exact ⟨o, hJ⟩

/-- `destroy_user_pages` of a user space: its pages go back, no table changes hands. -/
theorem Owned.destroyUserPages (h : Owned Z k fb m own) {r : Nat} (hr : r ≠ k)
    (hroot : own r = .table r []) :
    ∃ own', Owned Z k fb (m.destroyUserPages fb r) own' ∧
      Ext r m (m.destroyUserPages fb r) own own' := by
  obtain ⟨o, ho⟩ := eachLeaf_inv (J := Releasing Z k fb r m own) 
    (fun hJ => hJ.owned) (fun hJ _ _ _ _ => ⟨hJ.tables, hJ.ext.keep⟩) hroot
    (fun _ _ _ _ ha hpt hJ hp => hJ.releaseLeaf hr (ha.imp_right And.left) hpt hp) m
    ⟨own, h, Ext.refl r m own, id⟩
  exact ⟨o, ho.owned, ho.ext⟩

theorem index_vaOf {i4 i3 i2 i1 : Nat} (h4 : i4 < 512) (h3 : i3 < 512) (h2 : i2 < 512)
    (h1 : i1 < 512) : pml4Index (vaOf i4 i3 i2 i1) = i4 ∧ pdptIndex (vaOf i4 i3 i2 i1) = i3 ∧
      pdIndex (vaOf i4 i3 i2 i1) = i2 ∧ ptIndex (vaOf i4 i3 i2 i1) = i1 := by
  simp only [pml4Index, pdptIndex, pdIndex, ptIndex, vaOf]
  omega

/-- A page a space maps by tables of its own lies where the kernel's tables are empty. -/
theorem Owned.vacant_of_private (h : Owned Z k fb m own) {s pt i4 i3 i2 i1 : Nat} (hs : s ≠ k)
    (hpt : own pt = .table s [i2, i3, i4]) (h4 : i4 < 256) (h3 : i3 < 512) (h2 : i2 < 512)
    (h1 : i1 < 512) : m.vacant k (vaOf i4 i3 i2 i1) = true := by
  obtain ⟨e4, e3, -, -⟩ := @index_vaOf i4 i3 i2 i1 (by omega) h3 h2 h1
  simp only [Machine.vacant, e4, e3]
  split_ifs with h0
  · subst h0
    by_contra hcon
    simp only [Bool.not_eq_true, Bool.not_eq_false', Bool.and_eq_true] at hcon
    obtain ⟨pd, hpd, -, -⟩ := h.parent hpt
    obtain ⟨pdpt, hpdpt, -, hf⟩ := h.parent hpd
    have hcopy := h.copied hs hpdpt (h.kernel_pdpt hcon.1) h3 hcon.2
    rw [hf] at hcopy
    rw [hcopy.2] at hpd
    cases h.child (h.kernel_pdpt hcon.1) (by simp) hcon.2 with
    | inl hc =>
      rw [hc] at hpd
      cases hpd
      exact hs rfl
    | inr hc => exact absurd rfl hc.1
  · have hlt : ¬ 256 ≤ i4 := by omega
    simp [hlt]

theorem store_self (m : Machine) (f i : Nat) : m.store f i (m.ram f i) = m := by
  simp [Machine.store]

theorem user_flagsOf (w : Nat) : user (flagsOf w) = user w := by
  have h := Nat.testBit_mod_two_pow w 12 2
  simp only [user, flagsOf]
  simpa using h

/-- `map_page` of a page the kernel's shared tables already map rewrites what is there. -/
theorem Owned.remapShared_quiet (h : Owned Z k fb m own) {d pt i3 i2 i1 : Nat} (hd : d ≠ k)
    (hroot : own d = .table d []) (hpt : own pt = .table k [i2, i3, 0]) (h3 : i3 < 512)
    (h2 : i2 < 512) (h1 : i1 < 512) (hp : present (m.ram pt i1) = true)
    (hu : user (m.ram pt i1) = true) :
    ∃ m', m.mapPage d (vaOf 0 i3 i2 i1) (frameOf (m.ram pt i1)) (flagsOf (m.ram pt i1)) =
        (true, m') ∧ Owned Z k fb m' own ∧ Ext d m m' own own ∧ Quiet d m m' own own := by
  obtain ⟨e4, e3, e2, e1⟩ := index_vaOf (show 0 < 512 by norm_num) h3 h2 h1
  obtain ⟨pd, hpd, hpp, hpf⟩ := h.parent hpt
  obtain ⟨kp, hkp, hkpp, hkpf⟩ := h.parent hpd
  have hne : ∀ {x a p y b q}, own x = .table a p → own y = .table b q → (a, p) ≠ (b, q) → x ≠ y := by
    intro x a p y b q hx hy hab he
    rw [he, hy] at hx
    cases hx
    exact hab rfl
  have hsev : ∀ {w}, present w = true → present (w ||| 7) = true := by
    intro w hw
    rw [present_or, hw]
    rfl
  have hraise : ∀ {w : Nat}, (w ||| 7) ||| 7 = w ||| 7 := by
    intro w
    rw [Nat.or_assoc, Nat.or_self]
  -- the space's own top table and low directory
  have hlow := h.low hd hroot
  have ht : own (frameOf (m.ram d 0)) = .table d [0] := by
    cases h.child hroot (by simp) hlow with
    | inl hc => exact hc
    | inr hc =>
      cases hc.2.1 with
      | inl h0 => omega
      | inr h0 => simp at h0
  generalize htdef : frameOf (m.ram d 0) = t at ht
  have hd₁ : m.descend d 0 7 = (some t, m.store d 0 (m.ram d 0 ||| 7)) := by
    simp only [Machine.descend, hlow, if_true, htdef]
  have hO₁ := h.reflag hroot (by simp) hlow (hsev hlow) (frameOf_or (by norm_num)) fun _ => hraise
  generalize hm₁ : m.store d 0 (m.ram d 0 ||| 7) = m₁ at hd₁ hO₁
  have hram₁ : ∀ x, x ≠ d → m₁.ram x = m.ram x := by
    intro x hx
    rw [← hm₁]
    exact store_frame _ _ _ hx
  have hk₁ : m₁.ram kp = m.ram kp := hram₁ kp (hne hkp hroot (by simp [hd.symm]))
  have hcopy := hO₁.copied hd ht hkp h3 (by rw [hk₁]; exact hkpp)
  rw [hk₁, hkpf] at hcopy
  have hd₂ : m₁.descend t i3 7 = (some pd, m₁.store t i3 (m₁.ram t i3 ||| 7)) := by
    simp only [Machine.descend, hcopy.1, if_true, hcopy.2]
  have hO₂ := hO₁.reflag ht (by simp) hcopy.1 (hsev hcopy.1) (frameOf_or (by norm_num))
    fun _ => hraise
  generalize hm₂ : m₁.store t i3 (m₁.ram t i3 ||| 7) = m₂ at hd₂ hO₂
  have hram₂ : ∀ x p, own x = .table k p → m₂.ram x = m.ram x := by
    intro x p hx
    rw [← hm₂, store_frame _ _ _ (hne hx ht (by simp [hd.symm])),
      hram₁ x (hne hx hroot (by simp [hd.symm]))]
  have hd₃ : m₂.descend pd i2 7 = (some pt, m₂) := by
    have hr : m₂.ram pd i2 ||| 7 = m₂.ram pd i2 := by
      rw [hram₂ pd _ hpd]
      exact h.raised hpd rfl hpp (by rw [hpf]; exact hp) (by rw [hpf]; exact hu)
    have hpp₂ : present (m₂.ram pd i2) = true := by rw [hram₂ pd _ hpd]; exact hpp
    have hpf₂ : frameOf (m₂.ram pd i2) = pt := by rw [hram₂ pd _ hpd]; exact hpf
    simp only [Machine.descend, hpp₂, if_true, hpf₂, hr, store_self]
  have hmap : m.mapPage d (vaOf 0 i3 i2 i1) (frameOf (m.ram pt i1)) (flagsOf (m.ram pt i1)) =
      (true, m₂) := by
    have he : entry (frameOf (m.ram pt i1)) (flagsOf (m.ram pt i1)) = m₂.ram pt i1 := by
      rw [entry_frameOf_flagsOf, hram₂ pt _ hpt]
    simp only [Machine.mapPage, Machine.tableFor, Machine.descendAll, e4, e3, e2, e1, user_flagsOf,
      hu, if_true, hd₁, hd₂, hd₃, he, store_self]
  refine ⟨m₂, hmap, hO₂, ?_, ?_⟩
  · rw [← hm₂]
    refine Ext.trans ?_ (Ext.of_store ht)
    rw [← hm₁]
    exact Ext.of_store hroot
  · have hpmm : m₂.pmm = m.pmm := by
      rw [← hm₂, ← hm₁]
      rfl
    refine ⟨fun hx => ?_, fun _ => rfl, fun {x} _ hq => ?_, fun {x q} hx hq => ?_⟩
    · unfold Standing
      rw [hpmm]
      exact hx
    · have hxd : x ≠ d := fun he => absurd (hq [] (he ▸ hroot)) (by simp)
      have hxt : x ≠ t := fun he => absurd (hq [0] (he ▸ ht)) (by simp)
      rw [← hm₂, store_frame _ _ _ hxt, hram₁ x hxd]
    · exact absurd (h.standing (by simp [hq])) hx

theorem Owned.remapShared (h : Owned Z k fb m own) {d pt i3 i2 i1 : Nat} (hd : d ≠ k)
    (hroot : own d = .table d []) (hpt : own pt = .table k [i2, i3, 0]) (h3 : i3 < 512)
    (h2 : i2 < 512) (h1 : i1 < 512) (hp : present (m.ram pt i1) = true)
    (hu : user (m.ram pt i1) = true) :
    Owned Z k fb (m.mapPage d (vaOf 0 i3 i2 i1) (frameOf (m.ram pt i1)) (flagsOf (m.ram pt i1))).2
      own ∧
    Ext d m (m.mapPage d (vaOf 0 i3 i2 i1) (frameOf (m.ram pt i1)) (flagsOf (m.ram pt i1))).2
      own own := by
  obtain ⟨m', hmap, hO, hE, -⟩ := h.remapShared_quiet hd hroot hpt h3 h2 h1 hp hu
  rw [hmap]
  exact ⟨hO, hE⟩

structure Working (Z : Prop) (k : Nat) (fb : Framebuffer) (r : Nat) (m : Machine)
    (own : Nat → Owner) (m' : Machine) (own' : Nat → Owner) : Prop where
  owned : Owned Z k fb m' own'
  ext : Ext r m m' own own'

theorem Working.refl (h : Owned Z k fb m own) (r : Nat) : Working Z k fb r m own m own :=
  ⟨h, Ext.refl r m own⟩

theorem Working.trans {r : Nat} {m₁ m₂ : Machine} {o₁ o₂ : Nat → Owner}
    (h : Working Z k fb r m own m₁ o₁) (h' : Working Z k fb r m₁ o₁ m₂ o₂) :
    Working Z k fb r m own m₂ o₂ :=
  ⟨h'.owned, h.ext.trans h'.ext⟩

theorem Machine.vacant_ext (h : Owned Z k fb m own) {r va : Nat} {m' : Machine}
    {own' : Nat → Owner} (hr : r ≠ k) (he : Ext r m m' own own') (hv : m.vacant k va = true) :
    m'.vacant k va = true :=
  (Room.ext h ⟨fun hk => absurd hk hr, fun _ => hv⟩ he).vacant hr

theorem flagsOf_lt (w : Nat) : flagsOf w < 4096 := Nat.mod_lt w (by norm_num)

theorem Working.copyLeaf {d s : Nat} {m' : Machine} {o : Nat → Owner} (hd : d ≠ k) (hs : s ≠ k)
    (hroot : own d = .table d []) (hJ : Working Z k fb d m own m' o) {i4 i3 i2 i1 pt a : Nat}
    (h4 : i4 < 256) (h3 : i3 < 512) (h2 : i2 < 512) (h1 : i1 < 512)
    (ha : a = s ∨ a = k ∧ i4 = 0) (hpt : own pt = .table a [i2, i3, i4])
    (hp : present (m'.ram pt i1) = true) :
    ∃ o', Working Z k fb d m own
      (Machine.copyLeaf fb d i4 i3 i2 i1 pt (m'.ram pt i1) m').2 o' := by
  have hpt' := hJ.ext.keep hpt
  have hroot' := hJ.ext.keep hroot
  have hO := hJ.owned
  have hfl := flagsOf_lt (m'.ram pt i1)
  unfold Machine.copyLeaf
  by_cases hu : user (m'.ram pt i1) = true
  · rw [if_pos hu]
    by_cases hfb : fb.isFbPhysAddress (frameOf (m'.ram pt i1) * pageSize) = true
    · rw [if_pos hfb]
      cases ha with
      | inl has =>
        rw [has] at hpt'
        obtain ⟨o', hO', hE', -, -, -⟩ := hO.mapPage hd hroot'
          (hO.vacant_of_private hs hpt' h4 h3 h2 h1) hfl (Or.inr (Or.inl hfb))
        exact ⟨o', hO', hJ.ext.trans hE'⟩
      | inr hak =>
        obtain ⟨rfl, rfl⟩ := hak
        obtain ⟨hO', hE'⟩ := hO.remapShared hd hroot' hpt' h3 h2 h1 hp hu
        exact ⟨o, hO', hJ.ext.trans hE'⟩
    · rw [if_neg hfb]
      have hak := (hO.leaf hpt' rfl hp hu).resolve_left hfb
      have has : a = s := ha.resolve_right fun hc => hak.1 hc.1
      rw [has] at hpt'
      have hv := hO.vacant_of_private hs hpt' h4 h3 h2 h1
      obtain ⟨f, m₁, he₁, hO₁, hkept, hfresh⟩ := hO.allocPage
      have hE₁ : Ext d m' m₁ o o := Ext.of_used hO hkept
      simp only [he₁]
      by_cases h0 : f = 0
      · rw [if_pos h0]
        exact ⟨o, hO₁, hJ.ext.trans hE₁⟩
      · rw [if_neg h0]
        obtain ⟨hf, -, -⟩ := hfresh h0
        generalize hws : m₁.ram (frameOf (m'.ram pt i1)) = ws
        have hO₂ := hO₁.fill hf.no_table ws
        have hE₂ := hE₁.trans (Ext.of_fill hf.no_table ws)
        have hf₂ : Fresh (m₁.fill f ws) o f := ⟨hf.1, hf.2, hf.3⟩
        obtain ⟨o', hO', hE', hheld, -, -⟩ := hO₂.mapPage hd hroot' (Machine.vacant_ext hO hd hE₂ hv) hfl
          (Or.inl hf₂)
        have hE := (hJ.ext.trans hE₂).trans hE'
        revert hO' hE hheld
        cases (m₁.fill f ws).mapPage d (vaOf i4 i3 i2 i1) f (flagsOf (m'.ram pt i1)) with
        | mk ok m₃ =>
          intro hO' hheld hE
          cases ok with
          | true => exact ⟨o', hO', hE⟩
          | false =>
            exact ⟨o', hO'.freePage (hheld rfl f hf₂).unowned,
              hE.trans ⟨id, fun _ _ => rfl, fun hx _ => hx⟩⟩
  · rw [if_neg hu]
    exact ⟨o, hJ⟩

/-- `clone_user_pages` from space `s` into another user space, whether or not it succeeds. -/
theorem Owned.cloneUserPages (h : Owned Z k fb m own) {d s : Nat} (hd : d ≠ k) (hs : s ≠ k)
    (hsd : s ≠ d) (hrootd : own d = .table d []) (hroots : own s = .table s []) :
    ∃ own', Owned Z k fb (m.cloneUserPages fb d s).2 own' ∧
      Ext d m (m.cloneUserPages fb d s).2 own own' := by
  have htab : ∀ {m' o}, Working Z k fb d m own m' o → ∀ {x a q}, a = s ∨ a = k →
      (o x = .table a q ↔ own x = .table a q) := by
    intro m' o hJ x a q ha
    have hne : a ≠ d := by
      cases ha with
      | inl he => rw [he]; exact hsd
      | inr he => rw [he]; exact hd.symm
    exact ⟨fun hx => hJ.ext.only hx hne, hJ.ext.keep⟩
  obtain ⟨o, ho⟩ := eachLeaf_inv (J := Working Z k fb d m own) (fun hJ => hJ.owned) htab hroots
    (fun h4 h3 h2 h1 ha hpt hJ hp => hJ.copyLeaf hd hs hrootd h4 h3 h2 h1 ha hpt hp) m
    ⟨own, h, Ext.refl d m own⟩
  exact ⟨o, ho.owned, ho.ext⟩

/-- The processor's view of a space depends on its own tables and the kernel's. -/
theorem Owned.translate_congr (h : Owned Z k fb m own) {m' : Machine} {a : Nat}
    (hroot : own a = .table a [])
    (hram : ∀ f b p, own f = .table b p → b = a ∨ b = k → m'.ram f = m.ram f) (va : Nat) :
    translate m'.ram a va = translate m.ram a va := by
  have hlook : ∀ {f b p} i, own f = .table b p → b = a ∨ b = k →
      lookup m'.ram f i = lookup m.ram f i := by
    intro f b p i hf hb
    simp only [lookup, hram f b p hf hb]
  have hnext : ∀ {f b p i e}, own f = .table b p → b = a ∨ b = k → p.length < 3 →
      lookup m.ram f i = some e → ∃ b', own (frameOf e) = .table b' (i :: p) ∧ (b' = a ∨ b' = k) := by
    intro f b p i e hf hb hp he
    unfold lookup at he
    split_ifs at he with hpr
    cases he
    cases h.child hf hp hpr with
    | inl hc => exact ⟨b, hc, hb⟩
    | inr hc => exact ⟨k, hc.2.2, Or.inr rfl⟩
  unfold translate
  rw [hlook _ hroot (Or.inl rfl)]
  cases he4 : lookup m.ram a (pml4Index va) with
  | none => rfl
  | some e4 =>
    obtain ⟨b3, hf3, hb3⟩ := hnext hroot (Or.inl rfl) (by simp) he4
    simp only [Option.bind_eq_bind, Option.bind_some]
    rw [hlook _ hf3 hb3]
    cases he3 : lookup m.ram (frameOf e4) (pdptIndex va) with
    | none => rfl
    | some e3 =>
      obtain ⟨b2, hf2, hb2⟩ := hnext hf3 hb3 (by simp) he3
      simp only [Option.bind_some]
      rw [hlook _ hf2 hb2]
      cases he2 : lookup m.ram (frameOf e3) (pdIndex va) with
      | none => rfl
      | some e2 =>
        obtain ⟨b1, hf1, hb1⟩ := hnext hf2 hb2 (by simp) he2
        simp only [Option.bind_some]
        rw [hlook _ hf1 hb1]

end LosTacOS.Mm
