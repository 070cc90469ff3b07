import LosTacOS.Mm.Ownership

/-! `map_page` keeps the ownership of frames and leaves the tables of other spaces alone. -/
namespace LosTacOS.Mm

variable {Z : Prop} {k : Nat} {fb : Framebuffer} {m : Machine} {own : Nat → Owner}

theorem or_seven {u : Nat} (hu : u = 3 ∨ u = 7) : u < 4096 ∧ present u = true := by
  cases hu with
  | inl h => subst h; decide
  | inr h => subst h; decide

/-- How a step on space `r` leaves pages that are allocated and not yet mapped. -/
def Holds (m m' : Machine) (own own' : Nat → Owner) : Prop :=
  ∀ f, Fresh m own f → Fresh m' own' f

/-- A frame that `alloc_page` cannot hand out. -/
def Standing (m : Machine) (x : Nat) : Prop :=
  m.pmm.bitmap x = true ∨ x = 0 ∨ totalPagesMax ≤ x

theorem Owned.standing (h : Owned Z k fb m own) {x : Nat} (hx : own x ≠ .none) : Standing m x :=
  Or.inl (h.used hx)

/-- `alloc_page` takes a frame that was not standing and writes to no other. -/
theorem Owned.allocPage_standing (h : Owned Z k fb m own) {f : Nat} {m' : Machine}
    (he : m.allocPage = (f, m')) : (f ≠ 0 → ¬ Standing m f) ∧
      ∀ {x}, Standing m x → m'.ram x = m.ram x ∧ Standing m' x := by
  cases m.allocPage_cases h.cursor with
  | inl hpage =>
    obtain ⟨g, h0, hg, hb, he'⟩ := hpage
    rw [he'] at he
    cases he
    have hnot : ¬ Standing m f := by
      rintro (hx | hx | hx)
      · rw [hb] at hx
        exact Bool.noConfusion hx
      · exact h0 hx
      · omega
    refine ⟨fun _ => hnot, fun {x} hx => ?_⟩
    have hxf : x ≠ f := fun he => hnot (he ▸ hx)
    refine ⟨fill_frame _ _ hxf, ?_⟩
    refine hx.imp_left fun hx => ?_
    rw [fill_pmm, take_bitmap, if_neg hxf, hx]
  | inr hnull =>
    obtain ⟨s, hs, hbit, he'⟩ := hnull
    rw [he'] at he
    cases he
    exact ⟨fun h0 => absurd rfl h0, fun hx => ⟨rfl, hx.imp_left (hbit _)⟩⟩

/-- What the way down in space `r` leaves as it was: standing frames, but for the upper tables of
`r`. New lowest tables are blank. -/
structure Quiet (r : Nat) (m m' : Machine) (own own' : Nat → Owner) : Prop where
  stands : ∀ {x}, Standing m x → Standing m' x
  owner : ∀ {x}, Standing m x → own' x = own x
  ram : ∀ {x}, Standing m x → (∀ q, own x = .table r q → q.length = 3) → m'.ram x = m.ram x
  blank : ∀ {x q}, ¬ Standing m x → own' x = .table r q → q.length = 3 → ∀ i, m'.ram x i = 0

theorem Quiet.trans {r : Nat} {m₁ m₂ : Machine} {o₁ o₂ : Nat → Owner}
    (h : Quiet r m m₁ own o₁) (h' : Quiet r m₁ m₂ o₁ o₂) : Quiet r m m₂ own o₂ where
  stands hx := h'.stands (h.stands hx)
  owner hx := (h'.owner (h.stands hx)).trans (h.owner hx)
  ram hx hq := by
    rw [h'.ram (h.stands hx) fun q hq' => hq q ((h.owner hx).symm.trans hq'), h.ram hx hq]
  blank {x q} hx hq hlen := by
    by_cases hx₁ : Standing m₁ x
    · have ho := (h'.owner hx₁).symm.trans hq
      rw [h'.ram hx₁ fun q' hq' => by rw [ho] at hq'; cases hq'; exact hlen]
      exact h.blank hx ho hlen
    · exact h'.blank hx₁ hq hlen

/-- One level of `map_page` in a table of the space. -/
theorem Owned.descend_quiet (h : Owned Z k fb m own) {g r i u : Nat} {p : List Nat}
    (hg : own g = .table r p) (hp : p.length < 3)
    (hlow : r ≠ k → i :: p = [0] → present (m.ram g i) = true)
    (halone : r = k → Alone k own)
    (hpriv : present (m.ram g i) = true → own (frameOf (m.ram g i)) = .table r (i :: p))
    (hu : u = 3 ∨ u = 7) :
    ∃ m' own', Owned Z k fb m' own' ∧ Ext r m m' own own' ∧ Holds m m' own own' ∧
      Quiet r m m' own own' ∧
      (m.descend g i u = (none, m') ∨
        ∃ t, m.descend g i u = (some t, m') ∧ own' t = .table r (i :: p) ∧
          present (m'.ram g i) = true ∧ frameOf (m'.ram g i) = t ∧
          (u = 7 → m'.ram g i ||| 7 = m'.ram g i)) := by
  obtain ⟨hu12, hpu⟩ := or_seven hu
  -- a lowest table is not the one written to
  have hupper : ∀ {x}, (∀ q, own x = .table r q → q.length = 3) → x ≠ g := by
    intro x hx he
    rw [he] at hx
    have := hx p hg
    omega
  have hfree : ∀ {x q}, ¬ Standing m x → own x ≠ .table r q := by
    intro x q hx ho
    exact hx (h.standing (by simp [ho]))
  cases hold : present (m.ram g i) with
  | true =>
    have hw : present (m.ram g i ||| u) = true := by rw [present_or, hold]; rfl
    have hraise : u = 7 → (m.ram g i ||| u) ||| 7 = m.ram g i ||| u := by
      intro h7
      rw [h7, Nat.or_assoc, Nat.or_self]
    refine ⟨m.store g i (m.ram g i ||| u), own, ?_, ?_, fun f hf => ⟨hf.1, hf.2, hf.3⟩, ?_,
      Or.inr ?_⟩
    · refine h.reflag hg hp hold hw (frameOf_or hu12) fun h7 => ?_
      rw [Nat.or_assoc, Nat.or_comm u 7, ← Nat.or_assoc, h7]
    · exact Ext.of_store hg
    · exact ⟨id, fun _ => rfl, fun _ hq => store_frame _ _ _ (hupper hq),
        fun hx hq _ => absurd hq (hfree hx)⟩
    · refine ⟨frameOf (m.ram g i), by simp only [Machine.descend, hold, if_true], hpriv hold, ?_, ?_, ?_⟩
      · rw [store_same]; exact hw
      · rw [store_same]; exact frameOf_or hu12
      · rw [store_same]; exact hraise
  | false =>
    obtain ⟨f, m₁, he, h₁, hkept, hfresh⟩ := h.allocPage
    obtain ⟨hnew, hstand⟩ := h.allocPage_standing he
    by_cases h0 : f = 0
    · refine ⟨m₁, own, h₁, Ext.of_used h hkept, fun x hx => ⟨hx.1, hx.2, (hkept x hx.3).2⟩, ?_,
        Or.inl ?_⟩
      · exact ⟨fun hx => (hstand hx).2, fun _ => rfl, fun hx _ => (hstand hx).1,
          fun hx hq _ => absurd hq (hfree hx)⟩
      · simp only [Machine.descend, hold, Bool.false_eq_true, if_false, he, h0, if_true]
    · obtain ⟨hf, hfree', hz⟩ := hfresh h0
      have hgi : present (m₁.ram g i) = false := by
        rw [(hkept g (h.used (by simp [hg]))).1]
        exact hold
      have hne : ∀ {x}, Standing m x → x ≠ f := fun hx he => hnew h0 (he ▸ hx)
      refine ⟨m₁.store g i (entry f u), Function.update own f (.table r (i :: p)), ?_, ?_, ?_, ?_,
        Or.inr ?_⟩
      · refine h₁.attach hg hp (fun hr he0 => ?_) halone hgi hf hz ?_ (frameOf_entry hu12)
        · rw [hlow hr he0] at hold
          exact Bool.noConfusion hold
        · rw [present_entry]; exact hpu
      · refine ((Ext.of_used h hkept).trans (Ext.of_store hg)).trans (Ext.of_update hf.unowned ?_)
        intro a q hq
        cases hq
        rfl
      · intro x hx
        have hxf : x ≠ f := by
          intro hxf
          have := hx.used
          rw [hxf, hfree'] at this
          exact Bool.noConfusion this
        exact ⟨hx.1, by simp [hxf, hx.2], (hkept x hx.3).2⟩
      · refine ⟨fun hx => (hstand hx).2, fun hx => Function.update_of_ne (hne hx) _ _, ?_, ?_⟩
        · intro x hx hq
          rw [store_frame _ _ _ (hupper hq), (hstand hx).1]
        · intro x q hx hq hlen j
          by_cases hxf : x = f
          · have hfg : f ≠ g := (hne (h.standing (by simp [hg]))).symm
            rw [hxf, store_frame _ _ _ hfg, hz]
          · rw [Function.update_of_ne hxf] at hq
            exact absurd hq (hfree hx)
      · refine ⟨f, ?_, by simp, ?_, ?_, ?_⟩
        · simp only [Machine.descend, hold, Bool.false_eq_true, if_false, he, h0]
        · rw [store_same, present_entry]; exact hpu
        · rw [store_same]; exact frameOf_entry hu12
        · intro h7
          rw [store_same, entry, h7, Nat.or_assoc, Nat.or_self]

/-- Where `map_page` may add tables: in the kernel's space before there is any other, later
only where the kernel's own tables are empty. -/
structure Room (k r va : Nat) (m : Machine) (own : Nat → Owner) : Prop where
  alone : r = k → Alone k own
  vacant : r ≠ k → m.vacant k va = true

theorem Owned.kernel_pdpt (h : Owned Z k fb m own) (hp : present (m.ram k 0) = true) :
    own (frameOf (m.ram k 0)) = .table k [0] := by
  cases h.child h.kernelRoot (by simp) hp with
  | inl hc => exact hc
  | inr hc => exact absurd rfl hc.1

/-- The table below an entry of a table of `s` or of the kernel. -/
theorem Owned.next_table (h : Owned Z k fb m own) {s g a i : Nat} {p : List Nat}
    (ha : a = s ∨ a = k) (hg : own g = .table a p) (hp : p.length < 3)
    (hpr : present (m.ram g i) = true) :
    ∃ b, (b = s ∨ b = k) ∧ own (frameOf (m.ram g i)) = .table b (i :: p) := by
  cases h.child hg hp hpr with
  | inl hc => exact ⟨a, ha, hc⟩
  | inr hc => exact ⟨k, Or.inr rfl, hc.2.2⟩

theorem Room.ext (h : Owned Z k fb m own) {r va : Nat} {m' : Machine} {own' : Nat → Owner}
    (hroom : Room k r va m own) (he : Ext r m m' own own') : Room k r va m' own' := by
  refine ⟨fun hr x a q hx => ?_, fun hr => ?_⟩
  · by_contra hne
    rw [hr] at he
    exact hne (hroom.alone hr x a q (he.only hx hne))
  · have hk : m'.ram k = m.ram k := he.foreign h.kernelRoot hr.symm
    have hv := hroom.vacant hr
    simp only [Machine.vacant] at hv ⊢
    rw [hk]
    split_ifs at hv ⊢ with h0
    · cases hp : present (m.ram k 0) with
      | false => rfl
      | true =>
        rw [he.foreign (h.kernel_pdpt hp) hr.symm]
        rwa [hp] at hv
    · exact hv

/-- Under `Room` the tables on the way are the space's own. -/
theorem Owned.private_of_room (h : Owned Z k fb m own) {g r va i : Nat} {p : List Nat}
    (hroom : Room k r va m own) (hg : own g = .table r p) (hp : p.length < 3)
    (hroot : p = [] → i = pml4Index va) (hdir : ∀ j, p = [j] → j = pml4Index va ∧ i = pdptIndex va)
    (hpr : present (m.ram g i) = true) : own (frameOf (m.ram g i)) = .table r (i :: p) := by
  cases h.child hg hp hpr with
  | inl hc => exact hc
  | inr hc =>
    obtain ⟨hr, hshared, hk⟩ := hc
    have hv := hroom.vacant hr
    obtain ⟨x, hx, hpx, -⟩ := h.parent hk
    cases hshared with
    | inl h0 =>
      -- an entry of the upper half that the kernel has, too
      rw [h0.1] at hx
      rw [h.root hx, hroot h0.1] at hpx
      have hge : 256 ≤ pml4Index va := by rw [← hroot h0.1]; exact h0.2
      have hne : pml4Index va ≠ 0 := by omega
      simp only [Machine.vacant, if_neg hne, hpx, hge, decide_true, Bool.and_self] at hv
      exact Bool.noConfusion hv
    | inr h0 =>
      -- a 1 GiB slot that the kernel has, too
      obtain ⟨h1, h2⟩ := hdir 0 h0
      rw [h0] at hx
      obtain ⟨y, hy, hpy, hfy⟩ := h.parent hx
      rw [h.root hy] at hpy hfy
      rw [← hfy, h2] at hpx
      simp only [Machine.vacant, if_pos h1.symm, hpy, hpx, Bool.and_self] at hv
      exact Bool.noConfusion hv

/-- The way down to the lowest table of an address, in the space's own tables. -/
theorem Owned.tableFor_quiet (h : Owned Z k fb m own) {r va u : Nat} (hroot : own r = .table r [])
    (hroom : Room k r va m own) (hu : u = 3 ∨ u = 7) :
    ∃ m' own', Owned Z k fb m' own' ∧ Ext r m m' own own' ∧ Holds m m' own own' ∧
      Quiet r m m' own own' ∧
      (m.tableFor r va u = (none, m') ∨
        ∃ pd t, m.tableFor r va u = (some t, m') ∧
          own' pd = .table r [pdptIndex va, pml4Index va] ∧
          own' t = .table r [pdIndex va, pdptIndex va, pml4Index va] ∧
          present (m'.ram pd (pdIndex va)) = true ∧ frameOf (m'.ram pd (pdIndex va)) = t ∧
          (u = 7 → m'.ram pd (pdIndex va) ||| 7 = m'.ram pd (pdIndex va))) := by
  obtain ⟨m₁, o₁, h₁, e₁, hold₁, q₁, hres₁⟩ := h.descend_quiet (i := pml4Index va) (u := u) hroot (by simp)
    (fun hr h0 => by
      simp only [List.cons.injEq, and_true] at h0
      rw [h0]
      exact h.low hr hroot)
    hroom.alone (h.private_of_room hroom hroot (by simp) (fun _ => rfl) (by simp)) hu
  have hroom₁ := hroom.ext h e₁
  cases hres₁ with
  | inl hnone =>
    exact ⟨m₁, o₁, h₁, e₁, hold₁, q₁, Or.inl (by simp only [Machine.tableFor, Machine.descendAll, hnone])⟩
  | inr hsome =>
    obtain ⟨pdpt, hd₁, ht₁, -, -, -⟩ := hsome
    obtain ⟨m₂, o₂, h₂, e₂, hold₂, q₂, hres₂⟩ := h₁.descend_quiet (i := pdptIndex va) (u := u) ht₁ (by simp)
      (fun _ h0 => by simp at h0) hroom₁.alone
      (h₁.private_of_room hroom₁ ht₁ (by simp) (by simp) (by simp)) hu
    have hroom₂ := hroom₁.ext h₁ e₂
    cases hres₂ with
    | inl hnone =>
      exact ⟨m₂, o₂, h₂, e₁.trans e₂, fun f hf => hold₂ f (hold₁ f hf), q₁.trans q₂,
        Or.inl (by simp only [Machine.tableFor, Machine.descendAll, hd₁, hnone])⟩
    | inr hsome =>
      obtain ⟨pd, hd₂, ht₂, -, -, -⟩ := hsome
      obtain ⟨m₃, o₃, h₃, e₃, hold₃, q₃, hres₃⟩ := h₂.descend_quiet (i := pdIndex va) (u := u) ht₂ (by simp)
        (fun _ h0 => by simp at h0) hroom₂.alone
        (h₂.private_of_room hroom₂ ht₂ (by simp) (by simp) (by simp)) hu
      refine ⟨m₃, o₃, h₃, (e₁.trans e₂).trans e₃, fun f hf => hold₃ f (hold₂ f (hold₁ f hf)),
        (q₁.trans q₂).trans q₃, ?_⟩
      cases hres₃ with
      | inl hnone => exact Or.inl (by simp only [Machine.tableFor, Machine.descendAll, hd₁, hd₂, hnone])
      | inr hsome =>
        obtain ⟨t, hd₃, ht₃, hp₃, hf₃, hr₃⟩ := hsome
        exact Or.inr ⟨pd, t, by simp only [Machine.tableFor, Machine.descendAll, hd₁, hd₂, hd₃],
          e₃.keep ht₂, ht₃, hp₃, hf₃, hr₃⟩

theorem Owned.tableFor (h : Owned Z k fb m own) {r va u : Nat} (hroot : own r = .table r [])
    (hroom : Room k r va m own) (hu : u = 3 ∨ u = 7) :
    ∃ m' own', Owned Z k fb m' own' ∧ Ext r m m' own own' ∧ Holds m m' own own' ∧
      (m.tableFor r va u = (none, m') ∨
        ∃ pd t, m.tableFor r va u = (some t, m') ∧
          own' pd = .table r [pdptIndex va, pml4Index va] ∧
          own' t = .table r [pdIndex va, pdptIndex va, pml4Index va] ∧
          present (m'.ram pd (pdIndex va)) = true ∧ frameOf (m'.ram pd (pdIndex va)) = t ∧
          (u = 7 → m'.ram pd (pdIndex va) ||| 7 = m'.ram pd (pdIndex va))) := by
  obtain ⟨m', own', hO, hE, hH, -, hres⟩ := h.tableFor_quiet hroot hroom hu
  exact ⟨m', own', hO, hE, hH, hres⟩

def Mappable (Z : Prop) (fb : Framebuffer) (m : Machine) (own : Nat → Owner) (f : Nat) : Prop :=
  Fresh m own f ∨ IsFb fb f ∨ Z ∧ f = 0

/-- `map_page` in a user space, at an address the kernel's tables leave empty. -/
theorem Owned.mapPage (h : Owned Z k fb m own) {r va f flags : Nat} (hr : r ≠ k)
    (hroot : own r = .table r []) (hv : m.vacant k va = true) (hfl : flags < 4096)
    (hmap : Mappable Z fb m own f) :
    ∃ own', Owned Z k fb (m.mapPage r va f flags).2 own' ∧
      Ext r m (m.mapPage r va f flags).2 own own' ∧
      ((m.mapPage r va f flags).1 = false → Holds m (m.mapPage r va f flags).2 own own') ∧
      (Fresh m own f → ∀ a p, own' f ≠ .table a p) ∧
      ((m.mapPage r va f flags).1 = true →
        ∃ t, own' t = .table r [pdIndex va, pdptIndex va, pml4Index va]) := by
  have hu : (if user flags = true then 7 else 3) = 3 ∨ (if user flags = true then 7 else 3) = 7 := by
    split_ifs <;> simp
  obtain ⟨m₁, o₁, h₁, e₁, hold, hres⟩ := h.tableFor hroot ⟨fun hk => absurd hk hr, fun _ => hv⟩ hu
  cases hres with
  | inl hnone =>
    have he : m.mapPage r va f flags = (false, m₁) := by simp only [Machine.mapPage, hnone]
    rw [he]
    exact ⟨o₁, h₁, e₁, fun _ => hold, fun hf => (hold f hf).no_table, fun hb => Bool.noConfusion hb⟩
  | inr hsome =>
    obtain ⟨pd, t, hd, -, ht, -, -, -⟩ := hsome
    have he : m.mapPage r va f flags = (true, m₁.store t (ptIndex va) (entry f flags)) := by
      simp only [Machine.mapPage, hd]
    rw [he]
    by_cases hf : Fresh m own f
    · have hf₁ := hold f hf
      have htf : t ≠ f := by
        intro he
        rw [he] at ht
        exact hf₁.no_table _ _ ht
      refine ⟨_, h₁.mapLeaf hr ht rfl hf₁ (frameOf_entry hfl), ?_, fun hb => Bool.noConfusion hb,
        fun _ a p => by simp, fun _ => ⟨t, by simp [htf, ht]⟩⟩
      exact (e₁.trans (Ext.of_store ht)).trans (Ext.of_update hf₁.unowned (by simp))
    · refine ⟨o₁, h₁.mapShared ht rfl (fun _ => ?_) fun hk => absurd hk hr,
        e₁.trans (Ext.of_store ht), fun hb => Bool.noConfusion hb, fun hc => absurd hc hf,
        fun _ => ⟨t, ht⟩⟩
      rw [frameOf_entry hfl]
      cases hmap with
      | inl hc => exact absurd hc hf
      | inr hc =>
        cases hc with
        | inl hfb => exact Or.inl hfb
        | inr hz => exact Or.inr ⟨hr, hz⟩

/-- `map_page` in the kernel's own space during boot. -/
theorem Owned.mapKernel (h : Owned Z k fb m own) (halone : Alone k own) {va f flags : Nat}
    (hfl : flags < 4096) (hfb : user flags = true → IsFb fb f) :
    ∃ own', Owned Z k fb (m.mapPage k va f flags).2 own' ∧ Alone k own' := by
  have hu : (if user flags = true then 7 else 3) = 3 ∨ (if user flags = true then 7 else 3) = 7 := by
    split_ifs <;> simp
  have hroom : Room k k va m own := ⟨fun _ => halone, fun hk => absurd rfl hk⟩
  obtain ⟨m₁, o₁, h₁, e₁, -, hres⟩ := h.tableFor h.kernelRoot hroom hu
  have halone₁ : Alone k o₁ := (hroom.ext h e₁).alone rfl
  refine ⟨o₁, ?_, halone₁⟩
  cases hres with
  | inl hnone =>
    have he : m.mapPage k va f flags = (false, m₁) := by simp only [Machine.mapPage, hnone]
    rw [he]
    exact h₁
  | inr hsome =>
    obtain ⟨pd, t, hd, hpd, ht, hpres, hfr, hraise⟩ := hsome
    have he : m.mapPage k va f flags = (true, m₁.store t (ptIndex va) (entry f flags)) := by
      simp only [Machine.mapPage, hd]
    rw [he]
    refine h₁.mapShared ht rfl (fun huser => ?_) fun _ huser x j q hx hq hpx hfx => ?_
    · rw [user_entry] at huser
      rw [frameOf_entry hfl]
      exact Or.inl (hfb huser)
    · -- the only entry above the table is the one just raised
      rw [user_entry] at huser
      have hxt : o₁ t = .table k (j :: q) := by
        cases h₁.child hx (by omega) hpx with
        | inl hc => rwa [hfx] at hc
        | inr hc => exact absurd rfl hc.1
      rw [ht] at hxt
      cases hxt
      rw [h₁.table_inj hx hpd]
      exact hraise (by rw [if_pos huser])

theorem Owned.freePage (h : Owned Z k fb m own) {f : Nat} (hf : own f = .none) :
    Owned Z k fb (m.freePage f) own := by
  refine h.congr ((freePage_lastPage _ _).trans h.cursor) (fun x hx => ?_) fun _ _ _ _ => rfl
  have hxf : x ≠ f := by
    intro he
    rw [he] at hx
    exact hx hf
  rw [freePage_used, if_neg hxf]
  exact h.used hx

end LosTacOS.Mm
