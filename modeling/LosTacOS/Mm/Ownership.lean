import LosTacOS.Mm.Paging

/-! Who owns a frame. Every table frame belongs to one place of one address space, every user
page to one virtual page of one address space; the kernel's directories may be reached from
other spaces, but only where `create_address_space` copied an entry. -/
namespace LosTacOS.Mm

inductive Owner where
  | none
  | table (space : Nat) (path : List Nat)
  | leaf (space : Nat) (path : List Nat)

/-- Entries that `create_address_space` copies from the kernel's tables. -/
def SharedAt (path : List Nat) (i : Nat) : Prop := (path = [] ∧ 256 ≤ i) ∨ path = [0]

def IsFb (fb : Framebuffer) (f : Nat) : Prop := fb.isFbPhysAddress (f * pageSize) = true

/-- The invariant of physical memory. `Z` says whether a user page may be frame 0; `k` is the
frame of the kernel's top-level table. -/
structure Owned (Z : Prop) (k : Nat) (fb : Framebuffer) (m : Machine) (own : Nat → Owner) :
    Prop where
  cursor : m.pmm.lastPage ≤ totalPagesMax
  used : ∀ {f}, own f ≠ .none → m.pmm.bitmap f = true
  zero : own 0 = .none
  kernelRoot : own k = .table k []
  root : ∀ {f a}, own f = .table a [] → f = a
  depth : ∀ {f a p}, own f = .table a p → p.length ≤ 3
  parent : ∀ {f a i p}, own f = .table a (i :: p) →
    ∃ g, own g = .table a p ∧ present (m.ram g i) = true ∧ frameOf (m.ram g i) = f
  child : ∀ {g a p i}, own g = .table a p → p.length < 3 → present (m.ram g i) = true →
    own (frameOf (m.ram g i)) = .table a (i :: p) ∨
      a ≠ k ∧ SharedAt p i ∧ own (frameOf (m.ram g i)) = .table k (i :: p)
  leaf : ∀ {g a p i}, own g = .table a p → p.length = 3 → present (m.ram g i) = true →
    user (m.ram g i) = true → IsFb fb (frameOf (m.ram g i)) ∨
      a ≠ k ∧ (Z ∧ frameOf (m.ram g i) = 0 ∨ own (frameOf (m.ram g i)) = .leaf a (i :: p))
  /-- above a user page of the kernel's tables the flags are already raised -/
  raised : ∀ {g p i j}, own g = .table k p → p.length = 2 → present (m.ram g i) = true →
    present (m.ram (frameOf (m.ram g i)) j) = true →
    user (m.ram (frameOf (m.ram g i)) j) = true → m.ram g i ||| 7 = m.ram g i
  /-- every space sees every directory of the kernel's low half -/
  copied : ∀ {g a h i}, a ≠ k → own g = .table a [0] → own h = .table k [0] → i < 512 →
    present (m.ram h i) = true →
    present (m.ram g i) = true ∧ frameOf (m.ram g i) = frameOf (m.ram h i)
  low : ∀ {a}, a ≠ k → own a = .table a [] → present (m.ram a 0) = true
  kernelLow : present (m.ram k 0) = false → frameOf (m.ram k 0) = 0

def Alone (k : Nat) (own : Nat → Owner) : Prop := ∀ x a q, own x = .table a q → a = k

/-- What an operation on space `r` may do: tables stay, and other spaces' tables stay as they
are. -/
structure Ext (r : Nat) (m m' : Machine) (own own' : Nat → Owner) : Prop where
  keep : ∀ {f a p}, own f = .table a p → own' f = .table a p
  foreign : ∀ {f a p}, own f = .table a p → a ≠ r → m'.ram f = m.ram f
  only : ∀ {f a p}, own' f = .table a p → a ≠ r → own f = .table a p

theorem Ext.refl (r : Nat) (m : Machine) (own : Nat → Owner) : Ext r m m own own :=
  ⟨id, fun _ _ => rfl, fun h _ => h⟩

theorem Ext.trans {r : Nat} {m₁ m₂ m₃ : Machine} {o₁ o₂ o₃ : Nat → Owner}
    (h : Ext r m₁ m₂ o₁ o₂) (h' : Ext r m₂ m₃ o₂ o₃) : Ext r m₁ m₃ o₁ o₃ where
  keep hf := h'.keep (h.keep hf)
  foreign hf ha := (h'.foreign (h.keep hf) ha).trans (h.foreign hf ha)
  only hf ha := h.only (h'.only hf ha) ha

section store

@[simp] theorem store_pmm (m : Machine) (f i w : Nat) : (m.store f i w).pmm = m.pmm := rfl

@[simp] theorem fill_pmm (m : Machine) (f : Nat) (ws : Nat → Nat) : (m.fill f ws).pmm = m.pmm := rfl

theorem store_same (m : Machine) (f i w : Nat) : (m.store f i w).ram f i = w := by
  simp [Machine.store]

theorem store_index (m : Machine) {f i j : Nat} (w : Nat) (h : j ≠ i) :
    (m.store f i w).ram f j = m.ram f j := by
  simp [Machine.store, h]

theorem store_frame (m : Machine) {f g : Nat} (i w : Nat) (h : g ≠ f) :
    (m.store f i w).ram g = m.ram g := by
  simp [Machine.store, h]

theorem fill_same (m : Machine) (f : Nat) (ws : Nat → Nat) : (m.fill f ws).ram f = ws := by
  simp [Machine.fill]

theorem fill_frame (m : Machine) {f g : Nat} (ws : Nat → Nat) (h : g ≠ f) :
    (m.fill f ws).ram g = m.ram g := by
  simp [Machine.fill, h]

@[simp] theorem freePage_ram (m : Machine) (f : Nat) : (m.freePage f).ram = m.ram := rfl

theorem freePage_used (m : Machine) (f g : Nat) :
    (m.freePage f).pmm.bitmap g = if g = f then false else m.pmm.bitmap g := by
  rw [Machine.freePage, freePage_bitmap, Nat.mul_div_cancel _ (by norm_num)]

end store

variable {Z : Prop} {k : Nat} {fb : Framebuffer} {m : Machine} {own : Nat → Owner}

theorem Owned.table_inj (h : Owned Z k fb m own) {p : List Nat} :
    ∀ {f g a}, own f = .table a p → own g = .table a p → f = g := by
  induction p with
  | nil => intro f g a hf hg; rw [h.root hf, h.root hg]
  | cons i p ih =>
    intro f g a hf hg
    obtain ⟨f', hf', -, hff⟩ := h.parent hf
    obtain ⟨g', hg', -, hgg⟩ := h.parent hg
    rw [← hff, ← hgg, ih hf' hg']

theorem Owned.table_root (h : Owned Z k fb m own) {p : List Nat} :
    ∀ {f a}, own f = .table a p → own a = .table a [] := by
  induction p with
  | nil =>
    intro f a hf
    have he := h.root hf
    rwa [he] at hf
  | cons i p ih =>
    intro f a hf
    obtain ⟨g, hg, -, -⟩ := h.parent hf
    exact ih hg

theorem Owned.ne_zero (h : Owned Z k fb m own) {f : Nat} (hf : own f ≠ .none) : f ≠ 0 := by
  intro h0
  rw [h0] at hf
  exact hf h.zero

/-- Only the words of table frames and the bits of owned frames matter. -/
theorem Owned.congr (h : Owned Z k fb m own) {m' : Machine}
    (hc : m'.pmm.lastPage ≤ totalPagesMax)
    (hb : ∀ f, own f ≠ .none → m'.pmm.bitmap f = true)
    (hr : ∀ f a p, own f = .table a p → m'.ram f = m.ram f) : Owned Z k fb m' own where
  cursor := hc
  used {f} hf := hb f hf
  zero := h.zero
  kernelRoot := h.kernelRoot
  root := h.root
  depth := h.depth
  parent {f a i p} hf := by
    obtain ⟨g, hg, hp, he⟩ := h.parent hf
    exact ⟨g, hg, by rwa [hr g _ _ hg], by rwa [hr g _ _ hg]⟩
  child {g a p i} hg := by
    rw [hr g _ _ hg]
    exact h.child hg
  leaf {g a p i} hg := by
    rw [hr g _ _ hg]
    exact h.leaf hg
  raised {g p i j} hg hp := by
    rw [hr g _ _ hg]
    intro h1
    have hcase := h.child hg (by omega) h1
    have hsub : m'.ram (frameOf (m.ram g i)) = m.ram (frameOf (m.ram g i)) := by
      cases hcase with
      | inl ht => exact hr _ _ _ ht
      | inr ht => exact hr _ _ _ ht.2.2
    rw [hsub]
    exact h.raised hg hp h1
  copied {g a f i} ha hg hf := by
    rw [hr g _ _ hg, hr f _ _ hf]
    exact h.copied ha hg hf
  low {a} ha hroot := by
    rw [hr a _ _ hroot]
    exact h.low ha hroot
  kernelLow := by
    rw [hr k _ _ h.kernelRoot]
    exact h.kernelLow

theorem Machine.allocPage_cases (m : Machine) (hc : m.pmm.lastPage ≤ totalPagesMax) :
    (∃ f, f ≠ 0 ∧ f < totalPagesMax ∧ m.pmm.bitmap f = false ∧
      m.allocPage = (f, Machine.fill ⟨m.pmm.take f, m.ram⟩ f fun _ => 0)) ∨
    (∃ s : Pmm, s.lastPage ≤ totalPagesMax ∧
      (∀ f, m.pmm.bitmap f = true → s.bitmap f = true) ∧ m.allocPage = (0, ⟨s, m.ram⟩)) := by
  unfold Machine.allocPage
  cases Mm.allocPage_cases m.pmm hc with
  | inl h =>
    obtain ⟨f, hb, hf, he⟩ := h
    simp only [he]
    by_cases h0 : f * pageSize = 0
    · refine Or.inr ⟨m.pmm.take f, hf, fun g hg => ?_, by rw [if_pos h0]⟩
      rw [take_bitmap, hg]
      split_ifs <;> rfl
    · rw [if_neg h0]
      by_cases hlim : identityMapLimit ≤ f * pageSize
      · refine Or.inr ⟨(m.pmm.take f).freePage (f * pageSize), ?_, fun g hg => ?_, by rw [if_pos hlim]⟩
        · exact (freePage_lastPage _ _).trans hf
        · have hne : g ≠ f := by
            intro hgf
            rw [hgf, hb] at hg
            exact Bool.noConfusion hg
          rw [freePage_bitmap, Nat.mul_div_cancel _ (by norm_num), if_neg hne, take_bitmap,
            if_neg hne, hg]
      · refine Or.inl ⟨f, ?_, hf, hb, ?_⟩
        · intro hz
          rw [hz] at h0
          exact h0 rfl
        · rw [if_neg hlim, Nat.mul_div_cancel _ (by norm_num)]
  | inr h =>
    simp only [h.1]
    exact Or.inr ⟨m.pmm, hc, fun _ => id, rfl⟩

structure Fresh (m : Machine) (own : Nat → Owner) (f : Nat) : Prop where
  ne_zero : f ≠ 0
  unowned : own f = .none
  used : m.pmm.bitmap f = true

theorem Fresh.no_table {f : Nat} (h : Fresh m own f) (a : Nat) (p : List Nat) :
    own f ≠ .table a p := by
  rw [h.unowned]
  exact Owner.noConfusion

/-- `alloc_page` under the invariant: frames in use keep their contents. -/
theorem Owned.allocPage (h : Owned Z k fb m own) :
    ∃ f m', m.allocPage = (f, m') ∧ Owned Z k fb m' own ∧
      (∀ g, m.pmm.bitmap g = true → m'.ram g = m.ram g ∧ m'.pmm.bitmap g = true) ∧
      (f ≠ 0 → Fresh m' own f ∧ m.pmm.bitmap f = false ∧ m'.ram f = fun _ => 0) := by
  cases m.allocPage_cases h.cursor with
  | inl hpage =>
    obtain ⟨f, h0, hf, hb, he⟩ := hpage
    have hnone : own f = .none := by
      by_contra hne
      rw [h.used hne] at hb
      exact Bool.noConfusion hb
    have hkept : ∀ g, m.pmm.bitmap g = true →
        (Machine.fill ⟨m.pmm.take f, m.ram⟩ f fun _ => 0).ram g = m.ram g ∧
        (m.pmm.take f).bitmap g = true := by
      intro g hg
      have hgf : g ≠ f := by
        intro he
        rw [he, hb] at hg
        exact Bool.noConfusion hg
      refine ⟨fill_frame _ _ hgf, ?_⟩
      rw [take_bitmap, if_neg hgf, hg]
    refine ⟨f, _, he, ?_, hkept, fun _ => ⟨⟨h0, hnone, ?_⟩, hb, fill_same _ _ _⟩⟩
    · exact h.congr hf (fun g hg => (hkept g (h.used hg)).2)
        fun g a p hg => (hkept g (h.used (by simp [hg]))).1
    · simp
  | inr hnull =>
    obtain ⟨s, hs, hbit, he⟩ := hnull
    refine ⟨0, _, he, ?_, fun g hg => ⟨rfl, hbit g hg⟩, fun h0 => absurd rfl h0⟩
    exact h.congr hs (fun g hg => hbit g (h.used hg)) fun _ _ _ _ => rfl

theorem Ext.of_used {r : Nat} {m' : Machine} (h : Owned Z k fb m own)
    (hr : ∀ g, m.pmm.bitmap g = true → m'.ram g = m.ram g ∧ m'.pmm.bitmap g = true) :
    Ext r m m' own own :=
  ⟨id, fun hf _ => (hr _ (h.used (by simp [hf]))).1, fun hf _ => hf⟩

theorem Ext.of_store {g r i w : Nat} {p : List Nat} (hg : own g = .table r p) :
    Ext r m (m.store g i w) own own := by
  refine ⟨id, fun {f a q} hf ha => ?_, fun hf _ => hf⟩
  refine store_frame _ _ _ fun hfg => ?_
  rw [hfg, hg] at hf
  cases hf
  exact ha rfl

theorem Ext.of_update {r f : Nat} {o : Owner} (hf : own f = .none)
    (ho : ∀ a q, o = .table a q → a = r) : Ext r m m own (Function.update own f o) := by
  have hne : ∀ {x a q}, own x = .table a q → x ≠ f := by
    intro x a q hx he
    rw [he, hf] at hx
    exact Owner.noConfusion hx
  refine ⟨fun hx => by simp [hne hx, hx], fun _ _ => rfl, fun {x a q} hx ha => ?_⟩
  by_cases hxf : x = f
  · rw [hxf, Function.update_self] at hx
    exact absurd (ho a q hx) ha
  · rwa [Function.update_of_ne hxf] at hx

/-- A word of an upper table keeps its frame, stays present and loses no flag. -/
theorem Owned.reflag (h : Owned Z k fb m own) {g r i w : Nat} {p : List Nat}
    (hg : own g = .table r p) (hp : p.length < 3) (hold : present (m.ram g i) = true)
    (hw : present w = true) (hf : frameOf w = frameOf (m.ram g i))
    (hraise : m.ram g i ||| 7 = m.ram g i → w ||| 7 = w) :
    Owned Z k fb (m.store g i w) own := by
  have hword : ∀ x j, present ((m.store g i w).ram x j) = present (m.ram x j) ∧
      frameOf ((m.store g i w).ram x j) = frameOf (m.ram x j) ∧
      (m.ram x j ||| 7 = m.ram x j →
        (m.store g i w).ram x j ||| 7 = (m.store g i w).ram x j) := by
    intro x j
    by_cases hx : x = g
    · subst hx
      by_cases hj : j = i
      · subst hj
        rw [store_same, hw, hold, hf]
        exact ⟨rfl, rfl, hraise⟩
      · rw [store_index _ _ hj]
        exact ⟨rfl, rfl, id⟩
    · rw [store_frame _ _ _ hx]
      exact ⟨rfl, rfl, id⟩
  -- the lowest tables are not touched
  have hpt : ∀ x a q, own x = .table a q → q.length = 3 → (m.store g i w).ram x = m.ram x := by
    intro x a q hx hq
    refine store_frame _ _ _ fun hxg => ?_
    rw [hxg, hg] at hx
    cases hx
    omega
  refine ⟨h.cursor, h.used, h.zero, h.kernelRoot, h.root, h.depth, ?_, ?_, ?_, ?_, ?_, ?_, ?_⟩
  · intro f a j q hf
    obtain ⟨x, hx, hpx, hfx⟩ := h.parent hf
    exact ⟨x, hx, (hword x j).1.trans hpx, (hword x j).2.1.trans hfx⟩
  · intro x a q j hx hq hpx
    rw [(hword x j).2.1]
    rw [(hword x j).1] at hpx
    exact h.child hx hq hpx
  · intro x a q j hx hq
    rw [hpt x a q hx hq]
    exact h.leaf hx hq
  · intro x q j l hx hq hpx
    rw [(hword x j).1] at hpx
    rw [(hword x j).2.1]
    have hsub : (m.store g i w).ram (frameOf (m.ram x j)) = m.ram (frameOf (m.ram x j)) := by
      cases h.child hx (by omega) hpx with
      | inl ht => exact hpt _ _ _ ht (by simp [hq])
      | inr ht => exact absurd rfl ht.1
    rw [hsub]
    intro hpl hul
    exact (hword x j).2.2 (h.raised hx hq hpx hpl hul)
  · intro x a y j ha hx hy
    rw [(hword x j).1, (hword x j).2.1, (hword y j).1, (hword y j).2.1]
    exact h.copied ha hx hy
  · intro a ha hroot
    rw [(hword a 0).1]
    exact h.low ha hroot
  · rw [(hword k 0).1, (hword k 0).2.1]
    exact h.kernelLow

section attaching

variable {g r i w f x j : Nat} {p : List Nat} {o : Owner}

structure Attaches (m : Machine) (own : Nat → Owner) (g r i w f : Nat) (p : List Nat) : Prop where
  table : own g = .table r p
  upper : p.length < 3
  free : present (m.ram g i) = false
  fresh : Fresh m own f
  zeroed : m.ram f = fun _ => 0
  present : present w = true
  frame : frameOf w = f

/-- An owner in the new state is the new table or an old owner. -/
theorem Attaches.owner_cases (hx : Function.update own f (.table r (i :: p)) x = o) :
    (x = f ∧ o = .table r (i :: p)) ∨ (x ≠ f ∧ own x = o) := by
  by_cases he : x = f
  · rw [he, Function.update_self] at hx
    exact Or.inl ⟨he, hx.symm⟩
  · rw [Function.update_of_ne he] at hx
    exact Or.inr ⟨he, hx⟩

theorem Attaches.keep (ha : Attaches m own g r i w f p) (ho : o ≠ .none) (hx : own x = o) :
    Function.update own f (.table r (i :: p)) x = o := by
  rw [Function.update_of_ne, hx]
  intro he
  rw [he, ha.fresh.unowned] at hx
  exact ho hx.symm

theorem Attaches.word_cases (m : Machine) (g i w x j : Nat) :
    (x = g ∧ j = i) ∨ (m.store g i w).ram x j = m.ram x j := by
  by_cases hx : x = g
  · subst hx
    by_cases hj : j = i
    · exact Or.inl ⟨rfl, hj⟩
    · exact Or.inr (store_index _ _ hj)
  · exact Or.inr (by rw [store_frame _ _ _ hx])

theorem Attaches.empty (ha : Attaches m own g r i w f p) :
    Mm.present ((m.store g i w).ram f j) = false := by
  have hne : f ≠ g := by
    intro he
    have hg := ha.table
    rw [← he, ha.fresh.unowned] at hg
    exact Owner.noConfusion hg
  rw [store_frame _ _ _ hne, ha.zeroed]
  exact Nat.zero_testBit 0

theorem Attaches.not_here (ha : Attaches m own g r i w f p)
    (hj : Mm.present (m.ram g j) = true) : j ≠ i := by
  intro he
  rw [he, ha.free] at hj
  exact Bool.noConfusion hj

/-- The words of an old table that are present in the new state, apart from the new one. -/
theorem Attaches.old_word (ha : Attaches m own g r i w f p) {a : Nat} {q : List Nat}
    (hx : Function.update own f (.table r (i :: p)) x = .table a q)
    (hpx : Mm.present ((m.store g i w).ram x j) = true) : own x = .table a q ∧
      ((x = g ∧ j = i) ∨ (m.store g i w).ram x j = m.ram x j ∧ Mm.present (m.ram x j) = true) := by
  cases owner_cases hx with
  | inl hn =>
    rw [hn.1, ha.empty] at hpx
    exact Bool.noConfusion hpx
  | inr ho =>
    refine ⟨ho.2, (word_cases m g i w x j).imp_right fun he => ⟨he, ?_⟩⟩
    rw [← he]
    exact hpx

theorem Attaches.parent (ha : Attaches m own g r i w f p) (h : Owned Z k fb m own) {a : Nat}
    {q : List Nat} (hx : Function.update own f (.table r (i :: p)) x = .table a (j :: q)) :
    ∃ y, Function.update own f (.table r (i :: p)) y = .table a q ∧
      Mm.present ((m.store g i w).ram y j) = true ∧ frameOf ((m.store g i w).ram y j) = x := by
  cases owner_cases hx with
  | inl hn =>
    cases hn.2
    refine ⟨g, ha.keep (by simp) ha.table, ?_, ?_⟩
    · rw [store_same]
      exact ha.present
    · rw [store_same, ha.frame, hn.1]
  | inr ho =>
    obtain ⟨y, hy, hpy, hfy⟩ := h.parent ho.2
    refine ⟨y, ha.keep (by simp) hy, ?_⟩
    cases word_cases m g i w y j with
    | inl hgi =>
      rw [hgi.1] at hpy
      exact absurd hgi.2 (ha.not_here hpy)
    | inr he =>
      rw [he]
      exact ⟨hpy, hfy⟩

theorem Attaches.child (ha : Attaches m own g r i w f p) (h : Owned Z k fb m own) {a : Nat}
    {q : List Nat} (hx : Function.update own f (.table r (i :: p)) x = .table a q)
    (hq : q.length < 3) (hpx : Mm.present ((m.store g i w).ram x j) = true) :
    Function.update own f (.table r (i :: p)) (frameOf ((m.store g i w).ram x j)) =
        .table a (j :: q) ∨
      a ≠ k ∧ SharedAt q j ∧
        Function.update own f (.table r (i :: p)) (frameOf ((m.store g i w).ram x j)) =
          .table k (j :: q) := by
  obtain ⟨ho, hgi | ⟨he, hold⟩⟩ := ha.old_word hx hpx
  · rw [hgi.1, ha.table] at ho
    cases ho
    rw [hgi.1, hgi.2, store_same, ha.frame]
    exact Or.inl (Function.update_self ..)
  · rw [he]
    cases h.child ho hq hold with
    | inl hc => exact Or.inl (ha.keep (by simp) hc)
    | inr hc => exact Or.inr ⟨hc.1, hc.2.1, ha.keep (by simp) hc.2.2⟩

theorem Attaches.leaf (ha : Attaches m own g r i w f p) (h : Owned Z k fb m own) {a : Nat}
    {q : List Nat} (hx : Function.update own f (.table r (i :: p)) x = .table a q)
    (hq : q.length = 3) (hpx : Mm.present ((m.store g i w).ram x j) = true)
    (hux : user ((m.store g i w).ram x j) = true) :
    IsFb fb (frameOf ((m.store g i w).ram x j)) ∨
      a ≠ k ∧ (Z ∧ frameOf ((m.store g i w).ram x j) = 0 ∨
        Function.update own f (.table r (i :: p)) (frameOf ((m.store g i w).ram x j)) =
          .leaf a (j :: q)) := by
  obtain ⟨ho, hgi | ⟨he, hold⟩⟩ := ha.old_word hx hpx
  · have hp := ha.upper
    rw [hgi.1, ha.table] at ho
    cases ho
    omega
  · rw [he] at hux ⊢
    cases h.leaf ho hq hold hux with
    | inl hc => exact Or.inl hc
    | inr hc => exact Or.inr ⟨hc.1, hc.2.imp_right (ha.keep (by simp))⟩

theorem Attaches.raised (ha : Attaches m own g r i w f p) (h : Owned Z k fb m own) {l : Nat}
    {q : List Nat} (hx : Function.update own f (.table r (i :: p)) x = .table k q)
    (hq : q.length = 2) (hpx : Mm.present ((m.store g i w).ram x j) = true)
    (hpl : Mm.present ((m.store g i w).ram (frameOf ((m.store g i w).ram x j)) l) = true)
    (hul : user ((m.store g i w).ram (frameOf ((m.store g i w).ram x j)) l) = true) :
    (m.store g i w).ram x j ||| 7 = (m.store g i w).ram x j := by
  obtain ⟨ho, hgi | ⟨he, hold⟩⟩ := ha.old_word hx hpx
  · rw [hgi.1, hgi.2, store_same, ha.frame, ha.empty] at hpl
    exact Bool.noConfusion hpl
  · rw [he] at hpl hul ⊢
    have hpt : own (frameOf (m.ram x j)) = .table k (j :: q) := by
      cases h.child ho (by omega) hold with
      | inl hc => exact hc
      | inr hc => exact absurd rfl hc.1
    cases word_cases m g i w (frameOf (m.ram x j)) l with
    | inl hgi =>
      -- the new word is in an upper table, this one in a lowest
      have hp := ha.upper
      rw [hgi.1, ha.table] at hpt
      cases hpt
      simp only [List.length_cons] at hp
      omega
    | inr hs =>
      rw [hs] at hpl hul
      exact h.raised ho hq hold hpl hul

theorem Attaches.copied (ha : Attaches m own g r i w f p) (h : Owned Z k fb m own)
    (hlow : r ≠ k → i :: p ≠ [0]) (halone : r = k → Alone k own) {a y : Nat} (hak : a ≠ k)
    (hx : Function.update own f (.table r (i :: p)) x = .table a [0])
    (hy : Function.update own f (.table r (i :: p)) y = .table k [0]) (hj : j < 512)
    (hpy : Mm.present ((m.store g i w).ram y j) = true) :
    Mm.present ((m.store g i w).ram x j) = true ∧
      frameOf ((m.store g i w).ram x j) = frameOf ((m.store g i w).ram y j) := by
  obtain ⟨hoy, hy⟩ := ha.old_word hy hpy
  cases owner_cases hx with
  | inl hn =>
    cases hn.2
    exact absurd rfl (hlow hak)
  | inr hox =>
    have hrk : r ≠ k := fun hrk => hak (halone hrk _ _ _ hox.2)
    obtain hgi | ⟨he, hold⟩ := hy
    · rw [hgi.1, ha.table] at hoy
      cases hoy
      exact absurd rfl hrk
    · rw [he]
      have hc := h.copied hak hox.2 hoy hj hold
      cases word_cases m g i w x j with
      | inl hgi =>
        rw [hgi.1] at hc
        exact absurd hgi.2 (ha.not_here hc.1)
      | inr hex =>
        rw [hex]
        exact hc

/-- A fresh zeroed page becomes a table of the space. While the kernel's own tables grow there
is no other space yet. -/
theorem Owned.attach (h : Owned Z k fb m own) (hg : own g = .table r p) (hp : p.length < 3)
    (hlow : r ≠ k → i :: p ≠ [0]) (halone : r = k → Alone k own)
    (hold : present (m.ram g i) = false) (hf : Fresh m own f) (hz : m.ram f = fun _ => 0)
    (hw : present w = true) (hwf : frameOf w = f) :
    Owned Z k fb (m.store g i w) (Function.update own f (.table r (i :: p))) := by
  have ha : Attaches m own g r i w f p := ⟨hg, hp, hold, hf, hz, hw, hwf⟩
  refine ⟨h.cursor, fun {x} hx => ?_, ?_, ha.keep (by simp) h.kernelRoot, fun {x a} hx => ?_,
    fun {x a q} hx => ?_, ha.parent h, ha.child h, ha.leaf h, ha.raised h,
    ha.copied h hlow halone, fun {a} hak hx => ?_, fun hpk => ?_⟩
  · by_cases he : x = f
    · rw [he]
      exact hf.used
    · rw [Function.update_of_ne he] at hx
      exact h.used hx
  · rw [Function.update_of_ne hf.ne_zero.symm]
    exact h.zero
  · cases Attaches.owner_cases hx with
    | inl hn => exact absurd hn.2 (by simp)
    | inr ho => exact h.root ho.2
  · cases Attaches.owner_cases hx with
    | inl hn =>
      cases hn.2
      exact hp
    | inr ho => exact h.depth ho.2
  · cases Attaches.owner_cases hx with
    | inl hn => exact absurd hn.2 (by simp)
    | inr ho =>
      cases Attaches.word_cases m g i w a 0 with
      | inl hgi =>
        rw [hgi.1, hgi.2, store_same]
        exact hw
      | inr he =>
        rw [he]
        exact h.low hak ho.2
  · cases Attaches.word_cases m g i w k 0 with
    | inl hgi =>
      rw [hgi.1, hgi.2, store_same, hw] at hpk
      exact Bool.noConfusion hpk
    | inr he =>
      rw [he] at hpk ⊢
      exact h.kernelLow hpk

end attaching

/-- A word of a lowest table changes and pages change hands; tables keep their owners. -/
theorem Owned.setLeaf (h : Owned Z k fb m own) {m' : Machine} {own' : Nat → Owner}
    {g r i w : Nat} {p : List Nat} (hg : own g = .table r p) (hp : p.length = 3)
    (hram : m'.ram = (m.store g i w).ram) (hc : m'.pmm.lastPage ≤ totalPagesMax)
    (htab : ∀ x a q, own' x = .table a q ↔ own x = .table a q) (hzero : own' 0 = .none)
    (hused : ∀ x, own' x ≠ .none → m'.pmm.bitmap x = true)
    (hleaf : ∀ x a q j, ¬ (x = g ∧ j = i) → own x = .table a q →
      own (frameOf (m.ram x j)) = .leaf a (j :: q) → own' (frameOf (m.ram x j)) = .leaf a (j :: q))
    (hw : present w = true → user w = true → IsFb fb (frameOf w) ∨
      r ≠ k ∧ (Z ∧ frameOf w = 0 ∨ own' (frameOf w) = .leaf r (i :: p)))
    (hup : r = k → present w = true → user w = true → ∀ x j q, own x = .table k q →
      q.length = 2 → present (m.ram x j) = true → frameOf (m.ram x j) = g →
      m.ram x j ||| 7 = m.ram x j) :
    Owned Z k fb m' own' := by
  have hupper : ∀ x a q, own x = .table a q → q.length ≠ 3 → m'.ram x = m.ram x := by
    intro x a q hx hq
    rw [hram]
    refine store_frame _ _ _ fun hxg => ?_
    rw [hxg, hg] at hx
    cases hx
    exact hq hp
  have hword : ∀ x j, ¬ (x = g ∧ j = i) → m'.ram x j = m.ram x j := by
    intro x j hne
    rw [hram]
    by_cases hx : x = g
    · subst hx
      exact store_index _ _ fun hj => hne ⟨rfl, hj⟩
    · rw [store_frame _ _ _ hx]
  have hnew : m'.ram g i = w := by rw [hram, store_same]
  refine ⟨hc, fun {x} hx => hused x hx, hzero, (htab _ _ _).mpr h.kernelRoot,
    fun hx => h.root ((htab _ _ _).mp hx), fun hx => h.depth ((htab _ _ _).mp hx),
    ?_, ?_, ?_, ?_, ?_, ?_, ?_⟩
  · intro x a j q hx
    have hx' := (htab _ _ _).mp hx
    obtain ⟨y, hy, hpy, hfy⟩ := h.parent hx'
    have hd := h.depth hx'
    refine ⟨y, (htab _ _ _).mpr hy, ?_⟩
    rw [hupper y a q hy (by simp only [List.length_cons] at hd; omega)]
    exact ⟨hpy, hfy⟩
  · intro x a q j hx hq
    have hx' := (htab _ _ _).mp hx
    rw [hupper x a q hx' (by omega)]
    intro hpx
    cases h.child hx' hq hpx with
    | inl hc => exact Or.inl ((htab _ _ _).mpr hc)
    | inr hc => exact Or.inr ⟨hc.1, hc.2.1, (htab _ _ _).mpr hc.2.2⟩
  · intro x a q j hx hq hpx hux
    have hx' := (htab _ _ _).mp hx
    by_cases hgi : x = g ∧ j = i
    · rw [hgi.1, hg] at hx'
      cases hx'
      rw [hgi.1, hgi.2, hnew] at hpx hux ⊢
      exact hw hpx hux
    · rw [hword x j hgi] at hpx hux ⊢
      cases h.leaf hx' hq hpx hux with
      | inl hc => exact Or.inl hc
      | inr hc =>
        refine Or.inr ⟨hc.1, ?_⟩
        cases hc.2 with
        | inl hz => exact Or.inl hz
        | inr hl => exact Or.inr (hleaf x a q j hgi hx' hl)
  · intro x q j l hx hq hpx hpl hul
    have hx' := (htab _ _ _).mp hx
    rw [hupper x k q hx' (by omega)] at hpx hpl hul ⊢
    by_cases hgi : frameOf (m.ram x j) = g ∧ l = i
    · rw [hgi.1, hgi.2, hnew] at hpl hul
      have hrk : r = k := by
        cases h.child hx' (by omega) hpx with
        | inl hc =>
          rw [hgi.1, hg] at hc
          cases hc
          rfl
        | inr hc => exact absurd rfl hc.1
      exact hup hrk hpl hul x j q hx' hq hpx hgi.1
    · rw [hword _ l hgi] at hpl hul
      exact h.raised hx' hq hpx hpl hul
  · intro x a y j ha hx hy
    have hx' := (htab _ _ _).mp hx
    have hy' := (htab _ _ _).mp hy
    rw [hupper x a _ hx' (by simp), hupper y k _ hy' (by simp)]
    exact h.copied ha hx' hy'
  · intro a ha hx
    have hx' := (htab _ _ _).mp hx
    rw [hupper a a _ hx' (by simp)]
    exact h.low ha hx'
  · rw [hupper k k _ h.kernelRoot (by simp)]
    exact h.kernelLow

theorem Owned.mapLeaf (h : Owned Z k fb m own) {g r i w f : Nat} {p : List Nat} (hr : r ≠ k)
    (hg : own g = .table r p) (hp : p.length = 3) (hf : Fresh m own f) (hw : frameOf w = f) :
    Owned Z k fb (m.store g i w) (Function.update own f (.leaf r (i :: p))) := by
  have hne : ∀ {x o}, own x = o → o ≠ .none → x ≠ f := by
    intro x o hx ho he
    rw [he, hf.unowned] at hx
    exact ho hx.symm
  refine h.setLeaf hg hp rfl h.cursor ?_ ?_ ?_ ?_ ?_ fun hrk => absurd hrk hr
  · intro x a q
    by_cases hx : x = f
    · subst hx
      simp [hf.unowned]
    · simp [hx]
  · simp [hf.ne_zero.symm, h.zero]
  · intro x hx
    by_cases he : x = f
    · rw [he]
      exact hf.used
    · exact h.used (by simpa [he] using hx)
  · intro x a q j _ _ hl
    simp [hne hl (by simp), hl]
  · intro _ _
    exact Or.inr ⟨hr, Or.inr (by simp [hw])⟩

/-- A page that needs no owner is mapped: framebuffer memory, or frame 0 where that is allowed. -/
theorem Owned.mapShared (h : Owned Z k fb m own) {g r i w : Nat} {p : List Nat}
    (hg : own g = .table r p) (hp : p.length = 3)
    (hw : user w = true → IsFb fb (frameOf w) ∨ r ≠ k ∧ Z ∧ frameOf w = 0)
    (hup : r = k → user w = true → ∀ x j q, own x = .table k q → q.length = 2 →
      present (m.ram x j) = true → frameOf (m.ram x j) = g → m.ram x j ||| 7 = m.ram x j) :
    Owned Z k fb (m.store g i w) own := by
  refine h.setLeaf hg hp rfl h.cursor (fun _ _ _ => Iff.rfl) h.zero (fun x hx => h.used hx)
    (fun _ _ _ _ _ _ hl => hl) ?_ fun hrk _ huw => hup hrk huw
  intro _ huw
  cases hw huw with
  | inl hfb => exact Or.inl hfb
  | inr hz => exact Or.inr ⟨hz.1, Or.inl hz.2⟩

theorem Owned.unmapLeaf (h : Owned Z k fb m own) {g r i : Nat} {p : List Nat} (hr : r ≠ k)
    (hg : own g = .table r p) (hp : p.length = 3) (hpr : present (m.ram g i) = true)
    (hus : user (m.ram g i) = true) (hfb : ¬ IsFb fb (frameOf (m.ram g i))) :
    Owned Z k fb ((m.freePage (frameOf (m.ram g i))).store g i 0)
      (Function.update own (frameOf (m.ram g i)) .none) := by
  have howner : own (frameOf (m.ram g i)) = .none ∨
      own (frameOf (m.ram g i)) = .leaf r (i :: p) := by
    cases h.leaf hg hp hpr hus with
    | inl hc => exact absurd hc hfb
    | inr hc =>
      cases hc.2 with
      | inl hz =>
        rw [hz.2]
        exact Or.inl h.zero
      | inr hl => exact Or.inr hl
  generalize frameOf (m.ram g i) = f at howner
  refine h.setLeaf hg hp rfl ((freePage_lastPage _ _).trans h.cursor) ?_ ?_ ?_ ?_ ?_ ?_
  · intro x a q
    by_cases hx : x = f
    · subst hx
      cases howner with
      | inl ho => simp [ho]
      | inr ho => simp [ho]
    · simp [hx]
  · by_cases h0 : 0 = f
    · simp [h0]
    · simp [h0, h.zero]
  · intro x hx
    have hxf : x ≠ f := by
      intro he
      simp [he] at hx
    rw [store_pmm, freePage_used, if_neg hxf]
    exact h.used (by simpa [hxf] using hx)
  · intro x a q j hne hx hl
    have hxf : frameOf (m.ram x j) ≠ f := by
      intro he
      rw [he] at hl
      cases howner with
      | inl ho =>
        rw [ho] at hl
        exact Owner.noConfusion hl
      | inr ho =>
        -- the page has one virtual address, and that address one table
        rw [ho] at hl
        cases hl
        exact hne ⟨h.table_inj hx hg, rfl⟩
    simp [hxf, hl]
  · intro hp0
    exact Bool.noConfusion hp0
  · intro hrk
    exact absurd hrk hr

end LosTacOS.Mm
