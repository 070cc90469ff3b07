import Mathlib
import LosTacOS.Mm.Isolation
import LosTacOS.Mm.Stack

/-! What `clone_user_pages` makes of the pages of a space: the four nested loops as one pass over
the leaves that the source has, and the destination after each of them. -/
namespace LosTacOS.Mm

variable {Z : Prop} {k : Nat} {fb : Framebuffer} {m : Machine} {own : Nat → Owner}

section sets

/-- A step that changes of the pages of space `r` at most the entries at `c`. -/
structure Sets (r : Nat) (c : List Nat → Nat → Prop) (m m' : Machine) (own own' : Nat → Owner) :
    Prop where
  stands : ∀ {x}, Standing m x → Standing m' x
  owner : ∀ {x}, own x ≠ .none → own' x = own x
  table : ∀ {x q}, Standing m x → own' x = .table r q → own x = .table r q
  keep : ∀ {x}, Standing m x → (∀ q, own x ≠ .table r q) → m'.ram x = m.ram x
  same : ∀ {t p i}, own t = .table r p → p.length = 3 → ¬ c p i → m'.ram t i = m.ram t i
  old : ∀ {t p i}, own' t = .table r p → p.length = 3 → ¬ c p i → present (m'.ram t i) = true →
    own t = .table r p

theorem Sets.refl (r : Nat) (m : Machine) (own : Nat → Owner) :
    Sets r (fun _ _ => False) m m own own :=
  ⟨id, fun _ => rfl, fun _ hq => hq, fun _ _ => rfl, fun _ _ _ => rfl, fun ht _ _ _ => ht⟩

/-- Nothing is set, and then the entries at `c` are. -/
theorem Sets.trans {r : Nat} {c : List Nat → Nat → Prop} {m₁ m₂ : Machine} {o₁ o₂ : Nat → Owner}
    (h : Sets r (fun _ _ => False) m m₁ own o₁) (h' : Sets r c m₁ m₂ o₁ o₂) :
    Sets r c m m₂ own o₂ where
  stands hx := h'.stands (h.stands hx)
  owner hx := (h'.owner (by rw [h.owner hx]; exact hx)).trans (h.owner hx)
  table hx hq := h.table hx (h'.table (h.stands hx) hq)
  keep hx hq := by
    rw [h'.keep (h.stands hx) fun q hq' => hq q (h.table hx hq'), h.keep hx hq]
  same ht hp hc := by
    rw [h'.same ((h.owner (by simp [ht])).trans ht) hp hc, h.same ht hp id]
  old ht hp hc hpr := by
    have ht₁ := h'.old ht hp hc hpr
    rw [h'.same ht₁ hp hc] at hpr
    exact h.old ht₁ hp id hpr

theorem Sets.of_standing {r : Nat} {m' : Machine} (h : Owned Z k fb m own)
    (hr : ∀ x, Standing m x → m'.ram x = m.ram x ∧ Standing m' x) :
    Sets r (fun _ _ => False) m m' own own where
  stands hx := (hr _ hx).2
  owner _ := rfl
  table _ hq := hq
  keep hx _ := (hr _ hx).1
  same {t p i} ht _ _ := by rw [(hr t (h.standing (by simp [ht]))).1]
  old ht _ _ _ := ht

theorem Quiet.sets {r : Nat} {m' : Machine} {own' : Nat → Owner} (h : Owned Z k fb m own)
    (hq : Quiet r m m' own own') : Sets r (fun _ _ => False) m m' own own' where
  stands := hq.stands
  owner hx := hq.owner (h.standing hx)
  table hx ht := (hq.owner hx).symm.trans ht
  keep hx ht := hq.ram hx fun q hq' => absurd hq' (ht q)
  same {t p i} ht hp _ := by
    rw [hq.ram (h.standing (by simp [ht])) fun q hq' => by rw [ht] at hq'; cases hq'; exact hp]
  old {t p i} ht hp _ hpr := by
    by_cases ht' : Standing m t
    · exact (hq.owner ht').symm.trans ht
    · rw [hq.blank ht' ht hp i] at hpr
      exact Bool.noConfusion hpr

def At (va : Nat) (p : List Nat) (i : Nat) : Prop :=
  p = [pdIndex va, pdptIndex va, pml4Index va] ∧ i = ptIndex va

/-- `map_page` in a user space, with all it sets. -/
theorem Owned.mapPage_sets (h : Owned Z k fb m own) {r va f flags : Nat} (hr : r ≠ k)
    (hroot : own r = .table r []) (hv : m.vacant k va = true) (hfl : flags < 4096)
    (hmap : Mappable Z fb m own f) :
    (∃ m' own', m.mapPage r va f flags = (false, m') ∧ Owned Z k fb m' own' ∧
      Ext r m m' own own' ∧ Holds m m' own own' ∧ Sets r (fun _ _ => False) m m' own own') ∨
    ∃ m' own' t, m.mapPage r va f flags = (true, m') ∧ Owned Z k fb m' own' ∧
      Ext r m m' own own' ∧ Sets r (At va) m m' own own' ∧
      own' t = .table r [pdIndex va, pdptIndex va, pml4Index va] ∧
      m'.ram t (ptIndex va) = entry f flags ∧
      (Fresh m own f → m'.ram f = m.ram f ∧
        own' f = .leaf r [ptIndex va, pdIndex va, pdptIndex va, pml4Index va]) := by
  have hu : (if user flags = true then 7 else 3) = 3 ∨ (if user flags = true then 7 else 3) = 7 := by
    split_ifs <;> simp
  obtain ⟨m₁, o₁, h₁, e₁, hold, quiet, hres⟩ :=
    h.tableFor_quiet hroot ⟨fun hk => absurd hk hr, fun _ => hv⟩ hu
  cases hres with
  | inl hnone =>
    exact Or.inl ⟨m₁, o₁, by simp only [Machine.mapPage, hnone], h₁, e₁, hold, quiet.sets h⟩
  | inr hsome =>
    obtain ⟨pd, t, hd, -, ht, -, -, -⟩ := hsome
    have he : m.mapPage r va f flags = (true, m₁.store t (ptIndex va) (entry f flags)) := by
      simp only [Machine.mapPage, hd]
    -- the entry itself, in a space whose pages may have got another owner
    have hset : ∀ {o₂ : Nat → Owner}, (∀ {x}, o₁ x ≠ .none → o₂ x = o₁ x) →
        (∀ {x q}, o₂ x = .table r q → o₁ x = .table r q) →
        Sets r (At va) m₁ (m₁.store t (ptIndex va) (entry f flags)) o₁ o₂ := by
      intro o₂ howner htable
      have hword : ∀ {x p i}, o₁ x = .table r p → ¬ At va p i →
          (m₁.store t (ptIndex va) (entry f flags)).ram x i = m₁.ram x i := by
        intro x p i hx hc
        by_cases hxt : x = t
        · rw [hxt, ht] at hx
          cases hx
          rw [hxt]
          exact store_index _ _ fun hi => hc ⟨rfl, hi⟩
        · rw [store_frame _ _ _ hxt]
      refine ⟨id, howner, fun _ hq => htable hq, fun hx hq => store_frame _ _ _ fun he => hq _ (he ▸ ht),
        fun hx _ hc => hword hx hc, fun hx _ hc _ => htable hx⟩
    by_cases hf : Fresh m own f
    · have hf₁ := hold f hf
      have htf : t ≠ f := by
        intro he
        rw [he] at ht
        exact hf₁.no_table _ _ ht
      refine Or.inr ⟨_, _, t, he, h₁.mapLeaf hr ht rfl hf₁ (frameOf_entry hfl), ?_,
        (quiet.sets h).trans (hset ?_ ?_), ?_, store_same _ _ _ _, fun _ => ⟨?_, ?_⟩⟩
      · exact (e₁.trans (Ext.of_store ht)).trans (Ext.of_update hf₁.unowned (by simp))
      · intro x hx
        have hxf : x ≠ f := by
          intro he
          rw [he] at hx
          exact hx hf₁.unowned
        exact Function.update_of_ne hxf _ _
      · intro x q hx
        by_cases hxf : x = f
        · rw [hxf, Function.update_self] at hx
          exact Owner.noConfusion hx
        · rwa [Function.update_of_ne hxf] at hx
      · simp [htf, ht]
      · rw [store_frame _ _ _ htf.symm]
        exact quiet.ram (Or.inl hf.used) fun q hq => absurd hq (hf.no_table r q)
      · simp
    · refine Or.inr ⟨_, o₁, t, he, h₁.mapShared ht rfl (fun _ => ?_) fun hk => absurd hk hr,
        e₁.trans (Ext.of_store ht), (quiet.sets h).trans (hset (fun _ => rfl) id), ht,
        store_same _ _ _ _, fun hc => absurd hc hf⟩
      rw [frameOf_entry hfl]
      cases hmap with
      | inl hc => exact absurd hc hf
      | inr hc =>
        cases hc with
        | inl hfb => exact Or.inl hfb
        | inr hz => exact Or.inr ⟨hr, hz⟩

end sets

section leaves

structure Leaf where
  i4 : Nat
  i3 : Nat
  i2 : Nat
  i1 : Nat
  pt : Nat

def Leaf.va (x : Leaf) : Nat := vaOf x.i4 x.i3 x.i2 x.i1

def presentIn (ram : Ram) (table n : Nat) : List Nat :=
  (List.range n).filter fun i => present (ram table i)

def leaves (ram : Ram) (s : Nat) : List Leaf :=
  (presentIn ram s 256).flatMap fun i4 =>
    (presentIn ram (frameOf (ram s i4)) 512).flatMap fun i3 =>
      (presentIn ram (frameOf (ram (frameOf (ram s i4)) i3)) 512).flatMap fun i2 =>
        (presentIn ram (frameOf (ram (frameOf (ram (frameOf (ram s i4)) i3)) i2)) 512).map fun i1 =>
          ⟨i4, i3, i2, i1, frameOf (ram (frameOf (ram (frameOf (ram s i4)) i3)) i2)⟩

def Machine.eachOf {α : Type} (body : α → Machine → Bool × Machine) :
    List α → Machine → Bool × Machine
  | [], m => (true, m)
  | x :: xs, m =>
    match body x m with
    | (true, m) => eachOf body xs m
    | (false, m) => (false, m)

variable {α β : Type}

theorem eachOf_append (body : α → Machine → Bool × Machine) (xs ys : List α) (m : Machine) :
    Machine.eachOf body (xs ++ ys) m =
      match Machine.eachOf body xs m with
      | (true, m) => Machine.eachOf body ys m
      | (false, m) => (false, m) := by
  induction xs generalizing m with
  | nil => rfl
  | cons x xs ih =>
    rw [List.cons_append, Machine.eachOf, Machine.eachOf]
    cases body x m with
    | mk go m' =>
      cases go with
      | true => exact ih m'
      | false => rfl

theorem eachOf_flatMap (body : β → Machine → Bool × Machine) (g : α → List β) (xs : List α) :
    Machine.eachOf body (xs.flatMap g) =
      Machine.eachOf (fun x => Machine.eachOf body (g x)) xs := by
  induction xs with
  | nil => rfl
  | cons x xs ih =>
    funext m
    rw [List.flatMap_cons, eachOf_append, Machine.eachOf, ih]

theorem eachOf_map (body : β → Machine → Bool × Machine) (g : α → β) (xs : List α) :
    Machine.eachOf body (xs.map g) = Machine.eachOf (fun x => body (g x)) xs := by
  induction xs with
  | nil => rfl
  | cons x xs ih =>
    funext m
    rw [List.map_cons, Machine.eachOf, Machine.eachOf, ih]

theorem eachEntry_eq {I : Machine → Prop} {ram : Ram} {table : Nat}
    {body : Nat → Nat → Machine → Bool × Machine} {body' : Nat → Machine → Bool × Machine}
    {is : List Nat} (hram : ∀ m, I m → m.ram table = ram table)
    (hbody : ∀ i ∈ is, present (ram table i) = true → ∀ m, I m →
      body i (ram table i) m = body' i m ∧ I (body i (ram table i) m).2) :
    ∀ m, I m → Machine.eachEntry table body is m =
        Machine.eachOf body' (is.filter fun i => present (ram table i)) m ∧
      I (Machine.eachEntry table body is m).2 := by
  induction is with
  | nil => exact fun m hm => ⟨rfl, hm⟩
  | cons i is ih =>
    have ih' := ih fun j hj => hbody j (List.mem_cons_of_mem _ hj)
    intro m hm
    rw [Machine.eachEntry, hram m hm]
    cases hp : present (ram table i) with
    | true =>
      obtain ⟨he, hI⟩ := hbody i List.mem_cons_self hp m hm
      have hfilter : (i :: is).filter (fun i => present (ram table i)) =
          i :: is.filter fun i => present (ram table i) := List.filter_cons_of_pos hp
      rw [if_pos rfl, hfilter, Machine.eachOf, ← he]
      revert hI
      cases body i (ram table i) m with
      | mk go m' =>
        intro hI
        cases go with
        | true => exact ih' m' hI
        | false => exact ⟨rfl, hI⟩
    | false =>
      rw [if_neg (by simp), List.filter_cons_of_neg (by simp [hp])]
      exact ih' m hm

theorem mem_leaves {ram : Ram} {s : Nat} {x : Leaf} : x ∈ leaves ram s ↔
    (x.i4 < 256 ∧ present (ram s x.i4) = true) ∧
    (x.i3 < 512 ∧ present (ram (frameOf (ram s x.i4)) x.i3) = true) ∧
    (x.i2 < 512 ∧ present (ram (frameOf (ram (frameOf (ram s x.i4)) x.i3)) x.i2) = true) ∧
    x.pt = frameOf (ram (frameOf (ram (frameOf (ram s x.i4)) x.i3)) x.i2) ∧
    x.i1 < 512 ∧ present (ram x.pt x.i1) = true := by
  obtain ⟨i4, i3, i2, i1, pt⟩ := x
  simp only [leaves, presentIn, List.mem_flatMap, List.mem_map, List.mem_filter, List.mem_range,
    Leaf.mk.injEq]
  constructor
  · rintro ⟨_, h4, _, h3, _, h2, _, h1, rfl, rfl, rfl, rfl, rfl⟩
    exact ⟨h4, h3, h2, rfl, h1⟩
  · rintro ⟨h4, h3, h2, rfl, h1⟩
    exact ⟨i4, h4, i3, h3, i2, h2, i1, h1, rfl, rfl, rfl, rfl, rfl⟩

/-- The nested loops are one pass over the leaves, as long as the tables of the space and the
kernel's stay as they are. -/
theorem Owned.eachLeaf_eq (h : Owned Z k fb m own) {s : Nat} (hs : own s = .table s [])
    {I : Machine → Prop} {body : Nat → Nat → Nat → Nat → Nat → Nat → Machine → Bool × Machine}
    (hram : ∀ m', I m' → ∀ {t a p}, own t = .table a p → a = s ∨ a = k → m'.ram t = m.ram t)
    (hbody : ∀ x ∈ leaves m.ram s, ∀ m', I m' →
      I (body x.i4 x.i3 x.i2 x.i1 x.pt (m.ram x.pt x.i1) m').2) (hI : I m) :
    Machine.eachLeaf s body m =
      Machine.eachOf (fun x => body x.i4 x.i3 x.i2 x.i1 x.pt (m.ram x.pt x.i1)) (leaves m.ram s) m := by
  unfold Machine.eachLeaf leaves presentIn
  simp only [eachOf_flatMap, eachOf_map]
  refine (eachEntry_eq (I := I) (fun m' hm' => hram m' hm' hs (Or.inl rfl))
    (fun i4 hi4 hp4 m4 hm4 => ?_) m hI).1
  obtain ⟨a3, ha3, ht3⟩ := h.next_table (Or.inl rfl) hs (by simp) hp4
  refine eachEntry_eq (I := I) (fun m' hm' => hram m' hm' ht3 ha3)
    (fun i3 hi3 hp3 m3 hm3 => ?_) m4 hm4
  obtain ⟨a2, ha2, ht2⟩ := h.next_table ha3 ht3 (by simp) hp3
  refine eachEntry_eq (I := I) (fun m' hm' => hram m' hm' ht2 ha2)
    (fun i2 hi2 hp2 m2 hm2 => ?_) m3 hm3
  obtain ⟨a1, ha1, ht1⟩ := h.next_table ha2 ht2 (by simp) hp2
  refine eachEntry_eq (I := I) (fun m' hm' => hram m' hm' ht1 ha1)
    (fun i1 hi1 hp1 m1 hm1 => ⟨rfl, ?_⟩) m2 hm2
  exact hbody ⟨i4, i3, i2, i1, _⟩ (mem_leaves.mpr ⟨⟨List.mem_range.mp hi4, hp4⟩,
    ⟨List.mem_range.mp hi3, hp3⟩, ⟨List.mem_range.mp hi2, hp2⟩, rfl, List.mem_range.mp hi1, hp1⟩) m1 hm1

end leaves

section rounds

/-- A leaf of the space lies in a table of its own, or in one of the kernel's under entry 0. -/
theorem Owned.leaf_place (h : Owned Z k fb m own) {s : Nat} (hs : own s = .table s []) {x : Leaf}
    (hx : x ∈ leaves m.ram s) :
    ∃ a, (a = s ∨ a = k ∧ x.i4 = 0) ∧ own x.pt = .table a [x.i2, x.i3, x.i4] := by
  obtain ⟨⟨h4, hp4⟩, ⟨-, hp3⟩, ⟨-, hp2⟩, hpt, -, -⟩ := mem_leaves.mp hx
  have ht3 : own (frameOf (m.ram s x.i4)) = .table s [x.i4] := by
    cases h.child hs (by simp) hp4 with
    | inl hc => exact hc
    | inr hc =>
      cases hc.2.1 with
      | inl hge => omega
      | inr h0 => simp at h0
  have ht2 : ∃ a, (a = s ∨ a = k ∧ x.i4 = 0) ∧
      own (frameOf (m.ram (frameOf (m.ram s x.i4)) x.i3)) = .table a [x.i3, x.i4] := by
    cases h.child ht3 (by simp) hp3 with
    | inl hc => exact ⟨s, Or.inl rfl, hc⟩
    | inr hc =>
      cases hc.2.1 with
      | inl h0 => simp at h0
      | inr h0 => exact ⟨k, Or.inr ⟨rfl, by simpa using h0⟩, hc.2.2⟩
  obtain ⟨a, ha, ht2⟩ := ht2
  refine ⟨a, ha, ?_⟩
  rw [hpt]
  cases h.child ht2 (by simp) hp2 with
  | inl hc => exact hc
  | inr hc =>
    cases hc.2.1 with
    | inl h0 => simp at h0
    | inr h0 => simp at h0

/-- What one round of the loop does in the destination `d`, at the leaf `x` with the entry `e` in
a table of space `a`. -/
inductive Round (k : Nat) (fb : Framebuffer) (d : Nat) (x : Leaf) (a e : Nat) (m : Machine)
    (o : Nat → Owner) : Bool × Machine → (Nat → Owner) → Prop
  | skipped : user e = false → Round k fb d x a e m o (true, m) o
  | shared {m' : Machine} : a = k →
      m.mapPage d x.va (frameOf e) (flagsOf e) = (true, m') →
      Sets d (fun _ _ => False) m m' o o → Round k fb d x a e m o (true, m') o
  | lost {m' : Machine} {o' : Nat → Owner} : a ≠ k → user e = true → IsFb fb (frameOf e) →
      m.mapPage d x.va (frameOf e) (flagsOf e) = (false, m') →
      Sets d (fun _ _ => False) m m' o o' → Round k fb d x a e m o (true, m') o'
  | mapped {m' : Machine} {o' : Nat → Owner} {t w : Nat} : a ≠ k → user e = true →
      Sets d (At x.va) m m' o o' → o' t = .table d [x.i2, x.i3, x.i4] → m'.ram t x.i1 = w →
      flagsOf w = flagsOf e →
      (IsFb fb (frameOf e) →
        frameOf w = frameOf e ∧ (m.mapPage d x.va (frameOf e) (flagsOf e)).1 = true) →
      (¬ IsFb fb (frameOf e) → ¬ Standing m (frameOf w) ∧
        o' (frameOf w) = .leaf d [x.i1, x.i2, x.i3, x.i4] ∧
        m'.ram (frameOf w) = m.ram (frameOf e)) → Round k fb d x a e m o (true, m') o'
  | stopped {m' : Machine} {o' : Nat → Owner} : Round k fb d x a e m o (false, m') o'

theorem Owned.page_standing (h : Owned Z k fb m own) {t a i : Nat} {p : List Nat}
    (ht : own t = .table a p) (hp : p.length = 3) (hpr : present (m.ram t i) = true)
    (hu : user (m.ram t i) = true) (hfb : ¬ IsFb fb (frameOf (m.ram t i))) :
    Standing m (frameOf (m.ram t i)) ∧ ∀ b q, own (frameOf (m.ram t i)) ≠ .table b q := by
  cases ((h.leaf ht hp hpr hu).resolve_left hfb).2 with
  | inl hz =>
    rw [hz.2]
    exact ⟨Or.inr (Or.inl rfl), fun b q hq => Owner.noConfusion (h.zero.symm.trans hq)⟩
  | inr hl => exact ⟨h.standing (by simp [hl]), fun b q hq => Owner.noConfusion (hl.symm.trans hq)⟩

theorem Owned.copyLeaf_round (h : Owned Z k fb m own) {d s : Nat} (hd : d ≠ k) (hs : s ≠ k)
    (hroot : own d = .table d []) {x : Leaf} {a : Nat} (h4 : x.i4 < 256) (h3 : x.i3 < 512)
    (h2 : x.i2 < 512) (h1 : x.i1 < 512) (ha : a = s ∨ a = k ∧ x.i4 = 0)
    (hpt : own x.pt = .table a [x.i2, x.i3, x.i4]) (hp : present (m.ram x.pt x.i1) = true) :
    ∃ o', Owned Z k fb
        (Machine.copyLeaf fb d x.i4 x.i3 x.i2 x.i1 x.pt (m.ram x.pt x.i1) m).2 o' ∧
      Ext d m (Machine.copyLeaf fb d x.i4 x.i3 x.i2 x.i1 x.pt (m.ram x.pt x.i1) m).2 own o' ∧
      Round k fb d x a (m.ram x.pt x.i1) m own
        (Machine.copyLeaf fb d x.i4 x.i3 x.i2 x.i1 x.pt (m.ram x.pt x.i1) m) o' := by
  have hfl := flagsOf_lt (m.ram x.pt x.i1)
  obtain ⟨e4, e3, e2, e1⟩ := @index_vaOf x.i4 x.i3 x.i2 x.i1 (by omega) h3 h2 h1
  unfold Machine.copyLeaf
  cases hu : user (m.ram x.pt x.i1) with
  | false => exact ⟨own, h, Ext.refl d m own, .skipped hu⟩
  | true =>
    rw [if_pos rfl]
    by_cases hfb : fb.isFbPhysAddress (frameOf (m.ram x.pt x.i1) * pageSize) = true
    · rw [if_pos hfb]
      cases ha with
      | inl has =>
        have hak : a ≠ k := has ▸ hs
        have hv := h.vacant_of_private (has ▸ hs) hpt h4 h3 h2 h1
        cases h.mapPage_sets hd hroot hv hfl (Or.inr (Or.inl hfb)) with
        | inl hfail =>
          obtain ⟨m', o', hm, hO, hE, -, hS⟩ := hfail
          rw [hm]
          exact ⟨o', hO, hE, .lost hak hu hfb hm hS⟩
        | inr hok =>
          obtain ⟨m', o', t, hm, hO, hE, hS, ht, hw, -⟩ := hok
          rw [e4, e3, e2] at ht
          rw [e1] at hw
          have hone : (m.mapPage d x.va (frameOf (m.ram x.pt x.i1))
              (flagsOf (m.ram x.pt x.i1))).1 = true := by
            rw [Leaf.va, hm]
          rw [hm]
          refine ⟨o', hO, hE, .mapped hak hu hS ht hw (flagsOf_entry hfl) (fun _ => ?_)
            fun hc => absurd hfb hc⟩
          exact ⟨frameOf_entry hfl, hone⟩
      | inr hak =>
        obtain ⟨rfl, h0⟩ := hak
        rw [h0] at hpt
        obtain ⟨m', hm, hO, hE, hQ⟩ := h.remapShared_quiet hd hroot hpt h3 h2 h1 hp hu
        have hm' : m.mapPage d x.va (frameOf (m.ram x.pt x.i1)) (flagsOf (m.ram x.pt x.i1)) =
            (true, m') := by
          rw [Leaf.va, h0]
          exact hm
        rw [h0, hm]
        exact ⟨own, hO, hE, .shared rfl hm' (hQ.sets h)⟩
    · rw [if_neg hfb]
      have hbase := (h.leaf hpt rfl hp hu).resolve_left hfb
      obtain ⟨hstand, -⟩ := h.page_standing hpt rfl hp hu hfb
      have hv := h.vacant_of_private hbase.1 hpt h4 h3 h2 h1
      obtain ⟨f, m₁, he₁, hO₁, hkept, hfresh⟩ := h.allocPage
      obtain ⟨hnew, hkeep⟩ := h.allocPage_standing he₁
      have hE₁ : Ext d m m₁ own own := Ext.of_used h hkept
      simp only [he₁]
      by_cases h0 : f = 0
      · rw [if_pos h0]
        exact ⟨own, hO₁, hE₁, .stopped⟩
      · rw [if_neg h0]
        obtain ⟨hf, -, -⟩ := hfresh h0
        rw [(hkeep hstand).1]
        generalize hws : m.ram (frameOf (m.ram x.pt x.i1)) = ws
        have hO₂ := hO₁.fill hf.no_table ws
        have hE₂ := hE₁.trans (Ext.of_fill hf.no_table ws)
        have hf₂ : Fresh (m₁.fill f ws) own f := ⟨hf.1, hf.2, hf.3⟩
        have hS₂ : Sets d (fun _ _ => False) m (m₁.fill f ws) own own := by
          refine Sets.of_standing h fun y hy => ?_
          have hyf : y ≠ f := fun he => hnew h0 (he ▸ hy)
          rw [fill_frame _ _ hyf]
          exact hkeep hy
        cases hO₂.mapPage_sets hd hroot (Machine.vacant_ext h hd hE₂ hv) hfl (Or.inl hf₂) with
        | inl hfail =>
          obtain ⟨m', o', hm, hO, hE, hheld, -⟩ := hfail
          rw [hm]
          exact ⟨o', hO.freePage (hheld f hf₂).unowned,
            (hE₂.trans hE).trans ⟨id, fun _ _ => rfl, fun hx _ => hx⟩, .stopped⟩
        | inr hok =>
          obtain ⟨m', o', t, hm, hO, hE, hS, ht, hw, hpage⟩ := hok
          rw [e4, e3, e2] at ht
          rw [e1] at hw
          obtain ⟨hcopy, hleaf⟩ := hpage hf₂
          rw [e4, e3, e2, e1] at hleaf
          rw [hm]
          refine ⟨o', hO, hE₂.trans hE, .mapped hbase.1 hu (hS₂.trans hS) ht hw
            (flagsOf_entry hfl) (fun hc => absurd hc hfb) fun _ => ?_⟩
          rw [frameOf_entry hfl, hcopy, fill_same, hws]
          exact ⟨hnew h0, hleaf, rfl⟩

end rounds

section copying

variable {d s : Nat} {m' : Machine} {o : Nat → Owner} {M : List Leaf}

/-- The entry `w` of the destination is the copy of the leaf `x`. -/
structure CopyOf (fb : Framebuffer) (d : Nat) (m : Machine) (x : Leaf) (m' : Machine)
    (o : Nat → Owner) (w : Nat) : Prop where
  flags : flagsOf w = flagsOf (m.ram x.pt x.i1)
  shared : IsFb fb (frameOf (m.ram x.pt x.i1)) → frameOf w = frameOf (m.ram x.pt x.i1)
  fresh : ¬ IsFb fb (frameOf (m.ram x.pt x.i1)) → ¬ Standing m (frameOf w) ∧
    o (frameOf w) = .leaf d [x.i1, x.i2, x.i3, x.i4] ∧
    m'.ram (frameOf w) = m.ram (frameOf (m.ram x.pt x.i1))

/-- The state of the loop when it has mapped the leaves in `M`. -/
structure Copying (Z : Prop) (k : Nat) (fb : Framebuffer) (d : Nat) (m : Machine)
    (own : Nat → Owner) (M : List Leaf) (m' : Machine) (o : Nat → Owner) : Prop where
  owned : Owned Z k fb m' o
  ext : Ext d m m' own o
  stands : ∀ {x}, Standing m x → Standing m' x
  owner : ∀ {x}, own x ≠ .none → o x = own x
  keep : ∀ {x}, Standing m x → (∀ q, own x ≠ .table d q) → m'.ram x = m.ram x
  fresh : ∀ {x q}, Standing m x → o x = .table d q → own x = .table d q
  leaf : ∀ {t p i}, o t = .table d p → p.length = 3 → present (m'.ram t i) = true →
    ∃ x ∈ M, p = [x.i2, x.i3, x.i4] ∧ i = x.i1 ∧ CopyOf fb d m x m' o (m'.ram t i)
  covers : ∀ x ∈ M, ∃ t, o t = .table d [x.i2, x.i3, x.i4] ∧ present (m'.ram t x.i1) = true

theorem CopyOf.step {c : List Nat → Nat → Prop} {m'' : Machine} {o' : Nat → Owner} {x : Leaf}
    {w : Nat} (h : CopyOf fb d m x m' o w) (hO : Owned Z k fb m' o)
    (hS : Sets d c m' m'' o o') : CopyOf fb d m x m'' o' w := by
  refine ⟨h.flags, h.shared, fun hfb => ?_⟩
  obtain ⟨hnew, hleaf, hram⟩ := h.fresh hfb
  have hstand : Standing m' (frameOf w) := hO.standing (by simp [hleaf])
  refine ⟨hnew, (hS.owner (by simp [hleaf])).trans hleaf, ?_⟩
  rw [hS.keep hstand fun q hq => Owner.noConfusion (hleaf.symm.trans hq)]
  exact hram

theorem Copying.unmapped {m'' : Machine} {o' : Nat → Owner} (h : Copying Z k fb d m own M m' o)
    (hO : Owned Z k fb m'' o') (hE : Ext d m' m'' o o')
    (hS : Sets d (fun _ _ => False) m' m'' o o') : Copying Z k fb d m own M m'' o' where
  owned := hO
  ext := h.ext.trans hE
  stands hx := hS.stands (h.stands hx)
  owner hx := (hS.owner (by rw [h.owner hx]; exact hx)).trans (h.owner hx)
  keep hx hq := by
    rw [hS.keep (h.stands hx) fun q hq' => hq q (h.fresh hx hq'), h.keep hx hq]
  fresh hx hq := h.fresh hx (hS.table (h.stands hx) hq)
  leaf ht hp hpr := by
    have ht' := hS.old ht hp id hpr
    rw [hS.same ht' hp id] at hpr ⊢
    obtain ⟨x, hx, hpath, hi, hcopy⟩ := h.leaf ht' hp hpr
    exact ⟨x, hx, hpath, hi, hcopy.step h.owned hS⟩
  covers x hx := by
    obtain ⟨t, ht, hpr⟩ := h.covers x hx
    refine ⟨t, hE.keep ht, ?_⟩
    rw [hS.same ht rfl id]
    exact hpr

/-- A round that maps the leaf `x`. -/
theorem Copying.mapped {m'' : Machine} {o' : Nat → Owner} {x : Leaf} {t : Nat}
    (h : Copying Z k fb d m own M m' o) (hO : Owned Z k fb m'' o') (hE : Ext d m' m'' o o')
    (hidx : pml4Index x.va = x.i4 ∧ pdptIndex x.va = x.i3 ∧ pdIndex x.va = x.i2 ∧
      ptIndex x.va = x.i1)
    (hS : Sets d (At x.va) m' m'' o o')
    (ht : o' t = .table d [x.i2, x.i3, x.i4]) (hpr : present (m''.ram t x.i1) = true)
    (hcopy : CopyOf fb d m x m'' o' (m''.ram t x.i1)) :
    Copying Z k fb d m own (x :: M) m'' o' where
  owned := hO
  ext := h.ext.trans hE
  stands hx := hS.stands (h.stands hx)
  owner hx := (hS.owner (by rw [h.owner hx]; exact hx)).trans (h.owner hx)
  keep hx hq := by
    rw [hS.keep (h.stands hx) fun q hq' => hq q (h.fresh hx hq'), h.keep hx hq]
  fresh hx hq := h.fresh hx (hS.table (h.stands hx) hq)
  leaf {u p i} hu hp hpu := by
    obtain ⟨e4, e3, e2, e1⟩ := hidx
    by_cases hat : At x.va p i
    · obtain ⟨rfl, rfl⟩ := hat
      rw [e4, e3, e2] at hu
      have hut : u = t := hO.table_inj hu ht
      rw [hut, e4, e3, e2, e1]
      exact ⟨x, List.mem_cons_self, rfl, rfl, hcopy⟩
    · have hu' := hS.old hu hp hat hpu
      rw [hS.same hu' hp hat] at hpu ⊢
      obtain ⟨y, hy, hpath, hi, hcopy'⟩ := h.leaf hu' hp hpu
      exact ⟨y, List.mem_cons_of_mem _ hy, hpath, hi, hcopy'.step h.owned hS⟩
  covers y hy := by
    obtain ⟨e4, e3, e2, e1⟩ := hidx
    cases hy with
    | head => exact ⟨t, ht, hpr⟩
    | tail _ hy =>
      obtain ⟨u, hu, hpu⟩ := h.covers y hy
      refine ⟨u, hE.keep hu, ?_⟩
      by_cases hat : At x.va [y.i2, y.i3, y.i4] y.i1
      · -- the same position again
        obtain ⟨hpath, hi⟩ := hat
        rw [e4, e3, e2] at hpath
        rw [e1] at hi
        have hut : u = t := by
          apply hO.table_inj (hE.keep hu)
          rw [hpath]
          exact ht
        rw [hut, hi]
        exact hpr
      · rw [hS.same hu rfl hat]
        exact hpu

/-- One round of `clone_user_pages`, at a leaf of the state `m` in which it began. -/
def Machine.copyRound (fb : Framebuffer) (d : Nat) (ram : Ram) (x : Leaf) : Machine → Bool × Machine :=
  copyLeaf fb d x.i4 x.i3 x.i2 x.i1 x.pt (ram x.pt x.i1)

/-- The mapping of a framebuffer page, whose failure `clone_user_pages` does not look at. -/
def Machine.FbFits (fb : Framebuffer) (d : Nat) (ram : Ram) (x : Leaf) (m : Machine) : Prop :=
  user (ram x.pt x.i1) = true → IsFb fb (frameOf (ram x.pt x.i1)) →
    (m.mapPage d x.va (frameOf (ram x.pt x.i1)) (flagsOf (ram x.pt x.i1))).1 = true

def Machine.FbMapped (fb : Framebuffer) (d : Nat) (ram : Ram) : List Leaf → Machine → Prop
  | [], _ => True
  | x :: xs, m => m.FbFits fb d ram x ∧ FbMapped fb d ram xs (copyRound fb d ram x m).2

def Private (s : Nat) (m : Machine) (own : Nat → Owner) (x : Leaf) : Prop :=
  own x.pt = .table s [x.i2, x.i3, x.i4] ∧ user (m.ram x.pt x.i1) = true

theorem Copying.round {x : Leaf} {m'' : Machine} (h : Copying Z k fb d m own M m' o)
    (hm : Owned Z k fb m own) (hd : d ≠ k) (hs : s ≠ k) (hsd : s ≠ d) (hrootd : own d = .table d [])
    (hroots : own s = .table s []) (hx : x ∈ leaves m.ram s)
    (hrun : Machine.copyRound fb d m.ram x m' = (true, m'')) :
    ∃ o', (Copying Z k fb d m own M m'' o' ∧ ¬ Private s m own x ∧ m'.FbFits fb d m.ram x) ∨
      (Copying Z k fb d m own M m'' o' ∧ Private s m own x ∧ ¬ m'.FbFits fb d m.ram x) ∨
      (Copying Z k fb d m own (x :: M) m'' o' ∧ m'.FbFits fb d m.ram x) := by
  obtain ⟨⟨h4, -⟩, ⟨h3, -⟩, ⟨h2, -⟩, -, h1, hp⟩ := mem_leaves.mp hx
  obtain ⟨a, ha, hpt⟩ := hm.leaf_place hroots hx
  have had : a ≠ d := by
    cases ha with
    | inl he => exact he ▸ hsd
    | inr he => exact he.1 ▸ hd.symm
  have hword : m'.ram x.pt x.i1 = m.ram x.pt x.i1 := by rw [h.ext.foreign hpt had]
  have hround := h.owned.copyLeaf_round hd hs (h.ext.keep hrootd) h4 h3 h2 h1 ha (h.ext.keep hpt)
    (by rw [hword]; exact hp)
  rw [hword] at hround
  unfold Machine.copyRound at hrun
  rw [hrun] at hround
  obtain ⟨o', hO, hE, hround⟩ := hround
  refine ⟨o', ?_⟩
  have hpriv : a ≠ k → user (m.ram x.pt x.i1) = true → Private s m own x :=
    fun hak hu => ⟨(ha.resolve_right fun hc => hak hc.1) ▸ hpt, hu⟩
  cases hround with
  | skipped hu =>
    refine Or.inl ⟨h, fun hc => ?_, fun hc => ?_⟩
    · exact Bool.noConfusion (hu.symm.trans hc.2)
    · exact Bool.noConfusion (hu.symm.trans hc)
  | shared hak hmap hS =>
    refine Or.inl ⟨h.unmapped hO hE hS, fun hc => ?_, fun _ _ => by rw [hmap]⟩
    have hpt' := hpt.symm.trans hc.1
    cases hpt'
    exact hs hak
  | lost hak hu hfb hmap hS =>
    refine Or.inr (Or.inl ⟨h.unmapped hO hE hS, hpriv hak hu, fun hc => ?_⟩)
    have := hc hu hfb
    rw [hmap] at this
    exact Bool.noConfusion this
  | mapped hak hu hS ht hw hflags hshared hfresh =>
    rename_i t w
    refine Or.inr (Or.inr ⟨?_, fun _ hfb => (hshared hfb).2⟩)
    obtain ⟨hpt', hu'⟩ := hpriv hak hu
    have hpres : present (m''.ram t x.i1) = true := by
      have hlow : ∀ w, present (flagsOf w) = present w := fun w => by
        simp [present, flagsOf]
      rw [hw, ← hlow, hflags, hlow]
      exact hp
    refine h.mapped hO hE (index_vaOf (by omega) h3 h2 h1) hS ht hpres ?_
    rw [hw]
    refine ⟨hflags, fun hfb => (hshared hfb).1, fun hfb => ?_⟩
    obtain ⟨hnew, hleaf, hram⟩ := hfresh hfb
    obtain ⟨hstand, htab⟩ := hm.page_standing hpt' rfl hp hu' hfb
    refine ⟨fun hc => hnew (h.stands hc), hleaf, ?_⟩
    rw [hram, h.keep hstand fun q => htab d q]

theorem Copying.run {m'' : Machine} (hm : Owned Z k fb m own) (hd : d ≠ k) (hs : s ≠ k)
    (hsd : s ≠ d) (hrootd : own d = .table d []) (hroots : own s = .table s []) {xs : List Leaf}
    (hsub : ∀ x ∈ xs, x ∈ leaves m.ram s) (hnodup : xs.Nodup) (hdisj : ∀ x ∈ xs, x ∉ M)
    (h : Copying Z k fb d m own M m' o)
    (hrun : Machine.eachOf (Machine.copyRound fb d m.ram) xs m' = (true, m'')) :
    ∃ M' o', Copying Z k fb d m own M' m'' o' ∧ (∀ x ∈ M', x ∈ M ∨ x ∈ xs) ∧
      (∀ x ∈ M, x ∈ M') ∧
      (m'.FbMapped fb d m.ram xs ↔ ∀ x ∈ xs, Private s m own x → x ∈ M') := by
  induction xs generalizing M m' o with
  | nil =>
    cases hrun
    exact ⟨M, o, h, fun x hx => Or.inl hx, fun _ hx => hx, fun _ => nofun, fun _ => trivial⟩
  | cons x xs ih =>
    rw [Machine.eachOf] at hrun
    have hx := hsub x List.mem_cons_self
    have hsub' := fun y hy => hsub y (List.mem_cons_of_mem _ hy)
    obtain ⟨hxs, hnodup'⟩ := List.nodup_cons.mp hnodup
    cases hb : Machine.copyRound fb d m.ram x m' with
    | mk go m₁ =>
      rw [hb] at hrun
      cases go with
      | false => cases hrun
      | true =>
        obtain ⟨o₁, hcase⟩ := h.round hm hd hs hsd hrootd hroots hx hb
        have hcons : m'.FbMapped fb d m.ram (x :: xs) ↔
            m'.FbFits fb d m.ram x ∧ m₁.FbMapped fb d m.ram xs := by
          rw [Machine.FbMapped, hb]
        have hdisj' := fun y hy => hdisj y (List.mem_cons_of_mem _ hy)
        rw [hcons]
        rcases hcase with ⟨h₁, hpriv, hfits⟩ | ⟨h₁, hpriv, hfits⟩ | ⟨h₁, hfits⟩
        · obtain ⟨M', o', hC, hin, hold, hiff⟩ := ih hsub' hnodup' hdisj' h₁ hrun
          refine ⟨M', o', hC, fun y hy => (hin y hy).imp_right (List.mem_cons_of_mem _), hold, ?_⟩
          rw [hiff, List.forall_mem_cons]
          exact ⟨fun hall => ⟨fun hc => absurd hc hpriv, hall.2⟩, fun hall => ⟨hfits, hall.2⟩⟩
        · obtain ⟨M', o', hC, hin, hold, hiff⟩ := ih hsub' hnodup' hdisj' h₁ hrun
          refine ⟨M', o', hC, fun y hy => (hin y hy).imp_right (List.mem_cons_of_mem _), hold, ?_⟩
          rw [List.forall_mem_cons]
          refine ⟨fun hc => absurd hc.1 hfits, fun hall => ?_⟩
          cases hin x (hall.1 hpriv) with
          | inl hc => exact absurd hc (hdisj x List.mem_cons_self)
          | inr hc => exact absurd hc hxs
        · have hdisj'' : ∀ y ∈ xs, y ∉ x :: M := by
            intro y hy hc
            cases hc with
            | head => exact hxs hy
            | tail _ hc => exact hdisj' y hy hc
          obtain ⟨M', o', hC, hin, hold, hiff⟩ := ih hsub' hnodup' hdisj'' h₁ hrun
          refine ⟨M', o', hC, fun y hy => ?_, fun y hy => hold y (List.mem_cons_of_mem _ hy), ?_⟩
          · cases hin y hy with
            | inl hc =>
              cases hc with
              | head => exact Or.inr List.mem_cons_self
              | tail _ hc => exact Or.inl hc
            | inr hc => exact Or.inr (List.mem_cons_of_mem _ hc)
          · rw [hiff, List.forall_mem_cons]
            exact ⟨fun hall => ⟨fun _ => hold x List.mem_cons_self, hall.2⟩,
              fun hall => ⟨hfits, hall.2⟩⟩

/-- A page takes four frames at most: its own and three for the tables above it. -/
theorem Owned.copyRound_supplied (h : Owned Z k fb m own) (hroot : own d = .table d []) {ram : Ram}
    {x : Leaf} {j : Nat} (hs : m.supplies (j + 4) = true) :
    (m.copyRound fb d ram x).1 = true ∧ (m.copyRound fb d ram x).2.supplies j = true ∧
      m.FbFits fb d ram x := by
  have hmaps : ∀ {m : Machine} {f : Nat}, Owned Z k fb m own → m.supplies (j + 3) = true →
      user (ram x.pt x.i1) = true → (m.mapPage d x.va f (flagsOf (ram x.pt x.i1))).1 = true ∧
        (m.mapPage d x.va f (flagsOf (ram x.pt x.i1))).2.supplies j = true := by
    intro m f h hs hu
    have hle : j + m.missing d x.va + (3 - m.missing d x.va) = j + 3 := by
      have := @missing_le m d x.va
      omega
    exact mapPage_supplied h hroot (by rwa [user_flagsOf]) (supplies_le (hle ▸ hs))
  have hs₃ : m.supplies (j + 3) = true := supplies_le (j := 1) hs
  refine and_assoc.mp ⟨?_, fun hu _ => (hmaps h hs₃ hu).1⟩
  unfold Machine.copyRound Machine.copyLeaf
  cases hu : user (ram x.pt x.i1) with
  | false => exact ⟨rfl, supplies_le hs⟩
  | true =>
    rw [if_pos rfl]
    by_cases hfb : fb.isFbPhysAddress (frameOf (ram x.pt x.i1) * pageSize) = true
    · rw [if_pos hfb]
      exact ⟨rfl, (hmaps h hs₃ hu).2⟩
    · rw [if_neg hfb]
      obtain ⟨f, m₁, he₁, hO₁, -, hfresh⟩ := h.allocPage
      obtain ⟨h0, hs₁⟩ := supplies_succ hs he₁
      have hO₂ := hO₁.fill (hfresh h0).1.no_table (m₁.ram (frameOf (ram x.pt x.i1)))
      have hs₂ : (m₁.fill f (m₁.ram (frameOf (ram x.pt x.i1)))).supplies (j + 3) = true := by
        rw [← hs₁]
        exact supplies_congr rfl
      obtain ⟨hok, hleft⟩ := hmaps (f := f) hO₂ hs₂ hu
      unfold Leaf.va at hok hleft
      simp only [he₁, if_neg h0]
      revert hok hleft
      cases (m₁.fill f (m₁.ram (frameOf (ram x.pt x.i1)))).mapPage d (vaOf x.i4 x.i3 x.i2 x.i1) f
        (flagsOf (ram x.pt x.i1)) with
      | mk ok m₂ =>
        rintro rfl hleft
        exact ⟨rfl, hleft⟩

theorem Copying.fits_of_supply (hm : Owned Z k fb m own) (hd : d ≠ k) (hs : s ≠ k)
    (hsd : s ≠ d) (hrootd : own d = .table d []) (hroots : own s = .table s []) {xs : List Leaf}
    (hsub : ∀ x ∈ xs, x ∈ leaves m.ram s) (h : Copying Z k fb d m own M m' o)
    (hsup : m'.supplies (4 * xs.length) = true) : m'.FbMapped fb d m.ram xs := by
  induction xs generalizing M m' o with
  | nil => exact trivial
  | cons x xs ih =>
    obtain ⟨hok, hleft, hfits⟩ := h.owned.copyRound_supplied (h.ext.keep hrootd) hsup
    refine ⟨hfits, ?_⟩
    have hsub' := fun y hy => hsub y (List.mem_cons_of_mem _ hy)
    have hrun : m'.copyRound fb d m.ram x = (true, (m'.copyRound fb d m.ram x).2) :=
      Prod.ext hok rfl
    obtain ⟨o₁, hcase⟩ := h.round hm hd hs hsd hrootd hroots (hsub x List.mem_cons_self) hrun
    rcases hcase with ⟨h₁, -⟩ | ⟨h₁, -⟩ | ⟨h₁, -⟩
    · exact ih hsub' h₁ hleft
    · exact ih hsub' h₁ hleft
    · exact ih hsub' h₁ hleft

theorem leaves_nodup (ram : Ram) (s : Nat) : (leaves ram s).Nodup := by
  have hnodup : ∀ t n, (presentIn ram t n).Nodup := fun t n => List.nodup_range.filter _
  unfold leaves
  refine List.nodup_flatMap.mpr ⟨fun i4 _ => List.nodup_flatMap.mpr ⟨fun i3 _ =>
    List.nodup_flatMap.mpr ⟨fun i2 _ => (hnodup _ _).map fun _ _ he => (Leaf.mk.inj he).2.2.2.1,
      (hnodup _ _).imp ?_⟩, (hnodup _ _).imp ?_⟩, (hnodup _ _).imp ?_⟩
  · intro i j hij x hx hy
    obtain ⟨_, -, rfl⟩ := List.mem_map.mp hx
    obtain ⟨_, -, he⟩ := List.mem_map.mp hy
    exact hij (Leaf.mk.inj he).2.2.1.symm
  · intro i j hij x hx hy
    simp only [List.mem_flatMap, List.mem_map] at hx hy
    obtain ⟨_, -, _, -, rfl⟩ := hx
    obtain ⟨_, -, _, -, he⟩ := hy
    exact hij (Leaf.mk.inj he).2.1.symm
  · intro i j hij x hx hy
    simp only [List.mem_flatMap, List.mem_map] at hx hy
    obtain ⟨_, -, _, -, _, -, rfl⟩ := hx
    obtain ⟨_, -, _, -, _, -, he⟩ := hy
    exact hij (Leaf.mk.inj he).1.symm

/-- The processor finds a leaf in the space's own table for the address. -/
theorem Owned.leafEntry_own (h : Owned Z k fb m own) {a t va : Nat}
    (ht : own t = .table a [pdIndex va, pdptIndex va, pml4Index va]) :
    leafEntry m.ram a va = lookup m.ram t (ptIndex va) := by
  obtain ⟨pd, hpd, hp2, hf2⟩ := h.parent ht
  obtain ⟨pdpt, hpdpt, hp3, hf3⟩ := h.parent hpd
  obtain ⟨root, hroot, hp4, hf4⟩ := h.parent hpdpt
  rw [h.root hroot] at hp4 hf4
  simp only [leafEntry, lookup, Option.bind_eq_bind, hp4, if_true, Option.bind_some, hf4, hp3, hf3,
    hp2, hf2]

/-- And in the kernel's, where the space has a copy of the kernel's directory. -/
theorem Owned.leafEntry_kernel (h : Owned Z k fb m own) {a t va : Nat} (ha : a ≠ k)
    (hroot : own a = .table a []) (h0 : pml4Index va = 0)
    (ht : own t = .table k [pdIndex va, pdptIndex va, pml4Index va]) :
    leafEntry m.ram a va = lookup m.ram t (ptIndex va) := by
  obtain ⟨pd, hpd, hp2, hf2⟩ := h.parent ht
  obtain ⟨kp, hkp, hp3, hf3⟩ := h.parent hpd
  have hlow := h.low ha hroot
  have hdir : own (frameOf (m.ram a 0)) = .table a [0] := by
    cases h.child hroot (by simp) hlow with
    | inl hc => exact hc
    | inr hc =>
      cases hc.2.1 with
      | inl hc => omega
      | inr hc => simp at hc
  rw [h0] at hkp
  have hlt : pdptIndex va < 512 := Nat.mod_lt _ (by norm_num)
  obtain ⟨hpc, hfc⟩ := h.copied ha hdir hkp hlt hp3
  rw [hf3] at hfc
  simp only [leafEntry, lookup, Option.bind_eq_bind, h0, hlow, if_true, Option.bind_some, hpc, hfc,
    hp2, hf2]

end copying


section clone

variable {m₀ m' : Machine} {own₀ o : Nat → Owner} {d s : Nat} {M : List Leaf}

def UserLeaf (m : Machine) (a va e : Nat) : Prop :=
  leafEntry m.ram a va = some e ∧ user e = true

structure Leaf.For (x : Leaf) (va : Nat) : Prop where
  i4 : x.i4 = pml4Index va
  i3 : x.i3 = pdptIndex va
  i2 : x.i2 = pdIndex va
  i1 : x.i1 = ptIndex va

theorem Leaf.For.leafEntry {ram : Ram} {x : Leaf} {va : Nat} (h : x.For va)
    (hx : x ∈ leaves ram s) : leafEntry ram s va = some (ram x.pt x.i1) := by
  obtain ⟨⟨-, hp4⟩, ⟨-, hp3⟩, ⟨-, hp2⟩, hpt, -, hp1⟩ := mem_leaves.mp hx
  rw [hpt] at hp1 ⊢
  unfold Mm.leafEntry
  simp only [← h.i4, ← h.i3, ← h.i2, ← h.i1, lookup, Option.bind_eq_bind, hp4, if_true,
    Option.bind_some, hp3, hp2, hp1]

theorem Leaf.For.eq {ram : Ram} {x y : Leaf} {va : Nat} (hx : x.For va) (hy : y.For va)
    (hxl : x ∈ leaves ram s) (hyl : y ∈ leaves ram s) : x = y := by
  obtain ⟨-, -, -, hpx, -⟩ := mem_leaves.mp hxl
  obtain ⟨-, -, -, hpy, -⟩ := mem_leaves.mp hyl
  obtain ⟨x4, x3, x2, x1, xp⟩ := x
  obtain ⟨y4, y3, y2, y1, yp⟩ := y
  obtain ⟨rfl, rfl, rfl, rfl⟩ := hx
  obtain ⟨h4, h3, h2, h1⟩ := hy
  dsimp only at h4 h3 h2 h1 hpx hpy
  subst h4 h3 h2 h1
  rw [hpx, hpy]

theorem Leaf.for_va {ram : Ram} {x : Leaf} (hx : x ∈ leaves ram s) : x.For x.va := by
  obtain ⟨⟨h4, -⟩, ⟨h3, -⟩, ⟨h2, -⟩, -, h1, -⟩ := mem_leaves.mp hx
  obtain ⟨e4, e3, e2, e1⟩ := @index_vaOf x.i4 x.i3 x.i2 x.i1 (by omega) h3 h2 h1
  exact ⟨e4.symm, e3.symm, e2.symm, e1.symm⟩

theorem pml4Index_lt {va : Nat} (h : va < 2^47) : pml4Index va < 256 := by
  unfold pml4Index
  omega

theorem leaf_of_entry {ram : Ram} {va e : Nat} (hva : va < 2^47)
    (h : leafEntry ram s va = some e) : ∃ x ∈ leaves ram s, x.For va ∧ ram x.pt x.i1 = e := by
  have hlook : ∀ {t i w}, lookup ram t i = some w → present (ram t i) = true ∧ ram t i = w := by
    intro t i w hw
    unfold lookup at hw
    split_ifs at hw with hp
    exact ⟨hp, Option.some.inj hw⟩
  simp only [leafEntry, Option.bind_eq_bind, Option.bind_eq_some_iff] at h
  obtain ⟨e4, h4, e3, h3, e2, h2, h1⟩ := h
  obtain ⟨hp4, rfl⟩ := hlook h4
  obtain ⟨hp3, rfl⟩ := hlook h3
  obtain ⟨hp2, rfl⟩ := hlook h2
  obtain ⟨hp1, rfl⟩ := hlook h1
  have hlt : ∀ n, n % 512 < 512 := fun n => Nat.mod_lt n (by norm_num)
  exact ⟨⟨pml4Index va, pdptIndex va, pdIndex va, ptIndex va, _⟩,
    mem_leaves.mpr ⟨⟨pml4Index_lt hva, hp4⟩, ⟨hlt _, hp3⟩, ⟨hlt _, hp2⟩, rfl, hlt _, hp1⟩,
    ⟨rfl, rfl, rfl, rfl⟩, rfl⟩

/-- Where the kernel has a table for an address, a space has none of its own. -/
theorem Owned.kernel_or_own (h : Owned Z k fb m own) {t u i3 i2 j2 : Nat} (hs : s ≠ k)
    (h3 : i3 < 512) (ht : own t = .table k [i2, i3, 0]) : own u ≠ .table s [j2, i3, 0] := by
  intro hu
  obtain ⟨pdk, hpdk, -, -⟩ := h.parent ht
  obtain ⟨kp, hkp, hpk, hfk⟩ := h.parent hpdk
  obtain ⟨pds, hpds, -, -⟩ := h.parent hu
  obtain ⟨sp, hsp, -, hfs⟩ := h.parent hpds
  obtain ⟨-, hf⟩ := h.copied hs hsp hkp h3 hpk
  rw [hfs, hfk] at hf
  rw [hf, hpdk] at hpds
  cases hpds
  exact hs rfl

/-- A user page of the destination: the copy of a leaf, or a page of the kernel's tables. -/
theorem Copying.user_leaf (h : Copying Z k fb d m own M m' o) (hd : d ≠ k)
    (hroot : own d = .table d []) {va w : Nat} (hva : va < 2^47) (hw : UserLeaf m' d va w) :
    (∃ x ∈ M, x.For va ∧ CopyOf fb d m x m' o w) ∨
      pml4Index va = 0 ∧ ∃ t, own t = .table k [pdIndex va, pdptIndex va, pml4Index va] ∧
        m.ram t (ptIndex va) = w ∧ present w = true ∧ IsFb fb (frameOf w) := by
  obtain ⟨x, hx, hfor, rfl⟩ := leaf_of_entry hva hw.1
  obtain ⟨-, -, -, -, -, hp⟩ := mem_leaves.mp hx
  obtain ⟨b, hb, ht⟩ := h.owned.leaf_place (h.ext.keep hroot) hx
  cases hb with
  | inl hbd =>
    rw [hbd] at ht
    obtain ⟨y, hy, hpath, hi, hcopy⟩ := h.leaf ht rfl hp
    simp only [List.cons.injEq, and_true] at hpath
    refine Or.inl ⟨y, hy, ⟨?_, ?_, ?_, ?_⟩, hcopy⟩
    · rw [← hpath.2.2, hfor.i4]
    · rw [← hpath.2.1, hfor.i3]
    · rw [← hpath.1, hfor.i2]
    · rw [← hi, hfor.i1]
  | inr hbk =>
    obtain ⟨rfl, h0⟩ := hbk
    have hown := h.ext.only ht hd.symm
    refine Or.inr ⟨hfor.i4.symm.trans h0, x.pt, ?_, ?_, hp, ?_⟩
    · rw [← hfor.i4, ← hfor.i3, ← hfor.i2]
      exact hown
    · rw [← hfor.i1, h.ext.foreign hown hd.symm]
    · cases h.owned.leaf ht rfl hp hw.2 with
      | inl hc => exact hc
      | inr hc => exact absurd rfl hc.1

/-- What `clone_user_pages` is for: the lower half of `d` in `m'` has the user pages of `s` in `m`,
with pages of its own for all but the framebuffer. -/
structure ClonedTo (fb : Framebuffer) (m m' : Machine) (d s : Nat) : Prop where
  pages : ∀ va < 2^47, (∃ w, UserLeaf m' d va w) ↔ ∃ e, UserLeaf m s va e
  flags : ∀ va < 2^47, ∀ e w, UserLeaf m s va e → UserLeaf m' d va w → flagsOf w = flagsOf e
  shared : ∀ va < 2^47, ∀ e w, UserLeaf m s va e → UserLeaf m' d va w → IsFb fb (frameOf e) →
    frameOf w = frameOf e
  fresh : ∀ va < 2^47, ∀ e w, UserLeaf m s va e → UserLeaf m' d va w → ¬ IsFb fb (frameOf e) →
    m.pmm.bitmap (frameOf w) = false ∧ m'.pmm.bitmap (frameOf w) = true ∧
      m'.ram (frameOf w) = m.ram (frameOf e)
  apart : ∀ va < 2^47, ∀ va' < 2^47, ∀ e w w', UserLeaf m s va e → UserLeaf m' d va w →
    UserLeaf m' d va' w' → ¬ IsFb fb (frameOf e) → frameOf w' = frameOf w →
    va' / pageSize = va / pageSize
  source : ∀ va < 2^47, ∀ e w, UserLeaf m s va e → UserLeaf m' d va w → ¬ IsFb fb (frameOf e) →
    ¬ IsTable m.ram 3 s (frameOf w) ∧
      ∀ va' < 2^47, ∀ e', UserLeaf m s va' e' → frameOf e' ≠ frameOf w
  translations : ∀ va, translate m'.ram s va = translate m.ram s va
  contents : ∀ va < 2^47, ∀ e, UserLeaf m s va e → m'.ram (frameOf e) = m.ram (frameOf e)

/-- The page that a user page of the destination was made from. -/
theorem Copying.made_from (h : Copying Z k fb d m own M m' o) (hm : Owned Z k fb m own)
    (hd : d ≠ k) (hs : s ≠ k) (hrootd : own d = .table d []) (hroots : own s = .table s [])
    (hM : ∀ x ∈ M, x ∈ leaves m.ram s) {va e w : Nat} (hva : va < 2^47)
    (he : UserLeaf m s va e) (hw : UserLeaf m' d va w) :
    (∃ x ∈ M, x.For va ∧ m.ram x.pt x.i1 = e ∧ CopyOf fb d m x m' o w) ∨
      w = e ∧ IsFb fb (frameOf e) := by
  cases h.user_leaf hd hrootd hva hw with
  | inl hc =>
    obtain ⟨x, hx, hfor, hcopy⟩ := hc
    refine Or.inl ⟨x, hx, hfor, ?_, hcopy⟩
    exact Option.some.inj ((hfor.leafEntry (hM x hx)).symm.trans he.1)
  | inr hc =>
    obtain ⟨h0, t, ht, hram, hp, hfb⟩ := hc
    have hlook : leafEntry m.ram s va = some w := by
      rw [hm.leafEntry_kernel hs hroots h0 ht, lookup, hram, if_pos hp]
    obtain rfl : w = e := Option.some.inj (hlook.symm.trans he.1)
    exact Or.inr ⟨rfl, hfb⟩

theorem Copying.copy_of (h : Copying Z k fb d m own M m' o) (hm : Owned Z k fb m own)
    (hd : d ≠ k) (hs : s ≠ k) (hrootd : own d = .table d []) (hroots : own s = .table s [])
    (hM : ∀ x ∈ M, x ∈ leaves m.ram s) {va e w : Nat} (hva : va < 2^47)
    (he : UserLeaf m s va e) (hw : UserLeaf m' d va w) (hfb : ¬ IsFb fb (frameOf e)) :
    ¬ Standing m (frameOf w) ∧
      o (frameOf w) = .leaf d [ptIndex va, pdIndex va, pdptIndex va, pml4Index va] ∧
      m'.ram (frameOf w) = m.ram (frameOf e) := by
  cases h.made_from hm hd hs hrootd hroots hM hva he hw with
  | inl hc =>
    obtain ⟨x, hx, hfor, rfl, hcopy⟩ := hc
    rw [← hfor.i4, ← hfor.i3, ← hfor.i2, ← hfor.i1]
    exact hcopy.fresh hfb
  | inr hc => exact absurd hc.2 hfb

theorem user_of_flags {w e : Nat} (h : flagsOf w = flagsOf e) : user w = user e := by
  rw [← user_flagsOf w, h, user_flagsOf]

/-- A user page of the source is standing, and no table of the destination. -/
theorem Owned.source_standing (hm : Owned Z k fb m own) (hfb : ∀ f, IsFb fb f → Standing m f)
    (htab : ∀ {x q}, own x = .table d q → ¬ IsFb fb x) (hroots : own s = .table s [])
    {va e : Nat} (he : UserLeaf m s va e) :
    Standing m (frameOf e) ∧ ∀ q, own (frameOf e) ≠ .table d q := by
  obtain ⟨t, b, ht, -, hp, rfl⟩ := hm.leaf_table hroots he.1
  by_cases hf : IsFb fb (frameOf (m.ram t (ptIndex va)))
  · exact ⟨hfb _ hf, fun q hq => htab hq hf⟩
  · obtain ⟨hstand, hno⟩ := hm.page_standing ht rfl hp he.2 hf
    exact ⟨hstand, fun q => hno d q⟩

/-- A result that is a clone has every page of the source's own tables. -/
theorem Copying.mapped_private (h : Copying Z k fb d m own M m' o) (hm : Owned Z k fb m own)
    (hd : d ≠ k) (hs : s ≠ k) (hrootd : own d = .table d []) (hM : ∀ x ∈ M, x ∈ leaves m.ram s)
    (hC : ClonedTo fb m m' d s) {x : Leaf} (hx : x ∈ leaves m.ram s) (hpriv : Private s m own x) :
    x ∈ M := by
  have hfor := Leaf.for_va hx
  have hva : x.va < 2^47 := by
    obtain ⟨⟨h4, -⟩, ⟨h3, -⟩, ⟨h2, -⟩, -, h1, -⟩ := mem_leaves.mp hx
    unfold Leaf.va vaOf
    omega
  obtain ⟨w, hw⟩ := (hC.pages x.va hva).mpr ⟨_, hfor.leafEntry hx, hpriv.2⟩
  cases h.user_leaf hd hrootd hva hw with
  | inl hc =>
    obtain ⟨y, hy, hfor', -⟩ := hc
    rw [hfor.eq hfor' hx (hM y hy)]
    exact hy
  | inr hc =>
    obtain ⟨h0, t, ht, -⟩ := hc
    rw [← hfor.i4, ← hfor.i3, ← hfor.i2] at ht
    rw [← hfor.i4] at h0
    rw [h0] at ht
    have hpt := hpriv.1
    rw [h0] at hpt
    exact absurd hpt (hm.kernel_or_own hs (mem_leaves.mp hx).2.1.1 ht)

/-- No user page is in the destination that is not in the source. -/
theorem Copying.page_back (h : Copying Z k fb d m own M m' o) (hm : Owned Z k fb m own)
    (hd : d ≠ k) (hs : s ≠ k) (hrootd : own d = .table d []) (hroots : own s = .table s [])
    (hM : ∀ x ∈ M, x ∈ leaves m.ram s) {va w : Nat} (hva : va < 2^47) (hw : UserLeaf m' d va w) :
    ∃ e, UserLeaf m s va e := by
  cases h.user_leaf hd hrootd hva hw with
  | inl hc =>
    obtain ⟨x, hx, hfor, hco⟩ := hc
    exact ⟨_, hfor.leafEntry (hM x hx), (user_of_flags hco.flags).symm.trans hw.2⟩
  | inr hc =>
    obtain ⟨h0, t, ht, hram, hp, -⟩ := hc
    refine ⟨w, ?_, hw.2⟩
    rw [hm.leafEntry_kernel hs hroots h0 ht, lookup, hram, if_pos hp]

/-- A page that was mapped is there, and the pages of the kernel's low half are there anyway. -/
theorem Copying.page_there (h : Copying Z k fb d m own M m' o) (hm : Owned Z k fb m own)
    (hd : d ≠ k) (hrootd : own d = .table d []) (hroots : own s = .table s [])
    (hM : ∀ x ∈ M, x ∈ leaves m.ram s)
    (hall : ∀ x ∈ leaves m.ram s, Private s m own x → x ∈ M) {va e : Nat} (hva : va < 2^47)
    (he : UserLeaf m s va e) : ∃ w, UserLeaf m' d va w := by
  obtain ⟨x, hx, hfor, rfl⟩ := leaf_of_entry hva he.1
  obtain ⟨-, -, -, -, -, hp⟩ := mem_leaves.mp hx
  obtain ⟨a, ha, hpt⟩ := hm.leaf_place hroots hx
  cases ha with
  | inl has =>
    obtain ⟨t, ht, hpr⟩ := h.covers x (hall x hx ⟨has ▸ hpt, he.2⟩)
    obtain ⟨y, hy, hpath, hi, hco⟩ := h.leaf ht rfl hpr
    simp only [List.cons.injEq, and_true] at hpath
    have hfor' : y.For va :=
      ⟨hpath.2.2.symm.trans hfor.i4, hpath.2.1.symm.trans hfor.i3, hpath.1.symm.trans hfor.i2,
        hi.symm.trans hfor.i1⟩
    rw [← hfor.eq hfor' hx (hM y hy)] at hco
    rw [hfor.i4, hfor.i3, hfor.i2] at ht
    refine ⟨_, ?_, (user_of_flags hco.flags).trans he.2⟩
    rw [h.owned.leafEntry_own ht, lookup, ← hfor.i1, if_pos hpr]
  | inr hak =>
    obtain ⟨rfl, h0⟩ := hak
    have hpt' := h.ext.keep hpt
    rw [hfor.i4, hfor.i3, hfor.i2] at hpt'
    refine ⟨_, ?_, he.2⟩
    rw [h.owned.leafEntry_kernel hd (h.ext.keep hrootd) (hfor.i4.symm.trans h0) hpt', lookup,
      ← hfor.i1, h.ext.foreign hpt hd.symm, if_pos hp]

/-- The frame of a copy is at one page of the destination only. -/
theorem Copying.copy_apart (h : Copying Z k fb d m own M m' o) (hd : d ≠ k)
    (hrootd : own d = .table d []) (hfb : ∀ f, IsFb fb f → Standing m f) {va va' w w' : Nat}
    (hva : va < 2^47) (hva' : va' < 2^47) (hw' : UserLeaf m' d va' w')
    (hnew : ¬ Standing m (frameOf w))
    (hleaf : o (frameOf w) = .leaf d [ptIndex va, pdIndex va, pdptIndex va, pml4Index va])
    (heq : frameOf w' = frameOf w) : va' / pageSize = va / pageSize := by
  cases h.user_leaf hd hrootd hva' hw' with
  | inl hc =>
    obtain ⟨x, hx, hfor, hco⟩ := hc
    by_cases hfx : IsFb fb (frameOf (m.ram x.pt x.i1))
    · rw [← heq, hco.shared hfx] at hnew
      exact absurd (hfb _ hfx) hnew
    · obtain ⟨-, hleaf', -⟩ := hco.fresh hfx
      rw [heq, hleaf] at hleaf'
      simp only [Owner.leaf.injEq, List.cons.injEq, and_true, true_and] at hleaf'
      obtain ⟨e1, e2, e3, e4⟩ := hleaf'
      exact page_of_indices (by omega) (by omega) (hfor.i4.symm.trans e4.symm)
        (hfor.i3.symm.trans e3.symm) (hfor.i2.symm.trans e2.symm) (hfor.i1.symm.trans e1.symm)
  | inr hc =>
    obtain ⟨-, t, -, -, -, hfw⟩ := hc
    rw [heq] at hfw
    exact absurd (hfb _ hfw) hnew

/-- The result of a loop that mapped the leaves in `M`. -/
theorem Copying.cloned_iff (h : Copying Z k fb d m own M m' o) (hm : Owned Z k fb m own)
    (hd : d ≠ k) (hs : s ≠ k) (hsd : s ≠ d) (hrootd : own d = .table d [])
    (hroots : own s = .table s []) (hM : ∀ x ∈ M, x ∈ leaves m.ram s)
    (hfb : ∀ f, IsFb fb f → Standing m f) (htab : ∀ {x q}, own x = .table d q → ¬ IsFb fb x) :
    ClonedTo fb m m' d s ↔ ∀ x ∈ leaves m.ram s, Private s m own x → x ∈ M := by
  constructor
  · intro hC x hx hpriv
    exact h.mapped_private hm hd hs hrootd hM hC hx hpriv
  · intro hall
    have hfrom {va e w : Nat} (hva : va < 2^47) (he : UserLeaf m s va e)
        (hw : UserLeaf m' d va w) := h.made_from hm hd hs hrootd hroots hM hva he hw
    have hcopy {va e w : Nat} (hva : va < 2^47) (he : UserLeaf m s va e)
        (hw : UserLeaf m' d va w) := h.copy_of hm hd hs hrootd hroots hM hva he hw
    have hsrc {va e : Nat} (he : UserLeaf m s va e) := hm.source_standing hfb htab hroots he
    refine ⟨fun va hva => ⟨?_, ?_⟩, ?_, ?_, ?_, ?_, ?_, ?_, ?_⟩
    · rintro ⟨w, hw⟩
      exact h.page_back hm hd hs hrootd hroots hM hva hw
    · rintro ⟨e, he⟩
      exact h.page_there hm hd hrootd hroots hM hall hva he
    · intro va hva e w he hw
      cases hfrom hva he hw with
      | inl hc =>
        obtain ⟨x, -, -, rfl, hco⟩ := hc
        exact hco.flags
      | inr hc => rw [hc.1]
    · intro va hva e w he hw hf
      cases hfrom hva he hw with
      | inl hc =>
        obtain ⟨x, -, -, rfl, hco⟩ := hc
        exact hco.shared hf
      | inr hc => rw [hc.1]
    · intro va hva e w he hw hf
      obtain ⟨hnew, hleaf, hram⟩ := hcopy hva he hw hf
      refine ⟨?_, h.owned.used (by simp [hleaf]), hram⟩
      cases hb : m.pmm.bitmap (frameOf w) with
      | true => exact absurd (Or.inl hb) hnew
      | false => rfl
    · intro va hva va' hva' e w w' he hw hw' hf heq
      obtain ⟨hnew, hleaf, -⟩ := hcopy hva he hw hf
      exact h.copy_apart hd hrootd hfb hva hva' hw' hnew hleaf heq
    · intro va hva e w he hw hf
      obtain ⟨hnew, -, -⟩ := hcopy hva he hw hf
      refine ⟨fun ht => ?_, fun va' _ e' he' heq => ?_⟩
      · obtain ⟨b, q, hb⟩ := hm.table_of_isTable hroots (by simp) ht
        exact hnew (hm.standing (by simp [hb]))
      · rw [← heq] at hnew
        exact hnew (hsrc he').1
    · exact hm.translate_congr hroots fun f b p hf hb => h.ext.foreign hf (by
        cases hb with
        | inl hc => exact hc ▸ hsd
        | inr hc => exact hc ▸ hd.symm)
    · intro va _ e he
      obtain ⟨hstand, hno⟩ := hsrc he
      exact h.keep hstand hno

/-- The loops of `clone_user_pages` are one pass over the leaves of the source. -/
theorem Owned.cloneUserPages_eq (h : Owned Z k fb m own) (hd : d ≠ k) (hs : s ≠ k) (hsd : s ≠ d)
    (hrootd : own d = .table d []) (hroots : own s = .table s []) :
    m.cloneUserPages fb d s =
      Machine.eachOf (Machine.copyRound fb d m.ram) (leaves m.ram s) m := by
  have hne : ∀ {a}, a = s ∨ a = k → a ≠ d := by
    rintro a (rfl | rfl)
    · exact hsd
    · exact hd.symm
  refine h.eachLeaf_eq (I := fun m' => ∃ o, Working Z k fb d m own m' o) hroots ?_ ?_
    ⟨own, Working.refl h d⟩
  · rintro m' ⟨o, hw⟩ t a p ht ha
    exact hw.ext.foreign ht (hne ha)
  · rintro x hx m' ⟨o, hw⟩
    obtain ⟨⟨h4, -⟩, ⟨h3, -⟩, ⟨h2, -⟩, -, h1, hp⟩ := mem_leaves.mp hx
    obtain ⟨a, ha, hpt⟩ := h.leaf_place hroots hx
    have hword : m'.ram x.pt = m.ram x.pt := hw.ext.foreign hpt (hne (ha.imp_right And.left))
    rw [← hword] at hp ⊢
    exact hw.copyLeaf hd hs hrootd h4 h3 h2 h1 ha hpt hp

/-- The loop begins in a new space, which has no page of its own yet. -/
theorem Owned.starts_copying (h₀ : Owned Z k fb m₀ own₀) (hroots : own₀ s = .table s [])
    (hnew : m₀.createAddressSpace k = (d, m)) (hd : d ≠ 0) :
    ∃ own, Copying Z k fb d m own [] m own ∧ d ≠ k ∧ s ≠ d ∧ own d = .table d [] ∧
      own s = .table s [] ∧ (∀ f, Standing m₀ f → Standing m f) ∧
      ∀ {x q}, own x = .table d q → ¬ Standing m₀ x := by
  obtain ⟨f, m₁, own, he, hm, hE, -, hf⟩ := h₀.createAddressSpace_tables
  rw [hnew] at he
  cases he
  obtain ⟨⟨hnone, hrootd⟩, hstand, htab⟩ := hf hd
  have hdk : d ≠ k := fun he => Owner.noConfusion (hnone.symm.trans (he ▸ h₀.kernelRoot))
  have hsd : s ≠ d := fun he => Owner.noConfusion (hnone.symm.trans (he ▸ hroots))
  refine ⟨own, ⟨hm, Ext.refl d m own, id, fun _ => rfl, fun _ _ => rfl, fun _ hq => hq, ?_,
    fun x hx => absurd hx List.not_mem_nil⟩, hdk, hsd, hrootd, hE.keep hroots, fun f hf => hstand hf,
    fun hq => (htab hq).2⟩
  intro t p i ht hp
  exact absurd (htab ht).1 (by omega)

/-- `clone_user_pages` into a new space, when it reports success. -/
theorem clone_user_pages_iff (h₀ : Owned Z k fb m₀ own₀) (hfb : ∀ f, IsFb fb f → Standing m₀ f)
    (hs : s ≠ k) (hroots : own₀ s = .table s []) (hnew : m₀.createAddressSpace k = (d, m))
    (hd : d ≠ 0) (hclone : m.cloneUserPages fb d s = (true, m')) :
    ClonedTo fb m m' d s ↔ m.FbMapped fb d m.ram (leaves m.ram s) := by
  obtain ⟨own, hstart, hdk, hsd, hrootd, hroots', hstand, htab⟩ :=
    h₀.starts_copying hroots hnew hd
  have hm := hstart.owned
  rw [hm.cloneUserPages_eq hdk hs hsd hrootd hroots'] at hclone
  obtain ⟨M, o, hC, hin, -, hiff⟩ := hstart.run hm hdk hs hsd hrootd hroots' (fun _ hx => hx)
    (leaves_nodup m.ram s) (fun _ _ => List.not_mem_nil) hclone
  rw [hiff]
  refine hC.cloned_iff hm hdk hs hsd hrootd hroots' (fun x hx => ?_) (fun f hf => hstand f (hfb f hf))
    fun hq hfbx => htab hq (hfb _ hfbx)
  exact (hin x hx).resolve_left List.not_mem_nil

/-- No mapping of the framebuffer is lost when the allocator still has four frames for each leaf
of the source. -/
theorem Owned.fbMapped_of_supply (h₀ : Owned Z k fb m₀ own₀) (hs : s ≠ k)
    (hroots : own₀ s = .table s []) (hnew : m₀.createAddressSpace k = (d, m)) (hd : d ≠ 0)
    (hsup : m.supplies (4 * (leaves m.ram s).length) = true) :
    m.FbMapped fb d m.ram (leaves m.ram s) := by
  obtain ⟨own, hstart, hdk, hsd, hrootd, hroots', -, -⟩ := h₀.starts_copying hroots hnew hd
  exact hstart.fits_of_supply hstart.owned hdk hs hsd hrootd hroots' (fun _ hx => hx) hsup

end clone

section fewPages

/-- Memory with a kernel table in frame 1 and a space in frame 2 whose first pages are mapped; the
frames from `lo` to `hi` are free. -/
def fewPages (pages : List Nat) (lo hi : Nat) : Machine :=
  ⟨⟨fun i => !(decide (lo ≤ i) && decide (i < hi)), 0, 0, lo⟩, fun t i =>
    if t = 5 then pages[i]?.elim 0 fun f => entry f 7
    else if i = 0 then ([(2, 3), (3, 4), (4, 5)].lookup t).elim 0 fun f => entry f 7 else 0⟩

def fewPagesOwner (pages : List Nat) (x : Nat) : Owner :=
  if x = 1 then .table 1 []
  else if x = 2 then .table 2 []
  else if x = 3 then .table 2 [0]
  else if x = 4 then .table 2 [0, 0]
  else if x = 5 then .table 2 [0, 0, 0]
  else if x = 8 ∧ pages.head? = some 8 then .leaf 2 [0, 0, 0, 0]
  else .none

theorem fewPagesOwner_table {pages : List Nat} {x a : Nat} {q : List Nat}
    (h : fewPagesOwner pages x = .table a q) : (x = 1 ∧ a = 1 ∧ q = []) ∨ (x = 2 ∧ a = 2 ∧ q = []) ∨
      (x = 3 ∧ a = 2 ∧ q = [0]) ∨ (x = 4 ∧ a = 2 ∧ q = [0, 0]) ∨ (x = 5 ∧ a = 2 ∧ q = [0, 0, 0]) := by
  unfold fewPagesOwner at h
  split_ifs at h with h1 h2 h3 h4 h5
  all_goals
    cases h
    simp [*]

theorem fewPages_entry {pages : List Nat} {lo hi t i : Nat}
    (hp : present ((fewPages pages lo hi).ram t i) = true) :
    (i = 0 ∧ ((t = 2 ∧ (fewPages pages lo hi).ram t i = entry 3 7) ∨
      (t = 3 ∧ (fewPages pages lo hi).ram t i = entry 4 7) ∨
      (t = 4 ∧ (fewPages pages lo hi).ram t i = entry 5 7))) ∨
      (t = 5 ∧ ∃ page, pages[i]? = some page ∧ (fewPages pages lo hi).ram t i = entry page 7) := by
  have hzero : ¬ present 0 = true := by decide
  by_cases h5 : t = 5
  · refine Or.inr ⟨h5, ?_⟩
    simp only [fewPages, if_pos h5] at hp ⊢
    cases hpage : pages[i]? with
    | none =>
      rw [hpage] at hp
      exact absurd hp hzero
    | some page => exact ⟨page, rfl, rfl⟩
  refine Or.inl ?_
  by_cases hi0 : i = 0
  · refine ⟨hi0, ?_⟩
    simp only [fewPages, if_neg h5, if_pos hi0, List.lookup] at hp ⊢
    by_cases h2 : t = 2
    · subst h2
      exact Or.inl ⟨rfl, rfl⟩
    by_cases h3 : t = 3
    · subst h3
      exact Or.inr (Or.inl ⟨rfl, rfl⟩)
    by_cases h4 : t = 4
    · subst h4
      exact Or.inr (Or.inr ⟨rfl, rfl⟩)
    · rw [show (t == 2) = false by simpa using h2, show (t == 3) = false by simpa using h3,
        show (t == 4) = false by simpa using h4] at hp
      exact absurd hp hzero
  · simp only [fewPages, if_neg h5, if_neg hi0] at hp
    exact absurd hp hzero

theorem fewPages_owned {fb : Framebuffer} {pages : List Nat} {lo hi : Nat} (hlo : 5 < lo)
    (hle : lo ≤ totalPagesMax)
    (hpages : ∀ i page, pages[i]? = some page → IsFb fb page ∨ i = 0 ∧ page = 8)
    (h8 : pages.head? = some 8 → 8 < lo) :
    Owned False 1 fb (fewPages pages lo hi) (fewPagesOwner pages) := by
  have hfr : ∀ f, frameOf (entry f 7) = f := fun f => frameOf_entry (by norm_num)
  have hpr : ∀ f, present (entry f 7) = true := fun f => by rw [present_entry]; rfl
  refine ⟨hle, ?_, rfl, rfl, ?_, ?_, ?_, ?_, ?_, ?_, ?_, ?_, ?_⟩
  · intro x hx
    have hlt : x < lo := by
      unfold fewPagesOwner at hx
      split_ifs at hx with h1 h2 h3 h4 h5 h6
      · omega
      · omega
      · omega
      · omega
      · omega
      · rw [h6.1]
        exact h8 h6.2
      · exact absurd rfl hx
    simp only [fewPages]
    simp
    omega
  · intro x a hx
    rcases fewPagesOwner_table hx with h | h | h | h | h
    · exact h.1.trans h.2.1.symm
    · exact h.1.trans h.2.1.symm
    · exact absurd h.2.2 (by simp)
    · exact absurd h.2.2 (by simp)
    · exact absurd h.2.2 (by simp)
  · intro x a q hx
    rcases fewPagesOwner_table hx with h | h | h | h | h
    all_goals
      rw [h.2.2]
      simp
  · intro x a j q hx
    rcases fewPagesOwner_table hx with
      ⟨rfl, rfl, hq⟩ | ⟨rfl, rfl, hq⟩ | ⟨rfl, rfl, hq⟩ | ⟨rfl, rfl, hq⟩ | ⟨rfl, rfl, hq⟩
    · cases hq
    · cases hq
    · cases hq
      exact ⟨2, rfl, hpr 3, hfr 3⟩
    · cases hq
      exact ⟨3, rfl, hpr 4, hfr 4⟩
    · cases hq
      exact ⟨4, rfl, hpr 5, hfr 5⟩
  · intro g a p j hg hlen hp
    rcases fewPages_entry hp with ⟨rfl, hent⟩ | ⟨rfl, -⟩
    · rcases hent with ⟨rfl, he⟩ | ⟨rfl, he⟩ | ⟨rfl, he⟩
      · rw [he, hfr]
        cases hg
        exact Or.inl rfl
      · rw [he, hfr]
        cases hg
        exact Or.inl rfl
      · rw [he, hfr]
        cases hg
        exact Or.inl rfl
    · cases hg
      simp at hlen
  · intro g a p j hg hlen hp hu
    rcases fewPages_entry hp with ⟨rfl, hent⟩ | ⟨rfl, page, hpage, he⟩
    · rcases hent with ⟨rfl, he⟩ | ⟨rfl, he⟩ | ⟨rfl, he⟩
      · cases hg
        simp at hlen
      · cases hg
        simp at hlen
      · cases hg
        simp at hlen
    · rw [he, hfr]
      cases hg
      rcases hpages j page hpage with h | ⟨rfl, rfl⟩
      · exact Or.inl h
      · have hhead : pages.head? = some 8 := by rw [List.head?_eq_getElem?, hpage]
        refine Or.inr ⟨by decide, Or.inr ?_⟩
        simp [fewPagesOwner, hhead]
  · intro g p j l hg hlen
    rcases fewPagesOwner_table hg with h | h | h | h | h
    · rw [h.2.2] at hlen
      simp at hlen
    · exact absurd h.2.1 (by decide)
    · exact absurd h.2.1 (by decide)
    · exact absurd h.2.1 (by decide)
    · exact absurd h.2.1 (by decide)
  · intro g a x j ha hg hx
    rcases fewPagesOwner_table hx with h | h | h | h | h
    · exact absurd h.2.2 (by simp)
    · exact absurd h.2.2 (by simp)
    · exact absurd h.2.1 (by decide)
    · exact absurd h.2.1 (by decide)
    · exact absurd h.2.1 (by decide)
  · intro a ha hx
    rcases fewPagesOwner_table hx with h | h | h | h | h
    · exact absurd h.2.1 ha
    · rw [h.1]
      exact hpr 3
    · exact absurd h.2.2 (by simp)
    · exact absurd h.2.2 (by simp)
    · exact absurd h.2.2 (by simp)
  · intro _
    have hzero : frameOf 0 = 0 := by decide
    exact hzero

def smallFramebuffer : Framebuffer := ⟨0xfd000000, 4096, by decide⟩

theorem smallFramebuffer_frame : IsFb smallFramebuffer 0xfd000 := by
  unfold IsFb
  decide

theorem smallFramebuffer_standing {pages : List Nat} {lo hi : Nat} (hhi : hi ≤ 0xfd000) :
    ∀ f, IsFb smallFramebuffer f → Standing (fewPages pages lo hi) f := by
  intro f hf
  have hphys : smallFramebuffer.phys = 0xfd000000 := by decide
  unfold IsFb Framebuffer.isFbPhysAddress at hf
  rw [hphys, Bool.and_eq_true, Bool.and_eq_true] at hf
  have hle : 0xfd000000 ≤ f * 4096 := of_decide_eq_true hf.1.2
  have hfar : ¬ f < hi := by omega
  refine Or.inl ?_
  simp [fewPages, hfar]

theorem twoPages_owned : Owned False 1 smallFramebuffer (fewPages [8, 0xfd000] 9 20)
    (fewPagesOwner [8, 0xfd000]) := by
  refine fewPages_owned (by decide) (by decide) (fun i page h => ?_) fun _ => by decide
  match i with
  | 0 => exact Or.inr ⟨rfl, (Option.some.inj h).symm⟩
  | 1 => exact Or.inl (Option.some.inj h ▸ smallFramebuffer_frame)
  | i+2 => cases h

theorem twoPages_mapped {m : Machine}
    (hc : (fewPages [8, 0xfd000] 9 20).createAddressSpace 1 = (9, m)) :
    m.FbMapped smallFramebuffer 9 m.ram (leaves m.ram 2) := by
  refine twoPages_owned.fbMapped_of_supply (by decide) rfl hc (by decide) ?_
  obtain rfl : ((fewPages [8, 0xfd000] 9 20).createAddressSpace 1).2 = m := by rw [hc]
  decide +kernel

/-- A page of memory is copied and a page of the framebuffer is shared. -/
theorem clone_user_pages_iff_two_pages : ∃ m m',
    (fewPages [8, 0xfd000] 9 20).createAddressSpace 1 = (9, m) ∧
    m.cloneUserPages smallFramebuffer 9 2 = (true, m') ∧ ClonedTo smallFramebuffer m m' 9 2 := by
  have hroot : ((fewPages [8, 0xfd000] 9 20).createAddressSpace 1).1 = 9 := by decide
  have hok : (((fewPages [8, 0xfd000] 9 20).createAddressSpace 1).2.cloneUserPages smallFramebuffer
      9 2).1 = true := by decide +kernel
  cases hc : (fewPages [8, 0xfd000] 9 20).createAddressSpace 1 with
  | mk d m =>
    rw [hc] at hroot hok
    obtain rfl : d = 9 := hroot
    cases hm : m.cloneUserPages smallFramebuffer 9 2 with
    | mk ok m' =>
      have hok' : (m.cloneUserPages smallFramebuffer 9 2).1 = true := hok
      rw [hm] at hok'
      obtain rfl : ok = true := hok'
      exact ⟨m, m', rfl, hm, (clone_user_pages_iff twoPages_owned
        (smallFramebuffer_standing (by decide)) (by decide) rfl hc (by decide) hm).mpr
          (twoPages_mapped hc)⟩

/-- The two frames that are free become the new space; there is none left for the tables above
the framebuffer page. -/
theorem framebuffer_page_lost : ¬ ∀ (Z : Prop) (k s d : Nat) (fb : Framebuffer)
    (m₀ m m' : Machine) (own₀ : Nat → Owner), Owned Z k fb m₀ own₀ →
    (∀ f, IsFb fb f → Standing m₀ f) → s ≠ k → own₀ s = .table s [] →
    m₀.createAddressSpace k = (d, m) → d ≠ 0 → m.cloneUserPages fb d s = (true, m') →
    ClonedTo fb m m' d s := by
  intro hall
  have hfb := smallFramebuffer_frame
  have hO : Owned False 1 smallFramebuffer (fewPages [0xfd000] 6 8) (fewPagesOwner [0xfd000]) := by
    refine fewPages_owned (by decide) (by decide) (fun i page h => Or.inl ?_) (by decide)
    obtain ⟨-, rfl⟩ := List.getElem?_eq_some_iff.mp h
    simpa using hfb
  have hreserved : ∀ f, IsFb smallFramebuffer f → Standing (fewPages [0xfd000] 6 8) f :=
    smallFramebuffer_standing (by decide)
  have hroot : ((fewPages [0xfd000] 6 8).createAddressSpace 1).1 = 6 := by decide
  have hpmm : ((fewPages [0xfd000] 6 8).createAddressSpace 1).2.pmm =
      ((fewPages [0xfd000] 6 8).pmm.take 6).take 7 := rfl
  have hwords : ((fewPages [0xfd000] 6 8).createAddressSpace 1).2.ram 6 0 = entry 7 7 ∧
      ((fewPages [0xfd000] 6 8).createAddressSpace 1).2.ram 7 0 = 0 ∧
      ((fewPages [0xfd000] 6 8).createAddressSpace 1).2.ram 5 0 = entry 0xfd000 7 ∧
      leafEntry ((fewPages [0xfd000] 6 8).createAddressSpace 1).2.ram 2 0 = some (entry 0xfd000 7) ∧
      (leaves ((fewPages [0xfd000] 6 8).createAddressSpace 1).2.ram 2).map
        (fun x => (x.i4, x.i3, x.i2, x.i1, x.pt)) = [(0, 0, 0, 0, 5)] := by decide +kernel
  obtain ⟨d, m, own, hc, hm, hE, -, hd⟩ := hO.createAddressSpace_tables
  rw [hc] at hroot hpmm hwords
  obtain rfl : d = 6 := hroot
  obtain ⟨hw6, hw7, hw5, hleaf, hleaves⟩ : m.ram 6 0 = entry 7 7 ∧ m.ram 7 0 = 0 ∧
    m.ram 5 0 = entry 0xfd000 7 ∧ leafEntry m.ram 2 0 = some (entry 0xfd000 7) ∧
    (leaves m.ram 2).map (fun x => (x.i4, x.i3, x.i2, x.i1, x.pt)) = [(0, 0, 0, 0, 5)] := hwords
  obtain ⟨⟨hnone, hroot6⟩, -, -⟩ := hd (by decide)
  have hleaves' : leaves m.ram 2 = [⟨0, 0, 0, 0, 5⟩] := by
    obtain ⟨x, xs, hxs, hx, hnil⟩ := List.map_eq_cons_iff.mp hleaves
    rw [hxs, List.map_eq_nil_iff.mp hnil]
    obtain ⟨i4, i3, i2, i1, pt⟩ := x
    cases hx
    rfl
  -- no frame is left
  obtain ⟨pmm, -, -, hnull⟩ := ((m.store 6 0 (m.ram 6 0 ||| 7)).allocPage_cases
      (by rw [store_pmm]; exact hm.cursor)).resolve_left (by
    rintro ⟨f, -, -, hb, -⟩
    have hb' : m.pmm.bitmap f = false := hb
    rw [hpmm, take_bitmap, take_bitmap] at hb'
    split_ifs at hb' with h7 h6
    simp only [fewPages] at hb'
    simp at hb'
    omega)
  have hpresent : present (m.ram 6 0) = true := by
    rw [hw6]
    decide
  have hempty : (m.store 6 0 (m.ram 6 0 ||| 7)).ram 7 0 = 0 := by
    rw [store_frame _ _ _ (by decide), hw7]
  have hmap : m.mapPage 6 0 0xfd000 7 = (false, ⟨pmm, (m.store 6 0 (m.ram 6 0 ||| 7)).ram⟩) := by
    have hd₁ : m.descend 6 0 7 = (some 7, m.store 6 0 (m.ram 6 0 ||| 7)) := by
      have hseven : frameOf (m.ram 6 0) = 7 := by
        rw [hw6]
        decide
      simp only [Machine.descend, hpresent, if_true, hseven]
    have hd₂ : (m.store 6 0 (m.ram 6 0 ||| 7)).descend 7 0 7 =
        (none, ⟨pmm, (m.store 6 0 (m.ram 6 0 ||| 7)).ram⟩) := by
      simp only [Machine.descend, hempty, present_zero, Bool.false_eq_true, if_false, hnull, if_true]
    have hidx : pml4Index 0 = 0 ∧ pdptIndex 0 = 0 ∧ user 7 = true := by decide
    simp only [Machine.mapPage, Machine.tableFor, Machine.descendAll, hidx, if_true, hd₁, hd₂]
  have hclone : m.cloneUserPages smallFramebuffer 6 2 =
      (true, ⟨pmm, (m.store 6 0 (m.ram 6 0 ||| 7)).ram⟩) := by
    rw [hm.cloneUserPages_eq (by decide) (by decide) (by decide) hroot6 (hE.keep rfl), hleaves']
    have hentry : user (entry 0xfd000 7) = true ∧ frameOf (entry 0xfd000 7) = 0xfd000 ∧
        flagsOf (entry 0xfd000 7) = 7 ∧ vaOf 0 0 0 0 = 0 := by decide
    have hfb' : smallFramebuffer.isFbPhysAddress (0xfd000 * pageSize) = true := hfb
    simp only [Machine.eachOf, Machine.copyRound, Machine.copyLeaf, hw5, hentry, hfb', if_true, hmap]
  have hcloned := hall False 1 2 6 smallFramebuffer _ m _ _ hO hreserved (by decide) rfl hc
    (by decide) hclone
  obtain ⟨w, hw, -⟩ := (hcloned.pages 0 (by decide)).mpr ⟨_, hleaf, by decide⟩
  have hw6' : (m.store 6 0 (m.ram 6 0 ||| 7)).ram 6 0 = entry 7 7 := by
    rw [store_same, hw6]
    decide
  have hlook : leafEntry (m.store 6 0 (m.ram 6 0 ||| 7)).ram 6 0 = none := by
    have hidx : pml4Index 0 = 0 ∧ pdptIndex 0 = 0 := by decide
    have hseven : present (entry 7 7) = true ∧ frameOf (entry 7 7) = 7 := by decide
    simp only [leafEntry, lookup, hidx, hw6', hseven, if_true, Option.bind_eq_bind,
      Option.bind_some, hempty, present_zero, Bool.false_eq_true, if_false, Option.bind_none]
  rw [hlook] at hw
  cases hw

end fewPages

end LosTacOS.Mm
