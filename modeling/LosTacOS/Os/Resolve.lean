import LosTacOS.Os.WellFormed

/-! Paths and the nodes they stand for. `Resolves` says what a path means, component by component. -/
namespace LosTacOS.Os

namespace Kernel

variable {env : Env} {k : Kernel} {n m c d : Nat} {s : List Char} {ps : List (List Char)}

def Plain (s : List Char) : Prop := s ≠ [] ∧ s ≠ ['.'] ∧ s ≠ ['.', '.']

instance (s : List Char) : Decidable (Plain s) := inferInstanceAs (Decidable (_ ∧ _))

structure Child (k : Kernel) (n : Nat) (s : List Char) (c : Nat) : Prop where
  mem : c ∈ (k.node n).children
  name : (k.node c).name = s

def linkStart (k : Kernel) (c : Nat) : Nat :=
  if (k.node c).symlink.head? = some '/' then k.root else (k.node c).parent.getD k.root

inductive Met where
  | link (n : Nat)
  | miss (n : Nat)

/-- The node that components stand for, from a node on, and what is met on the way. -/
inductive Resolves (k : Kernel) : Nat → List (List Char) → Option Nat → List Met → Prop
  | done {n : Nat} : Resolves k n [] (some n) []
  | skip {n : Nat} {s : List Char} {ps : List (List Char)} {r : Option Nat} {t : List Met} :
      s = [] ∨ s = ['.'] → Resolves k n ps r t → Resolves k n (s :: ps) r t
  | up {n : Nat} {ps : List (List Char)} {r : Option Nat} {t : List Met} :
      Resolves k ((k.node n).parent.getD n) ps r t → Resolves k n (['.', '.'] :: ps) r t
  | miss {n : Nat} {s : List Char} {ps : List (List Char)} :
      Plain s → (∀ c, ¬ k.Child n s c) → Resolves k n (s :: ps) none [.miss n]
  | child {n : Nat} {s : List Char} {ps : List (List Char)} {c : Nat} {r : Option Nat}
      {t : List Met} : Plain s → k.Child n s c → (k.node c).type ≠ .symlink →
      Resolves k c ps r t → Resolves k n (s :: ps) r t
  | link {n : Nat} {s : List Char} {ps : List (List Char)} {c m : Nat} {r : Option Nat}
      {t t' : List Met} : Plain s → k.Child n s c → (k.node c).type = .symlink →
      Resolves k (k.linkStart c) ((k.node c).symlink.splitOn '/') (some m) t →
      Resolves k m ps r t' → Resolves k n (s :: ps) r (.link c :: t ++ t')
  | broken {n : Nat} {s : List Char} {ps : List (List Char)} {c : Nat} {t : List Met} :
      Plain s → k.Child n s c → (k.node c).type = .symlink →
      Resolves k (k.linkStart c) ((k.node c).symlink.splitOn '/') none t →
      Resolves k n (s :: ps) none (.link c :: t)

inductive Route (k : Kernel) : Nat → List (List Char) → Prop
  | root : Route k k.root []
  | child {d c : Nat} {ns : List (List Char)} : Route k d ns → c ∈ (k.node d).children →
      Route k c (ns ++ [(k.node c).name])

/-- The text of a link as a path from the root, `ns` being the route to its directory. -/
def expansion (k : Kernel) (c : Nat) (ns : List (List Char)) : List Char :=
  if (k.node c).symlink.head? = some '/' then (k.node c).symlink
  else ns.flatMap (fun s => '/' :: s) ++ '/' :: (k.node c).symlink

theorem findIn_of_nodup (hd : ((k.node n).children.map fun c => (k.node c).name).Nodup)
    (hc : k.Child n s c) : k.findIn n s = some c := by
  cases hf : k.findIn n s with
  | none => exact absurd (decide_eq_true hc.name) (List.find?_eq_none.mp hf c hc.mem)
  | some d =>
    obtain ⟨hm, hname⟩ := findIn_child hf
    rw [List.inj_on_of_nodup_map hd hm hc.mem (hname.trans hc.name.symm)]

section wellFormed

variable (h : WellFormed k)
include h

theorem WellFormed.linked {n : Nat} (hn : n ∈ k.nodes.used) : k.Linked n := by
  obtain ⟨j, hj⟩ := h.climbs n hn
  induction j generalizing n with
  | zero =>
    have he : n = k.root := hj
    rw [he]
    exact .refl
  | succ j ih =>
    by_cases hr : n = k.root
    · rw [hr]
      exact .refl
    · obtain ⟨d, hd, hp, hc, _⟩ := h.once n hn hr
      have hup : k.climb n = d := by
        unfold climb
        rw [hp]
        rfl
      rw [Function.iterate_succ_apply, hup] at hj
      exact Under.child (ih hd hj) (List.count_pos_iff.mp (by omega))

theorem WellFormed.used_of_linked {n : Nat} (hn : k.Linked n) : n ∈ k.nodes.used := by
  induction hn with
  | refl => exact h.root
  | child _ hm ih => exact h.children _ ih _ hm

theorem WellFormed.parent_of_child {n c : Nat} (hn : n ∈ k.nodes.used)
    (hc : c ∈ (k.node n).children) : (k.node c).parent = some n ∧ c ≠ k.root := by
  have hr : c ≠ k.root := fun he => h.top.2 n hn (he ▸ hc)
  obtain ⟨d, _, hp, _, honly⟩ := h.once c (h.children n hn c hc) hr
  rw [honly n hn hc]
  exact ⟨hp, hr⟩

theorem WellFormed.parent_used {n d : Nat} (hn : n ∈ k.nodes.used)
    (hp : (k.node n).parent = some d) : d ∈ k.nodes.used := by
  by_cases hr : n = k.root
  · rw [hr, h.top.1] at hp
    cases hp
  · obtain ⟨e, he, hpe, _⟩ := h.once n hn hr
    rw [hpe] at hp
    cases hp
    exact he

theorem WellFormed.up_used {n : Nat} (hn : n ∈ k.nodes.used) :
    (k.node n).parent.getD n ∈ k.nodes.used := by
  cases hp : (k.node n).parent with
  | none => exact hn
  | some d => exact h.parent_used hn hp

theorem WellFormed.linkStart_used {c : Nat} (hc : c ∈ k.nodes.used) :
    k.linkStart c ∈ k.nodes.used := by
  unfold linkStart
  split
  · exact h.root
  · cases hp : (k.node c).parent with
    | none => exact h.root
    | some d => exact h.parent_used hc hp

theorem WellFormed.child_unique {n c d : Nat} {s : List Char} (hn : n ∈ k.nodes.used)
    (hc : k.Child n s c) (hd : k.Child n s d) : d = c := by
  exact List.inj_on_of_nodup_map (h.siblings n hn) hd.mem hc.mem (hd.name.trans hc.name.symm)

theorem WellFormed.findIn_eq {n c : Nat} {s : List Char} (hn : n ∈ k.nodes.used)
    (hc : k.Child n s c) : k.findIn n s = some c :=
  findIn_of_nodup (h.siblings n hn) hc

end wellFormed

theorem findIn_none (hc : ∀ c, ¬ k.Child n s c) : k.findIn n s = none := by
  refine List.find?_eq_none.mpr fun c hm hname => ?_
  exact hc c ⟨hm, of_decide_eq_true hname⟩

section reference

variable {r r' : Option Nat} {t t' : List Met}

theorem Resolves.used (h : WellFormed k) (hr : k.Resolves n ps r t) (hn : n ∈ k.nodes.used) :
    ∀ m, r = some m → m ∈ k.nodes.used := by
  induction hr with
  | done =>
    intro m hm
    cases hm
    exact hn
  | skip _ _ ih => exact ih hn
  | up _ ih => exact ih (h.up_used hn)
  | miss => exact nofun
  | child _ hc _ _ ih => exact ih (h.children _ hn _ hc.mem)
  | link _ hc _ _ _ ih1 ih2 =>
    exact ih2 (ih1 (h.linkStart_used (h.children _ hn _ hc.mem)) _ rfl)
  | broken => exact nofun

theorem Resolves.plain_cases (hp : Plain s) (hr : k.Resolves n (s :: ps) r t) :
    ((∀ c, ¬ k.Child n s c) ∧ r = none ∧ t = [.miss n]) ∨ ∃ c, k.Child n s c ∧
      (((k.node c).type ≠ .symlink ∧ k.Resolves c ps r t) ∨ ((k.node c).type = .symlink ∧
        ∃ r' t', k.Resolves (k.linkStart c) ((k.node c).symlink.splitOn '/') r' t' ∧
          ((r' = none ∧ r = none ∧ t = .link c :: t') ∨
            ∃ m t'', r' = some m ∧ k.Resolves m ps r t'' ∧ t = .link c :: t' ++ t''))) := by
  cases hr with
  | skip hs _ => exact absurd hs (not_or.mpr ⟨hp.1, hp.2.1⟩)
  | up _ => exact absurd rfl hp.2.2
  | miss _ hno => exact Or.inl ⟨hno, rfl, rfl⟩
  | child _ hc hl hr => exact Or.inr ⟨_, hc, Or.inl ⟨hl, hr⟩⟩
  | link _ hc hl h1 h2 => exact Or.inr ⟨_, hc, Or.inr ⟨hl, _, _, h1, Or.inr ⟨_, _, rfl, h2, rfl⟩⟩⟩
  | broken _ hc hl h1 => exact Or.inr ⟨_, hc, Or.inr ⟨hl, _, _, h1, Or.inl ⟨rfl, rfl, rfl⟩⟩⟩

theorem Resolves.unique (h : WellFormed k) (hr : k.Resolves n ps r t) (hn : n ∈ k.nodes.used)
    (hr' : k.Resolves n ps r' t') : r' = r ∧ t' = t := by
  induction hr generalizing r' t' with
  | done =>
    cases hr'
    exact ⟨rfl, rfl⟩
  | skip hs _ ih =>
    cases hr' with
    | skip _ hr' => exact ih hn hr'
    | up _ => simp at hs
    | miss hp _ => exact absurd hs (not_or.mpr ⟨hp.1, hp.2.1⟩)
    | child hp _ _ _ => exact absurd hs (not_or.mpr ⟨hp.1, hp.2.1⟩)
    | link hp _ _ _ _ => exact absurd hs (not_or.mpr ⟨hp.1, hp.2.1⟩)
    | broken hp _ _ _ => exact absurd hs (not_or.mpr ⟨hp.1, hp.2.1⟩)
  | up _ ih =>
    cases hr' with
    | skip hs _ => simp at hs
    | up hr' => exact ih (h.up_used hn) hr'
    | miss hp _ => exact absurd rfl hp.2.2
    | child hp _ _ _ => exact absurd rfl hp.2.2
    | link hp _ _ _ _ => exact absurd rfl hp.2.2
    | broken hp _ _ _ => exact absurd rfl hp.2.2
  | miss hp hno =>
    obtain ⟨_, hr, ht⟩ | ⟨c, hc, _⟩ := hr'.plain_cases hp
    · exact ⟨hr, ht⟩
    · exact absurd hc (hno c)
  | child hp hc hl _ ih =>
    obtain ⟨hno, _⟩ | ⟨d, hd, hr'⟩ := hr'.plain_cases hp
    · exact absurd hc (hno _)
    · cases h.child_unique hn hc hd
      cases hr' with
      | inl hr' => exact ih (h.children _ hn _ hc.mem) hr'.2
      | inr hr' => exact absurd hr'.1 hl
  | link hp hc hl hin _ ih1 ih2 =>
    have hstart := h.linkStart_used (h.children _ hn _ hc.mem)
    obtain ⟨hno, _⟩ | ⟨d, hd, hr'⟩ := hr'.plain_cases hp
    · exact absurd hc (hno _)
    · cases h.child_unique hn hc hd
      obtain ⟨hl', _⟩ | ⟨_, r1, t1, h1, h2⟩ := hr'
      · exact absurd hl hl'
      · obtain ⟨he, rfl⟩ := ih1 hstart h1
        obtain ⟨hnone, _⟩ | ⟨m, t2, hm, h2, rfl⟩ := h2
        · rw [hnone] at he
          cases he
        · rw [hm] at he
          cases he
          obtain ⟨rfl, rfl⟩ := ih2 (hin.used h hstart _ rfl) h2
          exact ⟨rfl, rfl⟩
  | broken hp hc hl _ ih =>
    have hstart := h.linkStart_used (h.children _ hn _ hc.mem)
    obtain ⟨hno, _⟩ | ⟨d, hd, hr'⟩ := hr'.plain_cases hp
    · exact absurd hc (hno _)
    · cases h.child_unique hn hc hd
      obtain ⟨hl', _⟩ | ⟨_, r1, t1, h1, h2⟩ := hr'
      · exact absurd hl hl'
      · obtain ⟨he, rfl⟩ := ih hstart h1
        obtain ⟨_, rfl, rfl⟩ | ⟨m, t2, hm, _⟩ := h2
        · exact ⟨rfl, rfl⟩
        · rw [hm] at he
          cases he

/-- Every link has an expansion: following links never comes back to one of them. -/
def Expands (k : Kernel) : Prop := ∀ c ∈ k.nodes.used, (k.node c).type = .symlink →
  ∃ r t, k.Resolves (k.linkStart c) ((k.node c).symlink.splitOn '/') r t

theorem Expands.resolves (he : Expands k) (h : WellFormed k) (ps : List (List Char))
    (hn : n ∈ k.nodes.used) : ∃ r t, k.Resolves n ps r t := by
  induction ps generalizing n with
  | nil => exact ⟨some n, [], .done⟩
  | cons s ps ih =>
    by_cases hs : s = [] ∨ s = ['.']
    · obtain ⟨r, t, hr⟩ := ih hn
      exact ⟨r, t, .skip hs hr⟩
    by_cases hup : s = ['.', '.']
    · obtain ⟨r, t, hr⟩ := ih (h.up_used hn)
      rw [hup]
      exact ⟨r, t, .up hr⟩
    have hp : Plain s := ⟨fun h0 => hs (Or.inl h0), fun h0 => hs (Or.inr h0), hup⟩
    by_cases hc : ∃ c, k.Child n s c
    · obtain ⟨c, hc⟩ := hc
      have hcu := h.children n hn c hc.mem
      by_cases hl : (k.node c).type = .symlink
      · obtain ⟨r1, t1, h1⟩ := he c hcu hl
        cases r1 with
        | none => exact ⟨none, _, .broken hp hc hl h1⟩
        | some m =>
          obtain ⟨r2, t2, h2⟩ := ih (h1.used h (h.linkStart_used hcu) m rfl)
          exact ⟨r2, _, .link hp hc hl h1 h2⟩
      · obtain ⟨r, t, hr⟩ := ih hcu
        exact ⟨r, t, .child hp hc hl hr⟩
    · exact ⟨none, _, .miss hp (not_exists.mp hc)⟩

/-- No link has children, as it would after `symlink` on an existing directory. -/
def LeafLinks (k : Kernel) : Prop :=
  ∀ n ∈ k.nodes.used, (k.node n).type = .symlink → (k.node n).children = []

instance (k : Kernel) : Decidable (LeafLinks k) := inferInstanceAs (Decidable (∀ _ ∈ _, _))

theorem LeafLinks.of_child (hl : LeafLinks k) (hn : n ∈ k.nodes.used)
    (hc : c ∈ (k.node n).children) : (k.node n).type ≠ .symlink := by
  intro ht
  rw [hl n hn ht] at hc
  cases hc

theorem LeafLinks.root (hl : LeafLinks k) (h : WellFormed k) (hc : k.Linked c) (hr : c ≠ k.root) :
    (k.node k.root).type ≠ .symlink := by
  induction hc with
  | refl => exact absurd rfl hr
  | child _ hm ih =>
    rename_i d c _
    by_cases hd : d = k.root
    · rw [hd] at hm
      exact hl.of_child h.root hm
    · exact ih hd

theorem LeafLinks.linkStart (hl : LeafLinks k) (h : WellFormed k) (hn : n ∈ k.nodes.used)
    (hc : c ∈ (k.node n).children) : (k.node (k.linkStart c)).type ≠ .symlink := by
  obtain ⟨hp, hr⟩ := h.parent_of_child hn hc
  unfold Kernel.linkStart
  split
  · exact hl.root h (h.linked (h.children n hn c hc)) hr
  · rw [hp]
    exact hl.of_child hn hc

theorem Resolves.not_link (hl : LeafLinks k) (h : WellFormed k) (hr : k.Resolves n ps r t)
    (hn : n ∈ k.nodes.used) (hnl : (k.node n).type ≠ .symlink) :
    ∀ m, r = some m → (k.node m).type ≠ .symlink := by
  induction hr with
  | done =>
    intro m hm
    cases hm
    exact hnl
  | skip _ _ ih => exact ih hn hnl
  | up _ ih =>
    rename_i n _ _ _ _
    refine ih (h.up_used hn) ?_
    cases hp : (k.node n).parent with
    | none => exact hnl
    | some d =>
      by_cases hroot : n = k.root
      · rw [hroot, h.top.1] at hp
        cases hp
      · obtain ⟨e, he, hpe, hcount, _⟩ := h.once n hn hroot
        rw [hp] at hpe
        cases hpe
        have hm : n ∈ (k.node d).children := List.count_pos_iff.mp (by omega)
        exact hl.of_child he hm
  | miss => exact nofun
  | child _ hc hnc _ ih => exact ih (h.children _ hn _ hc.mem) hnc
  | link _ hc _ hin _ ih1 ih2 =>
    have hstart := h.linkStart_used (h.children _ hn _ hc.mem)
    exact ih2 (hin.used h hstart _ rfl) (ih1 hstart (hl.linkStart h hn hc.mem) _ rfl)
  | broken => exact nofun

end reference

end Kernel

end LosTacOS.Os
