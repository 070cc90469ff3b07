import LosTacOS.Os.Linked
import Mathlib.Data.List.TakeWhile
import Mathlib.Logic.Function.Iterate

/-! The tree of nodes is well formed as long as each new node gets a good name that its siblings do
not have, below a directory. -/
namespace LosTacOS.Os

/-- A name that a path can have as a component and that is not skipped or taken for the parent. -/
def GoodName (s : List Char) : Prop := s ≠ [] ∧ s ≠ ['.'] ∧ s ≠ ['.', '.'] ∧ '/' ∉ s

instance (s : List Char) : Decidable (GoodName s) := inferInstanceAs (Decidable (_ ∧ _))

def Dotless (s : List Char) : Prop := s ≠ ['.'] ∧ s ≠ ['.', '.']

instance (s : List Char) : Decidable (Dotless s) := inferInstanceAs (Decidable (_ ∧ _))

theorem parts_noSlash {n : Nat} {path : List Char} {p : List Char × Option (List Char)}
    (h : p ∈ parts n path) : '/' ∉ p.1 := by
  induction n generalizing path with
  | zero => cases h
  | succ n ih =>
    unfold parts at h
    split at h
    · rename_i hd
      rw [List.mem_singleton] at h
      rw [h]
      intro hm
      have hall := List.dropWhile_eq_nil_iff.mp hd _ hm
      simp at hall
    · cases List.mem_cons.mp h with
      | inl hp =>
        rw [hp]
        intro hm
        have := List.mem_takeWhile_imp hm
        simp at this
      | inr hp => exact ih hp

/-- The components of a path are good names but for dots. -/
theorem components_good {path s : List Char} (h : s ∈ components path) (hd : Dotless s) :
    GoodName s := by
  unfold components at h
  rw [List.mem_filter, List.mem_map] at h
  obtain ⟨⟨p, hp, hcut⟩, hne⟩ := h
  refine ⟨of_decide_eq_true hne, hd.1, hd.2, fun hm => parts_noSlash hp ?_⟩
  rw [← hcut] at hm
  exact List.mem_of_mem_take hm

namespace Kernel

variable {env : Env} {k k' : Kernel} {n m d c dir : Nat} {name : List Char} {x : Bool}

def climb (k : Kernel) (n : Nat) : Nat := (k.node n).parent.getD n

/-- What lookups, removal and `get_path` rely on. The name of the root is no component. -/
structure WellFormed (k : Kernel) : Prop where
  root : k.root ∈ k.nodes.used
  top : (k.node k.root).parent = none ∧ ∀ n ∈ k.nodes.used, k.root ∉ (k.node n).children
  once : ∀ n ∈ k.nodes.used, n ≠ k.root → ∃ d ∈ k.nodes.used, (k.node n).parent = some d ∧
    (k.node d).children.count n = 1 ∧ ∀ e ∈ k.nodes.used, n ∈ (k.node e).children → e = d
  children : ∀ n ∈ k.nodes.used, ∀ c ∈ (k.node n).children, c ∈ k.nodes.used
  climbs : ∀ n ∈ k.nodes.used, ∃ j, k.climb^[j] n = k.root
  dirs : ∀ n ∈ k.nodes.used, (k.node n).children ≠ [] → (k.node n).directory = true
  siblings : ∀ n ∈ k.nodes.used, ((k.node n).children.map fun c => (k.node c).name).Nodup
  names : ∀ n ∈ k.nodes.used, n ≠ k.root → GoodName (k.node n).name

structure Planted (k : Kernel) : Prop extends Rooted k where
  all : ∀ n ∈ k.nodes.used, k.Linked n
  dirs : ∀ n, k.Linked n → (k.node n).children ≠ [] → (k.node n).directory = true
  siblings : ∀ n, k.Linked n → ((k.node n).children.map fun c => (k.node c).name).Nodup
  names : ∀ n, k.Linked n → n ≠ k.root → GoodName (k.node n).name
  home : k.getProcessCwd = k.root

theorem Rooted.climbs (h : Rooted k) (hn : k.Linked n) : ∃ j, k.climb^[j] n = k.root := by
  induction hn with
  | refl => exact ⟨0, rfl⟩
  | child hd hc ih =>
    rename_i d c
    obtain ⟨j, hj⟩ := ih
    have hup : k.climb c = d := by
      unfold climb
      rw [h.up hd hc]
      rfl
    refine ⟨j + 1, ?_⟩
    rw [Function.iterate_succ_apply, hup]
    exact hj

theorem Planted.wellFormed (h : Planted k) : WellFormed k where
  root := h.used .refl
  top := by
    refine ⟨h.toRooted.top, fun n hn hc => ?_⟩
    have hup := h.up (h.all n hn) hc
    rw [h.toRooted.top] at hup
    cases hup
  once n hn hr := by
    obtain ⟨d, hp, hd, hc⟩ := h.parent (h.all n hn) hr
    refine ⟨d, h.used hd, hp, List.count_eq_one_of_mem (h.nodup hd) hc, fun e he hce => ?_⟩
    have hpe := h.up (h.all e he) hce
    rw [hp] at hpe
    exact (Option.some.inj hpe).symm
  children n hn c hc := h.used (Under.child (h.all n hn) hc)
  climbs n hn := h.climbs (h.all n hn)
  dirs n hn := h.dirs n (h.all n hn)
  siblings n hn := h.siblings n (h.all n hn)
  names n hn := h.names n (h.all n hn)

theorem boot_planted : Planted boot where
  toRooted := boot_rooted
  all n hn := by
    rw [Finset.mem_singleton.mp hn]
    exact .refl
  dirs _ _ h := absurd rfl h
  siblings _ _ := List.nodup_nil
  names n hn hr := absurd (boot_linked hn) hr
  home := rfl

section changes

/-- A change of nodes that is about neither the shape of the tree nor names and directories. -/
theorem Planted.relabel (h : Planted k) (hs : k'.shape = k.shape)
    (hd : ∀ n, (k'.node n).directory = (k.node n).directory)
    (hn : ∀ n, (k'.node n).name = (k.node n).name) (hh : k'.getProcessCwd = k.getProcessCwd) :
    Planted k' := by
  have hroot : k'.root = k.root := congrArg (·.1) hs
  have hused : k'.nodes.used = k.nodes.used := congrArg (·.2.1) hs
  have hback : ∀ {n}, k'.Linked n → k.Linked n := fun hl => hl.of_shape hs.symm
  refine ⟨h.toRooted.of_shape hs, fun n hu => ?_, fun n hl hc => ?_, fun n hl => ?_,
    fun n hl hr => ?_, ?_⟩
  · rw [hused] at hu
    exact (h.all n hu).of_shape hs
  · rw [children_of_shape hs] at hc
    rw [hd]
    exact h.dirs n (hback hl) hc
  · simp only [children_of_shape hs, hn]
    exact h.siblings n (hback hl)
  · rw [hroot] at hr
    rw [hn]
    exact h.names n (hback hl) hr
  · rw [hh, hroot]
    exact h.home

theorem Planted.same (h : Planted k) (hn : k'.nodes = k.nodes) (hr : k'.root = k.root)
    (hh : k'.getProcessCwd = k.getProcessCwd) : Planted k' := by
  have hnode : ∀ n, k'.node n = k.node n := by
    intro n
    unfold node
    rw [hn]
  refine h.relabel ?_ (fun n => by rw [hnode]) (fun n => by rw [hnode]) hh
  unfold shape
  simp only [hnode, hn, hr]

theorem Planted.setNode {y : Node} (h : Planted k) (hp : y.parent = (k.node n).parent)
    (hc : y.children = (k.node n).children) (hd : y.directory = (k.node n).directory)
    (hn : y.name = (k.node n).name) : Planted (k.setNode n y) := by
  refine h.relabel (setNode_shape hp hc) (fun m => ?_) (fun m => ?_) rfl
  · rw [setNode_node]
    split
    · rename_i hm
      rw [hd, hm]
    · rfl
  · rw [setNode_node]
    split
    · rename_i hm
      rw [hn, hm]
    · rfl

/-- What `create_node` must be given: a directory and a good name that is not in it yet. -/
structure Fits (k : Kernel) (name : List Char) (dir : Nat) : Prop where
  directory : (k.node dir).directory = true
  good : GoodName name
  new : k.findIn dir name = none

theorem Planted.linkNew (h : Planted k) (hn : n ∉ k.nodes.used) (hd : k.Linked dir)
    (hf : k.Fits name dir) : Planted (k.linkNew n name x dir) := by
  have hne : n ≠ dir := fun he => hn (he ▸ h.used hd)
  have hold : ∀ {d}, (k.linkNew n name x dir).Linked d → d ≠ n → k.Linked d :=
    fun hl hdn => (linkNew_linked hne hl).resolve_right hdn
  have hname : ∀ c, ((k.linkNew n name x dir).node c).name =
      if c = n then name else (k.node c).name :=
    fun c => linkNew_field Node.name (fun _ _ => rfl) hne c
  -- the names of the old children stay
  have hkeep : ∀ {d}, k.Linked d → (k.node d).children.map
      (fun c => ((k.linkNew n name x dir).node c).name) =
        (k.node d).children.map fun c => (k.node c).name := by
    intro d hl
    refine List.map_congr_left fun c hc => ?_
    have hcn : c ≠ n := fun he => hn (he ▸ h.used (Under.child hl hc))
    rw [hname, if_neg hcn]
  refine ⟨h.toRooted.linkNew hn hd, fun m hu => ?_, fun m hl hc => ?_, fun m hl => ?_,
    fun m hl hr => ?_, h.home⟩
  · cases Finset.mem_insert.mp hu with
    | inl hm =>
      rw [hm]
      exact h.new_linked hn hd
    | inr hm => exact Linked.linkNew h.toRooted hn hd (h.all m hm)
  · rw [linkNew_children hne] at hc
    have hdir : ((k.linkNew n name x dir).node m).directory =
        if m = n then x else (k.node m).directory :=
      linkNew_field Node.directory (fun _ _ => rfl) hne m
    rw [hdir]
    split at hc
    · exact absurd rfl hc
    · rename_i hmn
      rw [if_neg hmn]
      split at hc
      · rename_i hmd
        rw [hmd]
        exact hf.directory
      · exact h.dirs m (hold hl hmn) hc
  · rw [linkNew_children hne]
    split
    · exact List.nodup_nil
    · rename_i hmn
      split
      · rw [List.map_cons, hname, if_pos rfl, hkeep hd]
        refine List.nodup_cons.mpr ⟨fun hm => ?_, h.siblings dir hd⟩
        obtain ⟨c, hc, hcn⟩ := List.mem_map.mp hm
        have hnone := List.find?_eq_none.mp hf.new c hc
        exact hnone (decide_eq_true hcn)
      · rw [hkeep (hold hl hmn)]
        exact h.siblings m (hold hl hmn)
  · rw [hname]
    split
    · exact hf.good
    · rename_i hmn
      exact h.names m (hold hl hmn) hr

theorem Planted.takeOut (h : Planted k) (hr : n ≠ k.root)
    (hempty : ¬((k.node n).directory = true ∧ (k.node n).children ≠ [])) (hn : k.Linked n)
    (hp : (k.node n).parent = some d) : Planted (k.takeOut n d) := by
  have hleaf : (k.node n).children = [] := by
    by_contra hc
    exact hempty ⟨h.dirs n hn hc, hc⟩
  have hold : ∀ {m}, (k.takeOut n d).Linked m → k.Linked m :=
    fun hl => (h.takeOut_linked hr hp hl).1
  have hname : ∀ m, ((k.takeOut n d).node m).name = (k.node m).name := by
    intro m
    change ((k.setNode d _).node m).name = _
    rw [setNode_node]
    split
    · rename_i hm
      rw [hm]
    · rfl
  have hdir : ∀ m, ((k.takeOut n d).node m).directory = (k.node m).directory := by
    intro m
    change ((k.setNode d _).node m).directory = _
    rw [setNode_node]
    split
    · rename_i hm
      rw [hm]
    · rfl
  refine ⟨h.toRooted.takeOut hr hp, fun m hu => ?_, fun m hl hc => ?_, fun m hl => ?_,
    fun m hl hm => ?_, h.home⟩
  · obtain ⟨hmn, hu⟩ := Finset.mem_erase.mp hu
    exact (h.all m hu).takeOut fun hb => hmn (hb.leaf hleaf)
  · rw [hdir]
    rw [takeOut_children] at hc
    split at hc
    · rename_i hmd
      rw [hmd] at hl ⊢
      refine h.dirs d (hold hl) fun he => hc ?_
      rw [he]
      rfl
    · exact h.dirs m (hold hl) hc
  · simp only [hname]
    rw [takeOut_children]
    split
    · rename_i hmd
      rw [hmd] at hl
      exact (h.siblings d (hold hl)).sublist (List.erase_sublist.map _)
    · exact h.siblings m (hold hl)
  · rw [hname]
    exact h.names m (hold hl) hm

end changes

section search

theorem Planted.createNode (h : Planted k) (hd : k.Linked dir) (hf : k.Fits name dir)
    (hc : k.createNode env name x dir = some (n, k')) :
    Planted k' ∧ KeepsLinked k k' ∧ k'.Linked n := by
  obtain ⟨hn, rfl⟩ := createNode_eq env hc
  have h1 : Planted { k with allocs := k.allocs + 1 } := h.same rfl rfl rfl
  have hd1 : Linked { k with allocs := k.allocs + 1 } dir := hd.of_shape rfl
  have hf1 : Fits { k with allocs := k.allocs + 1 } name dir := ⟨hf.directory, hf.good, hf.new⟩
  refine ⟨h1.linkNew hn hd1 hf1, fun m hm => ?_, h1.new_linked hn hd1⟩
  exact Linked.linkNew h1.toRooted hn hd1 (hm.of_shape rfl)

theorem planted_search : SearchRule env Fits Planted KeepsLinked Linked where
  refl _ _ h := h
  trans h h' n hn := h' n (h n hn)
  keep h hn := h _ hn
  root _ := .refl
  cwd h := by
    rw [h.home]
    exact .refl
  parent h hn hp := h.linked_parent hn hp
  child _ hn hc := hn.findIn hc
  alloc h := ⟨h.same rfl rfl rfl, .of_shape rfl⟩
  device _ h := ⟨h.same rfl rfl rfl, .of_shape rfl⟩
  dev := by
    intro k name dir n k' dev h hd hf hc
    obtain ⟨h1, h2, _⟩ := h.createNode hd hf hc
    refine ⟨h1.setNode rfl rfl rfl rfl, fun m hm => ?_⟩
    exact (h2 m hm).of_shape (setNode_shape rfl rfl)
  ask := by
    intro k k' n fs found _ _ _ _ _ h _
    cases found with
    | false => exact ⟨h.same rfl rfl rfl, .of_shape rfl⟩
    | true => exact ⟨h.same rfl rfl rfl, .of_shape rfl⟩

end search

section walks

/-- What `create_dir_path` must be given: where a component is missing a directory, from there on no
dots. -/
def DirWalk (k : Kernel) : Nat → List (List Char) → Prop
  | _, [] => True
  | dir, part :: ps =>
    match k.findIn dir part with
    | some n => k.DirWalk n ps
    | none => (k.node dir).directory = true ∧ ∀ s ∈ part :: ps, Dotless s

/-- The same for `create_file_path`, which gives up at a component that is no directory. -/
def FileWalk (k : Kernel) : Nat → List (List Char) → Prop
  | _, [] => True
  | dir, part :: ps =>
    match k.findIn dir part with
    | some n => (k.node n).directory = true → k.FileWalk n ps
    | none => (k.node dir).directory = true ∧ ∀ s ∈ part :: ps, Dotless s

instance DirWalk.decidable (k : Kernel) : ∀ dir ps, Decidable (k.DirWalk dir ps)
  | _, [] => .isTrue trivial
  | dir, part :: ps =>
    match h : k.findIn dir part with
    | some n =>
      have := DirWalk.decidable k n ps
      decidable_of_iff (k.DirWalk n ps) (by rw [DirWalk, h])
    | none => decidable_of_iff ((k.node dir).directory = true ∧ ∀ s ∈ part :: ps, Dotless s)
        (by rw [DirWalk, h])

instance FileWalk.decidable (k : Kernel) : ∀ dir ps, Decidable (k.FileWalk dir ps)
  | _, [] => .isTrue trivial
  | dir, part :: ps =>
    match h : k.findIn dir part with
    | some n =>
      have := FileWalk.decidable k n ps
      decidable_of_iff ((k.node n).directory = true → k.FileWalk n ps) (by rw [FileWalk, h])
    | none => decidable_of_iff ((k.node dir).directory = true ∧ ∀ s ∈ part :: ps, Dotless s)
        (by rw [FileWalk, h])

theorem createNode_fresh (hd : k.Linked dir) (hr : Rooted k)
    (hc : k.createNode env name x dir = some (n, k')) :
    (k'.node n).directory = x ∧ (k'.node n).children = [] := by
  obtain ⟨hn, rfl⟩ := createNode_eq env hc
  have hne : n ≠ dir := fun he => hn (he ▸ hr.used hd)
  rw [linkNew_new hne]
  exact ⟨rfl, rfl⟩

theorem findIn_empty (h : (k.node n).children = []) (name : List Char) :
    k.findIn n name = none := by
  unfold findIn
  rw [h]
  rfl

/-- From the first missing component on everything is new. -/
theorem Planted.createDirIn_new {ps : List (List Char)} (h : Planted k) (hd : k.Linked dir)
    (hdir : (k.node dir).directory = true) (hempty : (k.node dir).children = [])
    (hgood : ∀ s ∈ ps, GoodName s) (hc : createDirIn env ps dir k = some (n, k')) :
    Planted k' ∧ KeepsLinked k k' ∧ k'.Linked n := by
  induction ps generalizing dir k with
  | nil =>
    cases hc
    exact ⟨h, fun _ hl => hl, hd⟩
  | cons part ps ih =>
    unfold createDirIn at hc
    rw [findIn_empty hempty] at hc
    obtain ⟨⟨c, k1⟩, h1, h2⟩ := Option.bind_eq_some_iff.mp hc
    have hf : k.Fits part dir := ⟨hdir, hgood part List.mem_cons_self, findIn_empty hempty part⟩
    obtain ⟨h3, h4, h5⟩ := h.createNode hd hf h1
    obtain ⟨h6, h7⟩ := createNode_fresh hd h.toRooted h1
    obtain ⟨h8, h9, h10⟩ := ih h3 h5 h6 h7 (fun s hs => hgood s (List.mem_cons_of_mem part hs)) h2
    exact ⟨h8, fun m hm => h9 m (h4 m hm), h10⟩

theorem Planted.createDirIn {ps : List (List Char)} (h : Planted k) (hd : k.Linked dir)
    (hgood : ∀ s ∈ ps, Dotless s → GoodName s) (hw : k.DirWalk dir ps)
    (hc : createDirIn env ps dir k = some (n, k')) :
    Planted k' ∧ KeepsLinked k k' ∧ k'.Linked n := by
  induction ps generalizing dir with
  | nil =>
    cases hc
    exact ⟨h, fun _ hl => hl, hd⟩
  | cons part ps ih =>
    unfold Kernel.createDirIn at hc
    unfold DirWalk at hw
    cases hp : k.findIn dir part with
    | some c =>
      rw [hp] at hc hw
      exact ih (hd.findIn hp) (fun s hs => hgood s (List.mem_cons_of_mem part hs)) hw hc
    | none =>
      rw [hp] at hc hw
      obtain ⟨⟨c, k1⟩, h1, h2⟩ := Option.bind_eq_some_iff.mp hc
      have hall : ∀ s ∈ part :: ps, GoodName s := fun s hs => hgood s hs (hw.2 s hs)
      obtain ⟨h3, h4, h5⟩ := h.createNode hd ⟨hw.1, hall part List.mem_cons_self, hp⟩ h1
      obtain ⟨h6, h7⟩ := createNode_fresh hd h.toRooted h1
      obtain ⟨h8, h9, h10⟩ := h3.createDirIn_new h5 h6 h7
        (fun s hs => hall s (List.mem_cons_of_mem part hs)) h2
      exact ⟨h8, fun m hm => h9 m (h4 m hm), h10⟩

theorem Planted.creates_new {ps : List (List Char)} {r : Option Nat} (h : Planted k)
    (hd : k.Linked dir) (hdir : (k.node dir).directory = true)
    (hempty : (k.node dir).children = []) (hgood : ∀ s ∈ ps, GoodName s)
    (hc : Creates env ps dir k r k') :
    Planted k' ∧ KeepsLinked k k' ∧ ∀ n, r = some n → k'.Linked n := by
  induction hc with
  | nil => exact ⟨h, fun _ hl => hl, nofun⟩
  | found hf =>
    rw [findIn_empty hempty] at hf
    cases hf
  | made hf hm =>
    obtain ⟨h1, h2, h3⟩ := h.createNode hd ⟨hdir, hgood _ List.mem_cons_self, hf⟩ hm
    refine ⟨h1, h2, fun m hm => ?_⟩
    cases hm
    exact h3
  | blocked => exact ⟨h, fun _ hl => hl, nofun⟩
  | down hf _ _ _ =>
    rw [findIn_empty hempty] at hf
    cases hf
  | make hf hm _ ih =>
    obtain ⟨h1, h2, h3⟩ := h.createNode hd ⟨hdir, hgood _ List.mem_cons_self, hf⟩ hm
    obtain ⟨h4, h5⟩ := createNode_fresh hd h.toRooted hm
    obtain ⟨h6, h7, h8⟩ := ih h1 h3 h4 h5 fun s hs => hgood s (List.mem_cons_of_mem _ hs)
    exact ⟨h6, fun m hm => h7 m (h2 m hm), h8⟩

theorem Planted.createFileIn {ps : List (List Char)} {r : Option Nat} (h : Planted k)
    (hd : k.Linked dir) (hgood : ∀ s ∈ ps, Dotless s → GoodName s) (hw : k.FileWalk dir ps)
    (hc : createFileIn env ps dir k = some (r, k')) :
    Planted k' ∧ KeepsLinked k k' ∧ ∀ n, r = some n → k'.Linked n := by
  replace hc := createFileIn_creates hc
  induction hc with
  | nil => exact ⟨h, fun _ hl => hl, nofun⟩
  | found hf =>
    refine ⟨h, fun _ hl => hl, fun m hm => ?_⟩
    cases hm
    exact hd.findIn hf
  | made hf hm =>
    rw [FileWalk, hf] at hw
    have hall : ∀ s ∈ [_], GoodName s := fun s hs => hgood s hs (hw.2 s hs)
    obtain ⟨h1, h2, h3⟩ := h.createNode hd ⟨hw.1, hall _ List.mem_cons_self, hf⟩ hm
    refine ⟨h1, h2, fun m hm => ?_⟩
    cases hm
    exact h3
  | blocked => exact ⟨h, fun _ hl => hl, nofun⟩
  | down hf hcd _ ih =>
    rw [FileWalk, hf] at hw
    exact ih h (hd.findIn hf) (fun s hs => hgood s (List.mem_cons_of_mem _ hs)) (hw hcd)
  | make hf hm hrest _ =>
    rw [FileWalk, hf] at hw
    have hall : ∀ s ∈ _ :: _ :: _, GoodName s := fun s hs => hgood s hs (hw.2 s hs)
    obtain ⟨h1, h2, h3⟩ := h.createNode hd ⟨hw.1, hall _ List.mem_cons_self, hf⟩ hm
    obtain ⟨h4, h5⟩ := createNode_fresh hd h.toRooted hm
    obtain ⟨h6, h7, h8⟩ := h1.creates_new h3 h4 h5
      (fun s hs => hall s (List.mem_cons_of_mem _ hs)) hrest
    exact ⟨h6, fun m hm => h7 m (h2 m hm), h8⟩

end walks

end Kernel

end LosTacOS.Os
