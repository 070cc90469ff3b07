import LosTacOS.Os.Trees

/-! The tree of nodes: which nodes are linked in it and that each is a child of its parent. -/
namespace LosTacOS.Os.Kernel

variable {env : Env} {k k' : Kernel} {n m d c dir : Nat} {name : List Char}

inductive Under (k : Kernel) (n : Nat) : Nat → Prop
  | refl : Under k n n
  | child {d c : Nat} : Under k n d → c ∈ (k.node d).children → Under k n c

def Linked (k : Kernel) : Nat → Prop := k.Under k.root

/-- Every linked node is in use and, the root apart, a child of its parent and of no other node. -/
structure Rooted (k : Kernel) : Prop where
  used : ∀ {n}, k.Linked n → n ∈ k.nodes.used
  up : ∀ {d c}, k.Linked d → c ∈ (k.node d).children → (k.node c).parent = some d
  nodup : ∀ {d}, k.Linked d → (k.node d).children.Nodup
  top : (k.node k.root).parent = none

theorem Under.mono (h : k.Under n m)
    (hc : ∀ d, k.Under n d → ∀ c ∈ (k.node d).children, c ∈ (k'.node d).children) :
    k'.Under n m := by
  induction h with
  | refl => exact .refl
  | child hd hm ih => exact .child ih (hc _ hd _ hm)

theorem Under.trans (h : k.Under n m) (h' : k.Under m c) : k.Under n c := by
  induction h' with
  | refl => exact h
  | child _ hm ih => exact .child ih hm

theorem Under.leaf (h : k.Under n m) (hc : (k.node n).children = []) : m = n := by
  induction h with
  | refl => rfl
  | child _ hm ih =>
    rw [ih, hc] at hm
    cases hm

theorem boot_linked (h : boot.Linked n) : n = 0 := by
  induction h with
  | refl => rfl
  | child _ hm _ => cases hm

theorem boot_rooted : Rooted boot where
  used h := by
    rw [boot_linked h]
    exact Finset.mem_singleton_self 0
  up _ hm := by cases hm
  nodup _ := List.nodup_nil
  top := rfl

section shape

def shape (k : Kernel) : Nat × Finset Nat × (Nat → Option Nat) × (Nat → List Nat) :=
  (k.root, k.nodes.used, fun n => (k.node n).parent, fun n => (k.node n).children)

theorem children_of_shape (h : k'.shape = k.shape) (n : Nat) :
    (k'.node n).children = (k.node n).children := congrFun (congrArg (·.2.2.2) h) n

theorem parent_of_shape (h : k'.shape = k.shape) (n : Nat) :
    (k'.node n).parent = (k.node n).parent := congrFun (congrArg (·.2.2.1) h) n

theorem Linked.of_shape (hl : k.Linked n) (h : k'.shape = k.shape) : k'.Linked n := by
  have hroot : k'.root = k.root := congrArg (·.1) h
  unfold Linked
  rw [hroot]
  refine Under.mono hl fun d _ c hc => ?_
  rw [children_of_shape h]
  exact hc

theorem Rooted.of_shape (hr : Rooted k) (h : k'.shape = k.shape) : Rooted k' := by
  have hroot : k'.root = k.root := congrArg (·.1) h
  have hused : k'.nodes.used = k.nodes.used := congrArg (·.2.1) h
  have hback : ∀ {x}, k'.Linked x → k.Linked x := fun hx => hx.of_shape h.symm
  refine ⟨fun hx => ?_, fun hd hc => ?_, fun hd => ?_, ?_⟩
  · rw [hused]
    exact hr.used (hback hx)
  · rw [children_of_shape h] at hc
    rw [parent_of_shape h]
    exact hr.up (hback hd) hc
  · rw [children_of_shape h]
    exact hr.nodup (hback hd)
  · rw [hroot, parent_of_shape h]
    exact hr.top

def KeepsLinked (k k' : Kernel) : Prop := ∀ n, k.Linked n → k'.Linked n

theorem KeepsLinked.of_shape (hs : k'.shape = k.shape) : KeepsLinked k k' :=
  fun _ hl => hl.of_shape hs

/-- A node changes in what the shape does not depend on. -/
theorem setNode_shape {x : Node} (hp : x.parent = (k.node n).parent)
    (hc : x.children = (k.node n).children) : (k.setNode n x).shape = k.shape := by
  have hparent : (fun m => ((k.setNode n x).node m).parent) = fun m => (k.node m).parent := by
    funext m
    rw [setNode_node]
    split
    · rename_i hm
      rw [hp, hm]
    · rfl
  have hchildren : (fun m => ((k.setNode n x).node m).children) =
      fun m => (k.node m).children := by
    funext m
    rw [setNode_node]
    split
    · rename_i hm
      rw [hc, hm]
    · rfl
  unfold shape
  rw [hparent, hchildren]
  rfl

end shape

section steps

/-- What `find_in` returns is a child. -/
theorem findIn_child (h : k.findIn n name = some c) :
    c ∈ (k.node n).children ∧ (k.node c).name = name := by
  refine ⟨List.mem_of_find?_eq_some h, ?_⟩
  have hp := List.find?_some h
  exact of_decide_eq_true hp

theorem Linked.findIn (h : k.Linked n) (hc : k.findIn n name = some c) : k.Linked c :=
  Under.child h (findIn_child hc).1

/-- A linked node other than the root is a child of its parent. -/
theorem Rooted.parent (hr : Rooted k) (h : k.Linked n) (hn : n ≠ k.root) :
    ∃ d, (k.node n).parent = some d ∧ k.Linked d ∧ n ∈ (k.node d).children := by
  cases h with
  | refl => exact absurd rfl hn
  | child hd hm => exact ⟨_, hr.up hd hm, hd, hm⟩

theorem Rooted.linked_parent (hr : Rooted k) (h : k.Linked n) (hp : (k.node n).parent = some d) :
    k.Linked d := by
  by_cases hn : n = k.root
  · rw [hn, hr.top] at hp
    cases hp
  · obtain ⟨e, he, hl, _⟩ := hr.parent h hn
    rw [he] at hp
    cases hp
    exact hl

end steps

section create

variable {x : Bool}

theorem linkNew_new (hn : n ≠ dir) :
    (k.linkNew n name x dir).node n = k.newNode name x dir := by
  rw [linkNew_node]
  dsimp only
  rw [if_neg hn, if_pos rfl]

theorem linkNew_dir (hn : n ≠ dir) : (k.linkNew n name x dir).node dir =
    { k.node dir with children := n :: (k.node dir).children } := by
  rw [linkNew_node]
  dsimp only
  rw [if_pos rfl, if_neg (Ne.symm hn)]

theorem linkNew_other (hm : m ≠ n) (hd : m ≠ dir) :
    (k.linkNew n name x dir).node m = k.node m := by
  rw [linkNew_node]
  dsimp only
  rw [if_neg hd, if_neg hm]

/-- What a property of nodes that is not about their children says of the nodes after
`create_node`. -/
theorem linkNew_field {α : Type} (f : Node → α) (hf : ∀ x cs, f { x with children := cs } = f x)
    (hn : n ≠ dir) (m : Nat) : f ((k.linkNew n name x dir).node m) =
      if m = n then f (k.newNode name x dir) else f (k.node m) := by
  by_cases hm : m = n
  · rw [if_pos hm, hm, linkNew_new hn]
  · rw [if_neg hm]
    by_cases hd : m = dir
    · rw [hd, linkNew_dir hn, hf]
    · rw [linkNew_other hm hd]

theorem linkNew_parent (hn : n ≠ dir) (m : Nat) : ((k.linkNew n name x dir).node m).parent =
    if m = n then some dir else (k.node m).parent :=
  linkNew_field Node.parent (fun _ _ => rfl) hn m

theorem linkNew_children (hn : n ≠ dir) (m : Nat) : ((k.linkNew n name x dir).node m).children =
    if m = n then [] else if m = dir then n :: (k.node dir).children
    else (k.node m).children := by
  by_cases hm : m = n
  · rw [if_pos hm, hm, linkNew_new hn]
    rfl
  · rw [if_neg hm]
    by_cases hd : m = dir
    · rw [if_pos hd, hd, linkNew_dir hn]
    · rw [if_neg hd, linkNew_other hm hd]

/-- Apart from the new node the linked nodes are those from before. -/
theorem linkNew_linked (hn : n ≠ dir) (h : (k.linkNew n name x dir).Linked m) :
    k.Linked m ∨ m = n := by
  induction h with
  | refl => exact Or.inl .refl
  | child _ hm ih =>
    rename_i d c _
    rw [linkNew_children hn] at hm
    split at hm
    · cases hm
    · rename_i hdn
      have hd : k.Linked d := ih.resolve_right hdn
      split at hm
      · rename_i hdd
        cases List.mem_cons.mp hm with
        | inl hc => exact Or.inr hc
        | inr hc => exact Or.inl (Under.child hd (hdd ▸ hc))
      · exact Or.inl (Under.child hd hm)

theorem Linked.linkNew (hr : Rooted k) (hn : n ∉ k.nodes.used) (hd : k.Linked dir)
    (h : k.Linked m) : (k.linkNew n name x dir).Linked m := by
  have hne : n ≠ dir := fun he => hn (he ▸ hr.used hd)
  refine Under.mono h fun d hd c hc => ?_
  have hdn : d ≠ n := fun he => hn (he ▸ hr.used hd)
  rw [linkNew_children hne, if_neg hdn]
  split
  · rename_i hdd
    rw [hdd] at hc
    exact List.mem_cons_of_mem n hc
  · exact hc

theorem Rooted.new_linked (hr : Rooted k) (hn : n ∉ k.nodes.used) (hd : k.Linked dir) :
    (k.linkNew n name x dir).Linked n := by
  have hne : n ≠ dir := fun he => hn (he ▸ hr.used hd)
  refine Under.child (hd.linkNew hr hn hd) ?_
  rw [linkNew_children hne, if_neg (Ne.symm hne), if_pos rfl]
  exact List.mem_cons_self

theorem Rooted.linkNew (hr : Rooted k) (hn : n ∉ k.nodes.used) (hd : k.Linked dir) :
    Rooted (k.linkNew n name x dir) := by
  have hne : n ≠ dir := fun he => hn (he ▸ hr.used hd)
  -- the new node is no child of an old one
  have hold : ∀ {d c}, k.Linked d → c ∈ (k.node d).children → c ≠ n :=
    fun hd hc he => hn (he ▸ hr.used (Under.child hd hc))
  refine ⟨fun hx => ?_, fun {d c} hx hc => ?_, fun {d} hx => ?_, ?_⟩
  · cases linkNew_linked hne hx with
    | inl hx => exact Finset.mem_insert_of_mem (hr.used hx)
    | inr hx =>
      rw [hx]
      exact Finset.mem_insert_self n _
  · rw [linkNew_children hne] at hc
    rw [linkNew_parent hne]
    split at hc
    · cases hc
    · rename_i hdn
      have hl : k.Linked d := (linkNew_linked hne hx).resolve_right hdn
      split at hc
      · rename_i hdd
        cases List.mem_cons.mp hc with
        | inl hcn => rw [if_pos hcn, hdd]
        | inr hcd =>
          rw [← hdd] at hcd
          rw [if_neg (hold hl hcd)]
          exact hr.up hl hcd
      · rw [if_neg (hold hl hc)]
        exact hr.up hl hc
  · rw [linkNew_children hne]
    split
    · exact List.nodup_nil
    · rename_i hdn
      have hl : k.Linked d := (linkNew_linked hne hx).resolve_right hdn
      split
      · exact List.nodup_cons.mpr ⟨fun hc => hold hd hc rfl, hr.nodup hd⟩
      · exact hr.nodup hl
  · have hroot : k.root ≠ n := fun he => hn (he ▸ hr.used .refl)
    rw [linkNew_parent hne]
    change (if k.root = n then _ else _) = _
    rw [if_neg hroot]
    exact hr.top

end create

section remove

variable {parent : Nat}

theorem takeOut_parent (m : Nat) : ((k.takeOut n parent).node m).parent = (k.node m).parent := by
  change ((k.setNode parent _).node m).parent = _
  rw [setNode_node]
  split
  · rename_i hm
    rw [hm]
  · rfl

theorem takeOut_children (m : Nat) : ((k.takeOut n parent).node m).children =
    if m = parent then (k.node parent).children.erase n else (k.node m).children := by
  change ((k.setNode parent _).node m).children = _
  rw [setNode_node]
  split
  · rfl
  · rfl

/-- The nodes that are still linked were linked before, and the one taken out is not. -/
theorem Rooted.takeOut_linked (hr : Rooted k) (hn : n ≠ k.root)
    (hp : (k.node n).parent = some parent) (h : (k.takeOut n parent).Linked m) :
    k.Linked m ∧ m ≠ n := by
  induction h with
  | refl => exact ⟨.refl, Ne.symm hn⟩
  | child _ hm ih =>
    rename_i d c _
    rw [takeOut_children] at hm
    split at hm
    · rename_i hd
      rw [hd] at ih
      have hc := List.mem_of_mem_erase hm
      refine ⟨Under.child ih.1 hc, fun he => ?_⟩
      rw [he] at hm
      exact (hr.nodup ih.1).not_mem_erase hm
    · rename_i hd
      refine ⟨Under.child ih.1 hm, fun he => hd ?_⟩
      rw [he] at hm
      have hup := hr.up ih.1 hm
      rw [hp] at hup
      exact (Option.some.inj hup).symm

theorem Linked.takeOut (h : k.Linked m) (hb : ¬ k.Under n m) :
    (k.takeOut n parent).Linked m := by
  induction h with
  | refl => exact .refl
  | child _ hm ih =>
    rename_i d c _
    have hd : ¬ k.Under n d := fun he => hb (.child he hm)
    refine Under.child (ih hd) ?_
    rw [takeOut_children]
    split
    · rename_i hdp
      rw [hdp] at hm
      refine (List.mem_erase_of_ne fun he => hb ?_).mpr hm
      rw [he]
      exact .refl
    · exact hm

theorem Rooted.takeOut (hr : Rooted k) (hn : n ≠ k.root) (hp : (k.node n).parent = some parent) :
    Rooted (k.takeOut n parent) := by
  refine ⟨fun hx => ?_, fun {d c} hx hc => ?_, fun {d} hx => ?_, ?_⟩
  · obtain ⟨hl, hne⟩ := hr.takeOut_linked hn hp hx
    exact Finset.mem_erase.mpr ⟨hne, hr.used hl⟩
  · have hl := (hr.takeOut_linked hn hp hx).1
    rw [takeOut_children] at hc
    rw [takeOut_parent]
    split at hc
    · rename_i hd
      rw [← hd] at hc
      exact hr.up hl (List.mem_of_mem_erase hc)
    · exact hr.up hl hc
  · have hl := (hr.takeOut_linked hn hp hx).1
    rw [takeOut_children]
    split
    · rename_i hd
      rw [← hd]
      exact (hr.nodup hl).erase n
    · exact hr.nodup hl
  · rw [takeOut_parent]
    exact hr.top

end remove

end LosTacOS.Os.Kernel
