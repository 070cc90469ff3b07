import LosTacOS.Os.Pointers

/-! Mounts are kept twice, in the table and at the node. What a mount and an unmount of the same
path leave of both. -/
namespace LosTacOS.Os.Kernel

variable {env env' : Env} {k k' k1 q : Kernel} {l : List Nat} {n m data : Nat} {path : List Char}
  {fs : Option FileSystem}

section table

structure Tabled (k : Kernel) : Prop where
  used : ∀ m ∈ k.mountTable, m ∈ k.mounts.used
  nodup : k.mountTable.Nodup

theorem Tabled.same (h : Tabled k) (hm : k'.mounts = k.mounts)
    (ht : k'.mountTable = k.mountTable) : Tabled k' := by
  constructor
  · rw [hm, ht]
    exact h.used
  · rw [ht]
    exact h.nodup

theorem Tabled.enter {mnt : Mount} (h : Tabled k) (hm : m ∉ k.mounts.used) :
    Tabled (k.enter m mnt) := by
  constructor
  · intro x hx
    cases hx with
    | head => exact Finset.mem_insert_self m _
    | tail _ hx => exact Finset.mem_insert_of_mem (h.used x hx)
  · exact List.nodup_cons.mpr ⟨fun hx => hm (h.used m hx), h.nodup⟩

theorem Grows.enter {mnt : Mount} (hm : m ∉ k.mounts.used) : Grows k (k.enter m mnt) := by
  refine ⟨rfl, fun _ hx => hx, fun x hx => ?_, fun x hx => ?_⟩
  · have hne : x ≠ m := fun he => hm (he ▸ hx)
    exact ⟨Finset.mem_insert_of_mem hx, Arena.alloc_cell_ne _ _ hne⟩
  · cases hx with
    | head => exact Or.inr hm
    | tail _ hx => exact Or.inl hx

theorem tabled_tree : TreeRule env Tabled Grows (fun _ _ => True) (fun _ _ _ => True) where
  refl := Grows.refl
  trans := Grows.trans
  keep _ _ := trivial
  root _ := trivial
  cwd _ := trivial
  parent _ _ _ := trivial
  child _ _ _ := trivial
  alloc h := ⟨h.same rfl rfl, .of_eq rfl rfl rfl rfl⟩
  device _ h := ⟨h.same rfl rfl, .of_eq rfl rfl rfl rfl⟩
  dev := by
    intro k name dir n k' dev h _ _ hc
    obtain ⟨_, rfl⟩ := createNode_eq env hc
    exact ⟨h.same rfl rfl, .of_eq rfl rfl rfl rfl⟩
  ask := by
    intro k k' n fs found _ _ _ _ _ h _
    cases found with
    | false => exact ⟨h.same rfl rfl, .of_eq rfl rfl rfl rfl⟩
    | true => exact ⟨h.same rfl rfl, .of_eq rfl rfl rfl rfl⟩
  create := by
    intro k name d dir n k' h _ hc
    obtain ⟨_, rfl⟩ := createNode_eq env hc
    exact ⟨h.same rfl rfl, .of_eq rfl rfl rfl rfl, trivial⟩
  link _ h _ := ⟨h.same rfl rfl, .of_eq rfl rfl rfl rfl⟩
  file _ h _ := ⟨h.same rfl rfl, .of_eq rfl rfl rfl rfl⟩
  data _ _ _ _ _ h := ⟨h.same rfl rfl, .of_eq rfl rfl rfl rfl⟩
  carry _ _ := trivial
  null := trivial
  volume _ _ h := ⟨h.same rfl rfl, ⟨rfl, fun _ hx => List.mem_cons_of_mem _ hx,
    fun _ hm => ⟨hm, rfl⟩, fun _ hm => Or.inl hm⟩, trivial⟩
  retype h _ _ := ⟨h.same rfl rfl, .of_eq rfl rfl rfl rfl⟩
  table h hm _ := ⟨h.enter hm, .enter hm⟩

theorem tabled_calls : CallRule env Tabled Grows (fun _ _ => True) (fun _ _ _ => True)
    (fun _ => True) where
  tree := tabled_tree.alive Grows.procs
  procs := Grows.procs
  tasks _ _ _ _ _ h := h.same rfl rfl
  thread _ h := h.same rfl rfl
  newProcess h _ := h.same rfl rfl
  discard h _ := h.same rfl rfl
  inherit := by
    intro k parent c q h _ _
    obtain ⟨pipes, hr⟩ := inherit_rest q parent c
    rw [hr]
    exact h.same rfl rfl
  home h := h.same rfl rfl
  enterDir h _ := h.same rfl rfl
  pipes _ _ h := h.same rfl rfl
  altered _ _ _ h _ := h.same rfl rfl
  plain h _ _ _ _ := h.same rfl rfl
  copied h _ _ := h.same rfl rfl
  held _ _ _ := trivial
  node h _ _ _ := h.same rfl rfl
  mounted _ _ _ _ _ hq _ := ⟨hq.same rfl rfl, fun _ _ _ _ _ => hq.same rfl rfl⟩
  used h _ _ := h.same rfl rfl
  closed h _ _ := h.same rfl rfl

theorem Tabled.umount {r : Bool} (h : Tabled k) (hu : k.umount env path = some (r, k')) :
    Tabled k' := by
  refine tabled_tree.umount h ?_ ?_ ?_ hu
  · exact fun _ => ⟨fun x hx => h.used x (List.mem_of_mem_erase hx), h.nodup.erase _⟩
  · exact fun hq _ => ⟨hq.same rfl rfl, .of_eq rfl rfl rfl rfl⟩
  · intro m q hm hq hg
    have hmt : m ∈ k.mountTable := List.mem_of_find?_eq_some hm
    refine ⟨fun x hx => Finset.mem_erase.mpr ⟨fun he => ?_, hq.used x hx⟩, hq.nodup⟩
    rw [he] at hx
    cases hg.table m hx with
    | inl hin => exact h.nodup.not_mem_erase hin
    | inr hno => exact hno (h.used m hmt)

theorem Tabled.step {ev : Event} {r : Reply} (h : Tabled k) (hl : Listed k l)
    (hs : k.step env ev = some (r, k')) : Tabled k' := by
  refine tabled_calls.step h hl (copies_true k ev) (fun _ _ _ _ => trivial) ?_ ?_ ?_ hs
  · exact fun _ hu => h.umount hu
  · exact fun _ hr => tabled_tree.remove h (fun hi _ _ _ _ _ _ => hi.same rfl rfl) hr
  · exact fun _ _ _ _ _ _ => h.same rfl rfl

theorem Reached.tabled {ok : Env → Kernel → Event → Prop} (h : Reached ok k) : Tabled k := by
  have hk := h.invariant (I := fun k => (∃ l, Listed k l) ∧ Tabled k)
    ⟨⟨[], boot_listed⟩, ⟨nofun, List.nodup_nil⟩⟩ (by
      intro k k' env ev r hi _ hs
      obtain ⟨⟨l, hl⟩, ht⟩ := hi
      exact ⟨step_listed hl hs, ht.step hl hs⟩)
  exact hk.2

end table

section roles

def role (k : Kernel) (n : Nat) : NodeType × Option FileSystem × Nat :=
  ((k.node n).type, (k.node n).filesystem, (k.node n).mountData)

structure SameRoles (k k' : Kernel) : Prop where
  table : k'.mountTable = k.mountTable
  mounts : k'.mounts = k.mounts
  nodes : ∀ n ∈ k.nodes.used, n ∈ k'.nodes.used ∧ k'.role n = k.role n

theorem SameRoles.trans {a b c : Kernel} (h : SameRoles a b) (h' : SameRoles b c) :
    SameRoles a c := by
  refine ⟨h'.table.trans h.table, h'.mounts.trans h.mounts, fun n hn => ?_⟩
  obtain ⟨h1, h2⟩ := h.nodes n hn
  obtain ⟨h3, h4⟩ := h'.nodes n h1
  exact ⟨h3, h4.trans h2⟩

theorem SameRoles.of_nodes (hn : k'.nodes = k.nodes) (hm : k'.mounts = k.mounts)
    (ht : k'.mountTable = k.mountTable) : SameRoles k k' := by
  refine ⟨ht, hm, fun n hu => ?_⟩
  unfold role node
  rw [hn]
  exact ⟨hu, rfl⟩

theorem role_setNode (x : Node) (n m : Nat) : (k.setNode n x).role m =
    if m = n then (x.type, x.filesystem, x.mountData) else k.role m := by
  unfold role
  rw [setNode_node]
  split <;> rfl

theorem SameRoles.createNode {name : List Char} {d : Bool} {dir : Nat}
    (hc : k.createNode env name d dir = some (n, k')) :
    SameRoles k k' ∧ ∀ x, SameRoles k (k'.setNode n x) := by
  obtain ⟨hn, rfl⟩ := createNode_eq env hc
  have hlink : ∀ m ∈ k.nodes.used, m ≠ n ∧
      ({ k with allocs := k.allocs + 1 }.linkNew n name d dir).role m = k.role m := by
    intro m hm
    have hmn : m ≠ n := fun he => hn (he ▸ hm)
    refine ⟨hmn, ?_⟩
    unfold role
    rw [linkNew_node]
    dsimp only
    by_cases hmd : m = dir
    · rw [if_pos hmd, ← hmd, if_neg hmn]
      rfl
    · rw [if_neg hmd, if_neg hmn]
      rfl
  refine ⟨⟨rfl, rfl, fun m hm => ⟨Finset.mem_insert_of_mem hm, (hlink m hm).2⟩⟩, fun x => ?_⟩
  refine ⟨rfl, rfl, fun m hm => ⟨Finset.mem_insert_of_mem hm, ?_⟩⟩
  rw [role_setNode, if_neg (hlink m hm).1]
  exact (hlink m hm).2

theorem roles_kept : GrowRule env (fun _ => True) SameRoles (fun _ _ => True) where
  refl _ := .of_nodes rfl rfl rfl
  trans := SameRoles.trans
  keep _ _ := trivial
  root _ := trivial
  cwd _ := trivial
  parent _ _ _ := trivial
  child _ _ _ := trivial
  alloc _ := ⟨trivial, .of_nodes rfl rfl rfl⟩
  device _ _ := ⟨trivial, .of_nodes rfl rfl rfl⟩
  dev _ _ _ _ hc := ⟨trivial, (SameRoles.createNode hc).2 _⟩
  ask := by
    intro k k' n fs found _ _ _ _ _ _ _
    cases found with
    | false => exact ⟨trivial, .of_nodes rfl rfl rfl⟩
    | true => exact ⟨trivial, .of_nodes rfl rfl rfl⟩
  create _ _ hc := ⟨trivial, (SameRoles.createNode hc).1, trivial⟩

end roles

section restore

structure Restored (k k' : Kernel) (n : Nat) : Prop where
  table : k'.mountTable = k.mountTable
  mounts : ∀ m ∈ k.mountTable, k'.mounts.cell m = k.mounts.cell m
  node : k'.role n = k.role n

/-- After a mount on the node `n` its record `m` is the newest of the table. -/
structure Mounted (k k' : Kernel) (n m : Nat) (mnt : Mount) : Prop where
  fresh : m ∉ k.mounts.used
  table : k'.mountTable = m :: k.mountTable
  mounts : k'.mounts = k.mounts.alloc m mnt
  used : n ∈ k'.nodes.used
  node : k'.role n = (.mount, mnt.fs, mnt.data)

theorem mountOn_mounted (hn : n ∈ k.nodes.used)
    (hm : k.mountOn env n path fs data = some (true, k')) :
    ∃ m, Mounted k k' n m ⟨path, fs, data⟩ := by
  unfold mountOn at hm
  dsimp only at hm
  split at hm
  · cases hm
  · rename_i m k1 hk
    obtain ⟨rfl, hfresh⟩ := kmalloc_eq hk
    have hrole : role (enter { k.asMount n fs data with
        allocs := (k.asMount n fs data).allocs + 1 } m ⟨path, fs, data⟩) n = (.mount, fs, data) := by
      change (k.setNode n _).role n = _
      rw [role_setNode, if_pos rfl]
    have hgrow : SameRoles (enter { k.asMount n fs data with
        allocs := (k.asMount n fs data).allocs + 1 } m ⟨path, fs, data⟩) k' := by
      obtain ⟨-, hm⟩ := Option.ite_none_right_eq_some.mp hm
      cases fs with
      | none =>
        cases hm
        exact .of_nodes rfl rfl rfl
      | some fs => exact (roles_kept.fsInit trivial hm).2
    obtain ⟨hu, hr⟩ := hgrow.nodes n hn
    exact ⟨m, hfresh m rfl, hgrow.table, hgrow.mounts, hu, hr.trans hrole⟩

theorem mount_mounted (hn : n ∈ k.nodes.used) (hf : k.find env path = some (some n, q))
    (hm : k.mount env path fs data = some (true, k')) : ∃ m, Mounted k k' n m ⟨path, fs, data⟩ := by
  have hq := (roles_kept.find trivial hf).2.1
  unfold mount at hm
  split at hm
  · cases hm
  · unfold findOrCreateDir at hm
    rw [hf] at hm
    obtain ⟨m, h⟩ := mountOn_mounted (hq.nodes n hn).1 hm
    refine ⟨m, ?_, h.table.trans (by rw [hq.table]), h.mounts.trans (by rw [hq.mounts]), h.used,
      h.node⟩
    rw [← hq.mounts]
    exact h.fresh

/-- What `umount` finds and leaves when the newest mount is the one on `path`. -/
theorem Mounted.umount {node : Option Nat} (h : Mounted k k1 n m ⟨path, fs, data⟩)
    (hf : { k1 with mountTable := k.mountTable }.find env path = some (node, q)) :
    ∃ k', k1.umount env path = (if env.frees (.mount m) then some (true, k') else none) ∧
      k'.mountTable = k.mountTable ∧
      k'.mounts = (k.mounts.alloc m ⟨path, fs, data⟩).free m ∧
      k'.role n = if node = some n then (.dir, none, 0) else (.mount, fs, data) := by
  have hq := (roles_kept.find trivial hf).2.1
  obtain ⟨_, hrole⟩ := hq.nodes n h.used
  have hfirst : k1.mountTable.find? (fun x => (k1.mounts.cell x).path = path) = some m := by
    rw [h.table, h.mounts]
    simp
  have herase : k1.mountTable.erase m = k.mountTable := by
    rw [h.table, List.erase_cons_head]
  have htype : (q.node n).type = .mount := congrArg (·.1) (hrole.trans h.node)
  unfold Kernel.umount
  rw [hfirst]
  dsimp only
  rw [herase, hf]
  refine ⟨_, rfl, ?_, ?_, ?_⟩
  · cases node with
    | none => exact hq.table
    | some x =>
      dsimp only
      split
      · exact hq.table
      · exact hq.table
  · cases node with
    | none => exact congrArg (Arena.free · m) (hq.mounts.trans h.mounts)
    | some x =>
      dsimp only
      split
      · exact congrArg (Arena.free · m) (hq.mounts.trans h.mounts)
      · exact congrArg (Arena.free · m) (hq.mounts.trans h.mounts)
  · cases node with
    | none => exact hrole.trans h.node
    | some x =>
      by_cases hx : x = n
      · rw [if_pos (congrArg some hx), hx]
        dsimp only
        rw [if_pos htype]
        change (q.setNode n _).role n = _
        rw [role_setNode, if_pos rfl]
      · rw [if_neg fun he => hx (Option.some.inj he)]
        dsimp only
        split
        · change (q.setNode x _).role n = _
          rw [role_setNode, if_neg (Ne.symm hx)]
          exact hrole.trans h.node
        · exact hrole.trans h.node

/-- A mount and an unmount of `path` give the old state back exactly if `kfree` comes back with the
record of the mount, and the node was a plain directory and `umount` finds it again, or it had this
mount already and `umount` finds another node. -/
theorem mount_umount_restores_iff {node : Option Nat} (hk : Reached (fun _ _ _ => True) k)
    (hn : n ∈ k.nodes.used) (hf : k.find env path = some (some n, q))
    (hm : k.mount env path fs data = some (true, k1))
    (hl : { k1 with mountTable := k.mountTable }.find env' path = some (node, k')) :
    (∃ k2, k1.umount env' path = some (true, k2) ∧ Restored k k2 n) ↔
      (∀ m, k1.mountTable.head? = some m → env'.frees (.mount m) = true) ∧
        ((node = some n ∧ k.role n = (.dir, none, 0)) ∨
          (node ≠ some n ∧ k.role n = (.mount, fs, data))) := by
  obtain ⟨m, hmounted⟩ := mount_mounted hn hf hm
  obtain ⟨k2, hu, htable, hmounts, hrole⟩ := hmounted.umount hl
  have hcells : ∀ x ∈ k.mountTable, k2.mounts.cell x = k.mounts.cell x := by
    intro x hx
    have hne : x ≠ m := fun he => hmounted.fresh (he ▸ hk.tabled.used x hx)
    rw [hmounts, Arena.free_cell]
    exact Arena.alloc_cell_ne _ _ hne
  have hnewest : k1.mountTable.head? = some m := by rw [hmounted.table, List.head?_cons]
  constructor
  · rintro ⟨k3, hu3, h⟩
    obtain ⟨hfree, hk3⟩ := Option.ite_none_right_eq_some.mp (hu.symm.trans hu3)
    obtain rfl : k2 = k3 := (Prod.mk.inj (Option.some.inj hk3)).2
    refine ⟨fun m' hm' => Option.some.inj (hnewest.symm.trans hm') ▸ hfree, ?_⟩
    have hnode := h.node
    rw [hrole] at hnode
    by_cases he : node = some n
    · rw [if_pos he] at hnode
      exact Or.inl ⟨he, hnode.symm⟩
    · rw [if_neg he] at hnode
      exact Or.inr ⟨he, hnode.symm⟩
  · rintro ⟨hfree, h⟩
    rw [if_pos (hfree m hnewest)] at hu
    refine ⟨k2, hu, htable, hcells, ?_⟩
    rw [hrole]
    cases h with
    | inl h => rw [if_pos h.1, h.2]
    | inr h => rw [if_neg h.1, h.2]

/-- Two directories, with a mount on the second. -/
def mountRun : List (Env × Event) :=
  [(freshEnv, .createDirPath "/m".toList), (freshEnv, .createDirPath "/home".toList),
    (freshEnv, .mount "/home".toList (some .tmpfs))]

/-- The heap as `mount` leaves it, each record in front of its path: the word in front of the path is
the record's `next`, and as a size it leads out of memory if that record lies behind. -/
def pathBehind (k : Kernel) : Env :=
  { freshEnv with
    frees := fun
      | .mount m => ((k.mountTable.dropWhile (· ≠ m)).tail.head?).all (· < m)
      | _ => true }

theorem mount_umount_restores_iff_plain : ∃ k k1 k2, boot.runAll mountRun = some k ∧
    k.mount freshEnv "/m".toList (some .tmpfs) 0 = some (true, k1) ∧
      k1.umount (pathBehind k1) "/m".toList = some (true, k2) ∧ Restored k k2 1 := by
  have hrun : (boot.runAll mountRun).any (fun k => 1 ∈ k.nodes.used ∧
      k.role 1 = (.dir, none, 0) ∧ (k.find freshEnv "/m".toList).any (fun r => r.1 = some 1) ∧
      (k.mount freshEnv "/m".toList (some .tmpfs) 0).any fun s => s.1 = true ∧
        s.2.mountTable.all (fun m => (pathBehind s.2).frees (.mount m)) ∧
        (Kernel.find (pathBehind s.2) { s.2 with mountTable := k.mountTable } "/m".toList).any
          fun t => t.1 = some 1) = true := by decide +kernel
  obtain ⟨k, hk, h⟩ := any_exists hrun
  obtain ⟨hn, hrole, hf, hm⟩ := of_decide_eq_true h
  obtain ⟨⟨r, q⟩, hf, hr⟩ := any_exists hf
  obtain ⟨⟨b, k1⟩, hm, hs⟩ := any_exists hm
  obtain ⟨hb, hback, hl⟩ := of_decide_eq_true hs
  obtain ⟨⟨t, q'⟩, hl, ht⟩ := any_exists hl
  obtain rfl : r = some 1 := of_decide_eq_true hr
  obtain rfl : b = true := hb
  have hfree : ∀ m, k1.mountTable.head? = some m → (pathBehind k1).frees (.mount m) = true :=
    fun m hm => List.all_eq_true.mp hback m (List.mem_of_head? hm)
  obtain ⟨k2, hu, hrestored⟩ := (mount_umount_restores_iff
    (Reached.boot.runAll (fun _ _ _ => trivial) hk) hn hf hm hl).mpr
      ⟨hfree, Or.inl ⟨of_decide_eq_true ht, hrole⟩⟩
  exact ⟨k, k1, k2, hk, hm, hu, hrestored⟩

/-- The second of two mounts is taken away, and the first is no longer at the node. -/
theorem first_mount_forgotten : ¬ ∀ (k k1 k2 q : Kernel) (env env' : Env) (path : List Char)
    (fs : Option FileSystem) (data n : Nat), Reached (fun _ _ _ => True) k → n ∈ k.nodes.used →
    k.find env path = some (some n, q) → (k.node n).directory = true →
    k.mount env path fs data = some (true, k1) → k1.umount env' path = some (true, k2) →
    Restored k k2 n := by
  intro hall
  have hrun : (boot.runAll (mountRun ++ [(freshEnv, .mount "/m".toList (some .tmpfs))])).any
      (fun k => 1 ∈ k.nodes.used ∧ k.role 1 = (.mount, some .tmpfs, 0) ∧
        (k.node 1).directory = true ∧
        (k.find freshEnv "/m".toList).any (fun r => r.1 = some 1) ∧
        (k.mount freshEnv "/m".toList (some .fat32) 0).any fun s => s.1 = true ∧
          (s.2.umount freshEnv "/m".toList).any fun t => t.1 = true ∧
            t.2.role 1 = (.dir, none, 0)) = true := by decide +kernel
  obtain ⟨k, hk, h⟩ := any_exists hrun
  obtain ⟨hn, hrole, hdir, hf, hm⟩ := of_decide_eq_true h
  obtain ⟨⟨r, q⟩, hf, hr⟩ := any_exists hf
  obtain ⟨⟨b, k1⟩, hm, hs⟩ := any_exists hm
  obtain ⟨hb, hu⟩ := of_decide_eq_true hs
  obtain ⟨⟨c, k2⟩, hu, ht⟩ := any_exists hu
  obtain ⟨hc, hrole2⟩ := of_decide_eq_true ht
  obtain rfl : r = some 1 := of_decide_eq_true hr
  obtain rfl : b = true := hb
  obtain rfl : c = true := hc
  have hback := (hall k k1 k2 q freshEnv freshEnv _ _ 0 1
    (Reached.boot.runAll (fun _ _ _ => trivial) hk) hn hf hdir hm hu).node
  have hback' : k2.role 1 = k.role 1 := hback
  rw [hrole2, hrole] at hback'
  cases hback'

end restore

end LosTacOS.Os.Kernel
