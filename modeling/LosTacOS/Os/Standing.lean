import LosTacOS.Os.Held
import LosTacOS.Os.Resolve

/-! Where a search stands. In every run the nodes under the root form a tree, and a search from the
root stands only on nodes that it comes to by names that it looks up, or from below. -/
namespace LosTacOS.Os.Kernel

variable {env : Env} {k k' : Kernel} {n m c d dir : Nat} {name s : List Char} {l : List Nat}

section rooted

theorem Rooted.of_linked (hr : Rooted k) (hroot : k'.root = k.root)
    (hused : k.nodes.used ⊆ k'.nodes.used) (hnode : ∀ m, k.Linked m → k'.node m = k.node m) :
    Rooted k' := by
  have hback : ∀ {m}, k'.Linked m → k.Linked m := by
    intro m hm
    induction hm with
    | refl =>
      rw [hroot]
      exact .refl
    | child _ hc ih =>
      rw [hnode _ ih] at hc
      exact .child ih hc
  refine ⟨fun hm => hused (hr.used (hback hm)), fun hd hc => ?_, fun hd => ?_, ?_⟩
  · have hl := hback hd
    rw [hnode _ hl] at hc
    rw [hnode _ (Under.child hl hc)]
    exact hr.up hl hc
  · rw [hnode _ (hback hd)]
    exact hr.nodup (hback hd)
  · rw [hroot, hnode _ Under.refl]
    exact hr.top

/-- A node may be created anywhere, also under a node that was given back. -/
theorem Rooted.createNode {x : Bool} (hr : Rooted k)
    (hc : k.createNode env name x dir = some (n, k')) : Rooted k' := by
  obtain ⟨hn, rfl⟩ := createNode_eq env hc
  have h1 : Rooted { k with allocs := k.allocs + 1 } := hr.of_shape rfl
  by_cases hd : k.Linked dir
  · exact h1.linkNew hn (hd.of_shape rfl)
  · refine h1.of_linked rfl (Finset.subset_insert n _) fun m hm => ?_
    have hm : k.Linked m := hm.of_shape rfl
    refine linkNew_other (fun he => hn ?_) fun he => hd ?_
    · rw [← he]
      exact hr.used hm
    · rw [← he]
      exact hm

theorem rooted_tree : TreeRule env (Alive Rooted) (fun k k' => k'.procSide = k.procSide)
    (fun _ _ => True) (fun _ _ _ => True) := by
  refine TreeRule.alive ?_ id
  exact
  { refl := fun _ => rfl
    trans := fun h h' => h'.trans h
    keep := fun _ _ => trivial
    root := fun _ => trivial
    cwd := fun _ => trivial
    parent := fun _ _ _ => trivial
    child := fun _ _ _ => trivial
    alloc := fun h => ⟨h.of_shape rfl, rfl⟩
    device := fun _ h => ⟨h.of_shape rfl, rfl⟩
    dev := by
      intro k name dir n k' dev h _ _ hc
      have h1 := h.createNode hc
      obtain ⟨_, rfl⟩ := createNode_eq env hc
      exact ⟨h1.of_shape (setNode_shape rfl rfl), rfl⟩
    ask := by
      intro k k' n fs found _ _ _ _ _ h _
      cases found with
      | false => exact ⟨h.of_shape rfl, rfl⟩
      | true => exact ⟨h.of_shape rfl, rfl⟩
    create := by
      intro k name x dir n k' h _ hc
      have h1 := h.createNode hc
      obtain ⟨_, rfl⟩ := createNode_eq env hc
      exact ⟨h1, rfl, trivial⟩
    link := fun _ h _ => ⟨h.of_shape (setNode_shape rfl rfl), rfl⟩
    file := fun _ h _ => ⟨h.of_shape (setNode_shape rfl rfl), rfl⟩
    data := fun _ _ _ _ _ h => ⟨h.of_shape rfl, rfl⟩
    carry := fun _ _ => trivial
    null := trivial
    volume := fun _ _ h => ⟨h.of_shape rfl, rfl, trivial⟩
    retype := fun h _ _ => ⟨h.of_shape (setNode_shape rfl rfl), rfl⟩
    table := fun h _ _ => ⟨h.of_shape rfl, rfl⟩ }

theorem rooted_calls : CallRule env Rooted (fun k k' => k'.procSide = k.procSide)
    (fun _ _ => True) (fun _ _ _ => True) (fun _ => True) where
  tree := rooted_tree
  procs h := h
  tasks _ _ _ _ _ h := h.of_shape rfl
  thread _ h := h.of_shape rfl
  newProcess h _ := h.of_shape rfl
  discard h _ := h.of_shape rfl
  inherit := by
    intro k parent c q h _ _
    obtain ⟨pipes, hr⟩ := inherit_rest q parent c
    rw [hr]
    exact h.of_shape rfl
  home h := h.of_shape rfl
  enterDir h _ := h.of_shape rfl
  pipes _ _ h := h.of_shape rfl
  altered _ _ _ h _ := h.of_shape rfl
  plain h _ _ _ _ := h.of_shape rfl
  copied h _ _ := h.of_shape rfl
  held _ _ _ := trivial
  node h _ _ _ := h.of_shape rfl
  mounted _ _ _ _ _ h _ := ⟨h.of_shape rfl, fun _ _ _ _ _ => h.of_shape rfl⟩
  used h _ _ := h.of_shape rfl
  closed h _ _ := h.of_shape rfl

theorem Rooted.umount {path : List Char} {r : Bool} (h : Alive Rooted k)
    (hu : k.umount env path = some (r, k')) : Rooted k' := by
  refine (rooted_tree.umount h ?_ ?_ ?_ hu).1
  · exact fun _ => h.after rfl (h.1.of_shape rfl)
  · exact fun hq _ => ⟨hq.after rfl (hq.1.of_shape (setNode_shape rfl rfl)), rfl⟩
  · exact fun _ hq _ => hq.after rfl (hq.1.of_shape rfl)

theorem Rooted.remove {path : List Char} {r : Bool} (h : Alive Rooted k)
    (hr : k.remove env path = some (r, k')) : Rooted k' := by
  refine (rooted_tree.remove h ?_ hr).1
  exact fun hq _ _ _ hroot _ hp => hq.after rfl (hq.1.takeOut hroot hp)

theorem Rooted.step {ev : Event} {r : Reply} (h : Rooted k) (hl : Listed k l)
    (hs : k.step env ev = some (r, k')) : Rooted k' := by
  have ha : Alive Rooted k := .of_listed h hl
  refine rooted_calls.step h hl (copies_true k ev) (fun _ _ _ _ => trivial) ?_ ?_ ?_ hs
  · exact fun _ hu => Rooted.umount ha hu
  · exact fun _ hr => Rooted.remove ha hr
  · exact fun _ _ _ _ _ _ => h.of_shape rfl

/-- Whatever is removed or unmounted, what is linked under the root is a tree. -/
theorem Reached.rooted {ok : Env → Kernel → Event → Prop} (h : Reached ok k) : Rooted k := by
  have hk := h.invariant (I := fun k => (∃ l, Listed k l) ∧ Rooted k)
    ⟨⟨[], boot_listed⟩, boot_rooted⟩ (by
      intro k k' env ev r hi _ hs
      obtain ⟨⟨l, hl⟩, ht⟩ := hi
      exact ⟨step_listed hl hs, ht.step hl hs⟩)
  exact hk.2

end rooted

section search

variable {I : Kernel → Prop} {R : Kernel → Kernel → Prop} {U V : Kernel → Nat → Prop} {j depth : Nat}
  {ps : List (List Char × Option (List Char))} {rest : Option (List Char)} {t : List Char}

theorem pathFrom_slash {fuel : Nat} {x : Option Nat} {acc : List Char}
    (h : k.pathFrom fuel x acc = some t) (hacc : acc = [] ∨ acc.head? = some '/') :
    t = [] ∨ t.head? = some '/' := by
  induction fuel generalizing x acc with
  | zero =>
    cases x with
    | none =>
      cases h
      exact hacc
    | some x => cases h
  | succ fuel ih =>
    cases x with
    | none =>
      cases h
      exact hacc
    | some x =>
      unfold pathFrom at h
      split at h
      · cases h
        exact hacc
      · exact ih h (Or.inr rfl)

/-- What a link stands for is looked for from the root. -/
theorem linkTarget_slash (h : k.linkTarget env n = some t) : ∃ rest, t = '/' :: rest := by
  apply List.head?_eq_some_iff.mp
  unfold linkTarget at h
  dsimp only at h
  split at h
  · rename_i habs
    rw [← Option.some.inj (Option.filter_eq_some_iff.mp h).1]
    exact habs
  · have hbase : ∃ base, (base = [] ∨ base.head? = some '/') ∧
        t = (if base.getLast? = some '/' then base else base ++ ['/']) ++ (k.node n).symlink := by
      cases hp : (k.node n).parent with
      | none =>
        rw [hp] at h
        obtain ⟨base, hbase, h⟩ := Option.bind_eq_some_iff.mp h
        cases hbase
        exact ⟨_, Or.inr rfl, (Option.some.inj (Option.filter_eq_some_iff.mp h).1).symm⟩
      | some p =>
        rw [hp] at h
        obtain ⟨base, hbase, h⟩ := Option.bind_eq_some_iff.mp h
        refine ⟨base, ?_, (Option.some.inj (Option.filter_eq_some_iff.mp h).1).symm⟩
        unfold getPath at hbase
        split at hbase
        · cases hbase
          exact Or.inr rfl
        · exact pathFrom_slash (Option.filter_eq_some_iff.mp hbase).1 (Or.inl rfl)
    obtain ⟨base, hbase, rfl⟩ := hbase
    cases hbase with
    | inl hnil =>
      rw [hnil]
      rfl
    | inr hhead =>
      obtain ⟨u, rfl⟩ := List.head?_eq_some_iff.mp hhead
      split
      · rfl
      · rfl

/-- A mounted file system answers with its mount point. -/
theorem findMounted_self {find : Finder} {part : List Char}
    (h : k.findMounted env find n part rest = some (some m, k')) : m = n := by
  unfold findMounted at h
  split at h
  · split at h
    · dsimp only at h
      split at h
      · obtain ⟨⟨handle, q⟩, _, h⟩ := Option.bind_eq_some_iff.mp h
        cases handle with
        | none => cases h
        | some _ =>
          cases h
          rfl
      · cases h
    · cases h
  · cases h

theorem followLinks_not_link {find : Finder}
    (h : followLinks env find depth n k = some (some m, k')) : (k'.node m).type ≠ .symlink := by
  induction depth generalizing n k with
  | zero =>
    unfold followLinks at h
    split at h
    · cases h
    · rename_i hn
      cases h
      exact hn
  | succ depth ih =>
    unfold followLinks at h
    split at h
    · obtain ⟨_, _, h⟩ := Option.bind_eq_some_iff.mp h
      obtain ⟨⟨next, q⟩, _, h⟩ := Option.bind_eq_some_iff.mp h
      cases next with
      | none => cases h
      | some x => exact ih h
    · rename_i hn
      cases h
      exact hn

/-- `V` holds of the nodes that a search from the root stands on. Links are not among them. -/
structure StandRule (env : Env) (I : Kernel → Prop) (R : Kernel → Kernel → Prop)
    (U V : Kernel → Nat → Prop) : Prop extends SearchRule env (fun _ _ _ => True) I R U where
  stays : ∀ {k k' n}, R k k' → V k n → V k' n
  top : ∀ {k}, I k → V k k.root
  above : ∀ {k n}, I k → V k n → V k ((k.node n).parent.getD n)
  below : ∀ {k n s c}, I k → V k n → Plain s → s.length ≤ 127 → k.findIn n s = some c →
    (k.node c).type ≠ .symlink → V k c

namespace StandRule

variable (S : StandRule env I R U V)
include S

theorem follows (j : Nat) : (findTo env j).Follows (fun _ _ => True) I R U :=
  fun hi _ hf => S.toSearchRule.findTo j hi (findToOk_true (fun _ _ _ => trivial) j _ _) hf

theorem followLinks (hnext : ∀ {k rest m q}, I k → findTo env j k ('/' :: rest) = some (some m, q) →
      V q m) (hi : I k) (hu : U k n) (hv : (k.node n).type ≠ .symlink → V k n)
    (h : Kernel.followLinks env (findTo env j) depth n k = some (some m, k')) : V k' m := by
  induction depth generalizing n k with
  | zero =>
    unfold Kernel.followLinks at h
    split at h
    · cases h
    · rename_i hn
      cases h
      exact hv hn
  | succ depth ih =>
    unfold Kernel.followLinks at h
    split at h
    · obtain ⟨target, ht, hs⟩ := Option.bind_eq_some_iff.mp h
      obtain ⟨⟨next, q⟩, hf, hl⟩ := Option.bind_eq_some_iff.mp hs
      cases next with
      | none => cases hl
      | some x =>
        obtain ⟨hq, _, hx⟩ := S.follows j hi trivial hf
        obtain ⟨rest, rfl⟩ := linkTarget_slash ht
        exact ih hq (hx x rfl) (fun _ => hnext hi hf) hl
    · rename_i hn
      cases h
      exact hv hn

theorem walkParts (hnext : ∀ {k rest m q}, I k → findTo env j k ('/' :: rest) = some (some m, q) →
      V q m) (hi : I k) (hu : U k n) (hv : V k n)
    (h : Kernel.walkParts env (findTo env j) ps n k = some (some m, k')) : V k' m := by
  induction ps generalizing n k with
  | nil =>
    cases h
    exact hv
  | cons p ps ih =>
    obtain ⟨part, rest⟩ := p
    rw [Kernel.walkParts] at h
    dsimp only at h
    split at h
    · exact ih hi hu hv h
    · rename_i hskip
      split at h
      · refine ih hi ?_ (S.above hi hv) h
        cases hp : (k.node n).parent with
        | none => exact hu
        | some d => exact S.parent hi hu hp
      · rename_i hup
        cases hc : k.findIn n (cut part) with
        | none =>
          rw [hc] at h
          obtain ⟨_, hR, _⟩ := S.toSearchRule.findMounted (S.follows j) hi hu
            (fun _ _ => openDeviceOk_true (fun _ _ _ => trivial) (fun _ _ => trivial) _) h
          rw [findMounted_self h]
          exact S.stays hR hv
        | some c =>
          rw [hc] at h
          obtain ⟨⟨next, q⟩, hl, h⟩ := Option.bind_eq_some_iff.mp h
          cases next with
          | none => cases h
          | some x =>
            have huc := S.child hi hu hc
            obtain ⟨hq, _, hx⟩ := S.toSearchRule.followLinks (S.follows j) hi huc
              (followLinksOk_true (fun _ _ => trivial) 8 c k) hl
            have hplain : Plain (cut part) :=
              ⟨fun he => hskip (Or.inl he), fun he => hskip (Or.inr he), hup⟩
            have hlen : (cut part).length ≤ 127 := List.length_take_le 127 part
            refine ih hq (hx x rfl) (S.followLinks hnext hi huc (fun hn => ?_) hl) h
            exact S.below hi hv hplain hlen hc hn

theorem findTo (j : Nat) {rest : List Char} (hi : I k)
    (h : Kernel.findTo env j k ('/' :: rest) = some (some m, k')) : V k' m := by
  induction j generalizing k rest m k' with
  | zero => cases h
  | succ j ih => exact S.walkParts (fun hi hf => ih hi hf) hi (S.root hi) (S.top hi) h

/-- A search that starts on a node of `V` ends on one. -/
theorem find {path : List Char} (hi : I k) (hcwd : V k k.getProcessCwd)
    (h : k.find env path = some (some m, k')) : V k' m := by
  unfold Kernel.find at h
  cases hj : env.fuel with
  | zero =>
    rw [hj] at h
    cases h
  | succ j =>
    rw [hj] at h
    unfold Kernel.findTo at h
    split at h
    · cases h
      exact S.top hi
    · exact S.walkParts (S.findTo j) hi (S.root hi) (S.top hi) h
    · exact S.walkParts (S.findTo j) hi (S.cwd hi) hcwd h

end StandRule

end search

section quiet

variable {path part : List Char} {r : Option Nat} {find : Finder} {ok : Kernel → List Char → Prop}
  {ps : List (List Char × Option (List Char))} {rest : Option (List Char)} {P : Guard}

structure Grown (k k' : Kernel) : Prop where
  used : k.nodes.used ⊆ k'.nodes.used
  same : k'.nodes.used = k.nodes.used → k'.nodes = k.nodes
  root : k'.root = k.root
  procs : k'.procSide = k.procSide

theorem Grown.of_eq (hn : k'.nodes = k.nodes) (hr : k'.root = k.root)
    (hp : k'.procSide = k.procSide) : Grown k k' := by
  refine ⟨?_, fun _ => hn, hr, hp⟩
  rw [hn]

theorem Grown.trans {k1 : Kernel} (h : Grown k k1) (h' : Grown k1 k') : Grown k k' := by
  refine ⟨h.used.trans h'.used, fun he => ?_, h'.root.trans h.root, h'.procs.trans h.procs⟩
  have hmid : k1.nodes.used = k.nodes.used := by
    refine Finset.Subset.antisymm ?_ h.used
    rw [← he]
    exact h'.used
  rw [h'.same (he.trans hmid.symm), h.same hmid]

/-- When nothing was added in the end, nothing was added in between. -/
theorem Grown.between {k1 : Kernel} (h : Grown k k1) (h' : Grown k1 k')
    (he : k'.nodes.used = k.nodes.used) :
    k1.nodes.used = k.nodes.used ∧ k'.nodes.used = k1.nodes.used := by
  have hmid : k1.nodes.used = k.nodes.used := by
    refine Finset.Subset.antisymm ?_ h.used
    rw [← he]
    exact h'.used
  exact ⟨hmid, he.trans hmid.symm⟩

theorem grown_search : SearchRule env P (fun _ => True) Grown (fun _ _ => True) where
  refl _ := .of_eq rfl rfl rfl
  trans h h' := h.trans h'
  keep _ _ := trivial
  root _ := trivial
  cwd _ := trivial
  parent _ _ _ := trivial
  child _ _ _ := trivial
  alloc _ := ⟨trivial, .of_eq rfl rfl rfl⟩
  device _ _ := ⟨trivial, .of_eq rfl rfl rfl⟩
  dev := by
    intro k name dir n k' dev _ _ _ hc
    obtain ⟨hn, rfl⟩ := createNode_eq env hc
    refine ⟨trivial, Finset.subset_insert n _, fun he => absurd ?_ hn, rfl, rfl⟩
    rw [← he]
    exact Finset.mem_insert_self n _
  ask := by
    intro k k' n fs found _ _ _ _ _ _ _
    cases found with
    | false => exact ⟨trivial, .of_eq rfl rfl rfl⟩
    | true => exact ⟨trivial, .of_eq rfl rfl rfl⟩

theorem findTo_grown {j : Nat} (h : findTo env j k path = some (r, k')) : Grown k k' :=
  (grown_search.findTo j trivial (findToOk_true (fun _ _ _ => trivial) j k path) h).2.1

theorem find_grown (h : k.find env path = some (r, k')) : Grown k k' := findTo_grown h

def Never : Guard := fun _ _ _ => False

/-- A search that makes no device nodes leaves the nodes alone. -/
theorem findTo_quiet {j : Nat} (hok : findToOk env Never j k path)
    (h : findTo env j k path = some (r, k')) : k'.nodes = k.nodes := by
  have rule : SearchRule env Never (fun q => q.nodes = k.nodes) (fun _ _ => True)
      (fun _ _ => True) :=
    { refl := fun _ => trivial
      trans := fun _ _ => trivial
      keep := fun _ _ => trivial
      root := fun _ => trivial
      cwd := fun _ => trivial
      parent := fun _ _ _ => trivial
      child := fun _ _ _ => trivial
      alloc := fun h => ⟨h, trivial⟩
      device := fun _ h => ⟨h, trivial⟩
      dev := fun _ _ _ hP _ => hP.elim
      ask := by
        intro q q' n fs found _ _ _ _ _ h _
        cases found with
        | false => exact ⟨h, trivial⟩
        | true => exact ⟨h, trivial⟩ }
  exact (rule.findTo j rfl hok h).1

/-- A finder that only adds nodes, and is as `ok` demands when it adds none. -/
structure OnlyAdds (find : Finder) (ok : Kernel → List Char → Prop) : Prop where
  grown : ∀ {k path r q}, find k path = some (r, q) → Grown k q
  ok : ∀ {k path r q}, find k path = some (r, q) → q.nodes.used = k.nodes.used → ok k path

namespace OnlyAdds

variable (F : OnlyAdds find ok)
include F

theorem follows : find.Follows (fun _ _ => True) (fun _ => True) Grown (fun _ _ => True) :=
  fun _ _ hf => ⟨trivial, F.grown hf, fun _ _ => trivial⟩

theorem createDev {dev : DevOps} (h : k.createDev env find name dev = some (r, k'))
    (hs : k'.nodes.used = k.nodes.used) : createDevOk Never find ok k name := by
  obtain ⟨⟨dir, k1⟩, hf, h⟩ := Option.bind_eq_some_iff.mp h
  have h1 := F.grown hf
  cases dir with
  | none =>
    cases h
    refine ⟨F.ok hf hs, fun dir q hq => ?_⟩
    rw [hf] at hq
    cases hq
  | some dir =>
    obtain ⟨⟨n, k2⟩, hc, h⟩ := Option.bind_eq_some_iff.mp h
    obtain ⟨hn, rfl⟩ := createNode_eq env hc
    cases h
    -- the node of the device is new
    have hin : n ∈ k.nodes.used := by
      rw [← hs]
      exact Finset.mem_insert_self n _
    exact absurd (h1.used hin) hn

theorem makeDevice {ops : Option DevOps} {b : Bool}
    (h : k.makeDevice env find name ops = some (b, k')) (hs : k'.nodes.used = k.nodes.used) :
    k.makeDeviceOk env Never find ok name ops := by
  intro a q dev ha hops
  unfold Kernel.makeDevice at h
  rw [ha, hops] at h
  obtain ⟨⟨r, k1⟩, hc, h⟩ := Option.bind_eq_some_iff.mp h
  cases h
  refine F.createDev hc ?_
  rw [hs, (kmalloc_eq ha).1]

theorem openDevice {b : Bool} (h : k.openDevice env find name = some (b, k'))
    (hs : k'.nodes.used = k.nodes.used) : k.openDeviceOk env Never find ok name := by
  intro hnew
  unfold Kernel.openDevice at h
  rw [hnew, if_neg (by simp)] at h
  split
  · rename_i htty
    rw [if_pos htty] at h
    exact F.makeDevice h hs
  · rename_i htty
    rw [if_neg htty] at h
    split
    · rename_i hfb
      rw [if_pos hfb] at h
      intro base hbase
      rw [hbase] at h
      exact F.makeDevice h hs
    · trivial

theorem findMounted (h : k.findMounted env find n part rest = some (r, k'))
    (hs : k'.nodes.used = k.nodes.used) : k.findMountedOk env Never find ok n part rest := by
  intro ht hf
  unfold Kernel.findMounted at h
  rw [ht, hf] at h
  dsimp only at h
  rw [if_pos (by rfl)] at h
  split at h
  · obtain ⟨⟨handle, k1⟩, ho, h⟩ := Option.bind_eq_some_iff.mp h
    have hk : k'.nodes = k1.nodes := by
      cases handle with
      | none =>
        cases h
        rfl
      | some _ =>
        cases h
        rfl
    unfold Kernel.fsOpen at ho
    rw [if_pos rfl] at ho
    obtain ⟨⟨found, k2⟩, hdev, hk1⟩ := Option.bind_eq_some_iff.mp ho
    cases hk1
    refine F.openDevice hdev ?_
    rw [← hs, hk]
  · cases h

theorem followLinks {depth : Nat} (h : Kernel.followLinks env find depth n k = some (r, k'))
    (hs : k'.nodes.used = k.nodes.used) : followLinksOk env find ok depth n k := by
  induction depth generalizing n k with
  | zero => trivial
  | succ depth ih =>
    intro hlink target ht
    unfold Kernel.followLinks at h
    rw [if_pos hlink] at h
    dsimp only at h
    rw [ht, Option.bind_eq_bind, Option.bind_some] at h
    obtain ⟨⟨next, q⟩, hf, h⟩ := Option.bind_eq_some_iff.mp h
    have h1 := F.grown hf
    cases next with
    | none =>
      cases h
      refine ⟨F.ok hf hs, fun m q' hq => ?_⟩
      rw [hf] at hq
      cases hq
    | some x =>
      have h2 : Grown q k' := (grown_search.followLinks (P := fun _ _ _ => True) F.follows trivial
        trivial (followLinksOk_true (fun _ _ => trivial) depth x q) h).2.1
      obtain ⟨e1, e2⟩ := h1.between h2 hs
      refine ⟨F.ok hf e1, fun m q' hq => ?_⟩
      rw [hf] at hq
      cases hq
      exact ih h e2

theorem walkParts (h : Kernel.walkParts env find ps n k = some (r, k'))
    (hs : k'.nodes.used = k.nodes.used) : walkPartsOk env Never find ok ps n k := by
  induction ps generalizing n k with
  | nil => trivial
  | cons p ps ih =>
    obtain ⟨part, rest⟩ := p
    rw [Kernel.walkParts] at h
    unfold walkPartsOk
    dsimp only at h ⊢
    by_cases hskip : cut part = [] ∨ cut part = ['.']
    · rw [if_pos hskip] at h ⊢
      exact ih h hs
    rw [if_neg hskip] at h ⊢
    by_cases hup : cut part = ['.', '.']
    · rw [if_pos hup] at h ⊢
      exact ih h hs
    rw [if_neg hup] at h ⊢
    cases hc : k.findIn n (cut part) with
    | none =>
      rw [hc] at h
      refine ⟨fun _ => F.findMounted h hs, fun d hd => ?_⟩
      cases hd
    | some c =>
      rw [hc] at h
      refine ⟨fun hd => ?_, fun d hd => ?_⟩
      · cases hd
      cases hd
      obtain ⟨⟨next, q⟩, hl, h⟩ := Option.bind_eq_some_iff.mp h
      have h1 : Grown k q := (grown_search.followLinks (P := fun _ _ _ => True) F.follows trivial
        trivial (followLinksOk_true (fun _ _ => trivial) 8 c k) hl).2.1
      cases next with
      | none =>
        cases h
        refine ⟨F.followLinks hl hs, fun m q' hq => ?_⟩
        rw [hl] at hq
        cases hq
      | some x =>
        have h2 : Grown q k' := (grown_search.walkParts (P := fun _ _ _ => True) F.follows trivial
          trivial (walkPartsOk_true (fun _ _ _ => trivial) (fun _ _ => trivial) ps x q) h).2.1
        obtain ⟨e1, e2⟩ := h1.between h2 hs
        refine ⟨F.followLinks hl e1, fun m q' hq => ?_⟩
        rw [hl] at hq
        cases hq
        exact ih h e2

end OnlyAdds

theorem onlyAdds_findTo (j : Nat) : OnlyAdds (findTo env j) (findToOk env Never j) := by
  induction j with
  | zero =>
    constructor
    · intro k path r q h
      cases h
    · intro k path r q h
      cases h
  | succ j ih =>
    refine ⟨findTo_grown, fun {k path r q} h hs => ?_⟩
    cases path with
    | nil => trivial
    | cons c rest =>
      by_cases hc : c = '/'
      · rw [hc] at h ⊢
        exact ih.walkParts h hs
      · have habs : ∀ t, c :: rest = '/' :: t → False := fun t ht => hc (List.cons.inj ht).1
        rw [findTo] at h
        · rw [findToOk]
          · exact ih.walkParts h hs
          · exact List.cons_ne_nil c rest
          · exact habs
        · exact List.cons_ne_nil c rest
        · exact habs

/-- A search makes no device nodes exactly when no node is new after it. -/
theorem findOk_never_iff (h : k.find env path = some (r, k')) :
    findOk env Never k path ↔ k'.nodes.used = k.nodes.used := by
  constructor
  · intro hok
    rw [findTo_quiet hok h]
  · exact (onlyAdds_findTo env.fuel).ok h

end quiet

end LosTacOS.Os.Kernel
