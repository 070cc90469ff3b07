import LosTacOS.Os.Buffers
import LosTacOS.Os.Getcwd

/-! `get_path` and `find` back again. The path of a node leads to it when there is neither a link nor
a node without a name on the way, and no two nodes have the same path. -/
namespace LosTacOS.Os.Kernel

variable {env : Env} {k : Kernel} {n m d c : Nat} {ns : List (List Char)} {path : List Char}

/-- A tree whose names fit `part` and are no dots and have no slash. They may be empty, and a link may
be a directory with children. -/
structure Shaped (k : Kernel) : Prop extends Rooted k where
  all : ∀ n ∈ k.nodes.used, k.Linked n
  dirs : ∀ n, k.Linked n → (k.node n).children ≠ [] → (k.node n).directory = true
  siblings : ∀ n, k.Linked n → ((k.node n).children.map fun c => (k.node c).name).Nodup
  names : ∀ n, k.Linked n → n ≠ k.root →
    Dotless (k.node n).name ∧ '/' ∉ (k.node n).name ∧ (k.node n).name.length ≤ 127

theorem WellFormed.shaped (h : WellFormed k)
    (hlen : ∀ n ∈ k.nodes.used, n ≠ k.root → (k.node n).name.length ≤ 127) : Shaped k where
  toRooted := h.rooted
  all _ hn := h.linked hn
  dirs n hn := h.dirs n (h.used_of_linked hn)
  siblings n hn := h.siblings n (h.used_of_linked hn)
  names n hn hr := by
    have hu := h.used_of_linked hn
    have hgood := h.names n hu hr
    exact ⟨⟨hgood.2.1, hgood.2.2.1⟩, hgood.2.2.2, hlen n hu hr⟩

section up

theorem Route.noSlash (h : Shaped k) (hr : k.Route d ns) : ∀ s ∈ ns, '/' ∉ s := by
  induction hr with
  | root => exact nofun
  | @child d c ns hr hc ih =>
    intro s hs
    cases List.mem_append.mp hs with
    | inl hs => exact ih s hs
    | inr hs =>
      rw [List.mem_singleton.mp hs]
      exact (h.names c (.child hr.linked hc) (h.child_ne hr.linked hc).1).2.1

/-- The loop of `get_path` ends at the root. -/
theorem Route.pathFrom_some (hr : Rooted k) (h : k.Route d ns) {acc : List Char} {fuel : Nat}
    (hf : ns.length < fuel) : k.pathFrom fuel (some d) acc = some (pathText ns ++ acc) := by
  induction h generalizing fuel acc with
  | root =>
    obtain ⟨j, rfl⟩ := Nat.exists_eq_add_one_of_ne_zero (Nat.ne_zero_of_lt hf)
    unfold Kernel.pathFrom
    exact if_pos rfl
  | @child d c ns hd hc ih =>
    obtain ⟨j, rfl⟩ := Nat.exists_eq_add_one_of_ne_zero (Nat.ne_zero_of_lt hf)
    rw [List.length_append, List.length_singleton] at hf
    unfold Kernel.pathFrom
    rw [if_neg (hr.child_ne hd.linked hc).1, hr.up hd.linked hc, pathText_append, pathText_name,
      List.append_assoc]
    exact ih (Nat.lt_of_succ_lt_succ hf)

theorem Route.getPath_text (hr : Rooted k) (h : k.Route d ns) (hd : d ≠ k.root)
    (hp : k.getPath env d = some path) : path = pathText ns := by
  unfold Kernel.getPath at hp
  rw [if_neg hd] at hp
  rw [h.pathFrom_eq hr (Option.filter_eq_some_iff.mp hp).1, List.append_nil]

/-- With rounds enough a node has a path exactly when its text fits the buffer. -/
theorem Route.getPath_eq (hr : Rooted k) (h : k.Route d ns) : ∃ text, ∀ env : Env,
    ns.length < env.fuel → k.getPath env d = (some text).filter (·.length < 1024) := by
  by_cases hd : d = k.root
  · refine ⟨['/'], fun env _ => ?_⟩
    unfold Kernel.getPath
    rw [if_pos hd]
    rfl
  · refine ⟨pathText ns, fun env hf => ?_⟩
    unfold Kernel.getPath
    rw [if_neg hd, h.pathFrom_some hr hf, List.append_nil]

end up

section down

theorem Route.alike (h : Shaped k) (hr : k.Route d ns) (hr' : k.Route m ns) : d = m := by
  induction hr generalizing m with
  | root => exact (hr'.top rfl).symm
  | @child d c ns hd hc ih =>
    generalize hms : ns ++ [(k.node c).name] = ms at hr'
    cases hr' with
    | root => simp at hms
    | @child e c' ms he hc' =>
      obtain ⟨rfl, hname⟩ := List.append_inj' hms rfl
      obtain rfl := ih he
      exact List.inj_on_of_nodup_map (h.siblings d hd.linked) hc hc' (List.cons.inj hname).1

/-- Neither the node nor one above it is a link or nameless: the search takes the route to it. -/
theorem Route.direct_of_way (h : Shaped k) (hr : k.Route d ns) (hway : ∀ a, k.Under a d →
    a ≠ k.root → (k.node a).type ≠ .symlink ∧ (k.node a).name ≠ []) : k.Direct d ns := by
  induction hr with
  | root => exact .root
  | @child d c ns hd hc ih =>
    have hroot := (h.child_ne hd.linked hc).1
    have hname := h.names c (.child hd.linked hc) hroot
    have hself := hway c .refl hroot
    refine .child (ih fun a ha => hway a (.child ha hc)) hc ?_ ?_ hname.2.2 hself.1
    · exact findIn_of_nodup (h.siblings d hd.linked) ⟨hc, rfl⟩
    · exact ⟨hself.2, hname.1⟩

end down

/-- The text of a route with names is no other route's. -/
theorem pathText_inj {ms : List (List Char)} (hn : ∀ s ∈ ns, '/' ∉ s) (hm : ∀ s ∈ ms, '/' ∉ s)
    (he : pathText ns = pathText ms) : ns = ms := by
  have hsplit := splitOn_flatMap hn
  change (pathText ns).splitOn '/' = _ at hsplit
  rw [he] at hsplit
  exact (List.cons.inj (hsplit.symm.trans (splitOn_flatMap hm))).2

/-- The root has its path to itself, unless a child of it has no name. -/
theorem Route.root_alone (h : Shaped k) (hr : k.Route d ns) (hd : d ≠ k.root)
    (hroot : ∀ c ∈ (k.node k.root).children, (k.node c).name ≠ []) : pathText ns ≠ ['/'] := by
  intro htext
  have hnil : ns = [[]] := pathText_inj (hr.noSlash h) (by simp) htext
  rw [hnil] at hr
  generalize hms : [[]] = ms at hr
  cases hr with
  | root => cases hms
  | @child e c ms he hc =>
    have hone : [] ++ [[]] = ms ++ [(k.node d).name] := hms
    obtain ⟨hms, hname⟩ := List.append_inj' hone rfl
    rw [← hms] at he
    rw [he.top rfl] at hc
    exact hroot _ hc (List.cons.inj hname).1.symm

/-- What `get_path` gives for a node leads back to it if no node on the way, the root aside, is a link
or has no name; and it is given for no other node, unless it is the root's and a child of the root
has no name. -/
theorem find_getPath (h : Shaped k) (hfuel : env.fuel ≠ 0) :
    (∀ n ∈ k.nodes.used, (∀ a, k.Under a n → a ≠ k.root →
        (k.node a).type ≠ .symlink ∧ (k.node a).name ≠ []) →
      ∀ path, k.getPath env n = some path → k.find env path = some (some n, k)) ∧
    ((∀ c ∈ (k.node k.root).children, (k.node c).name ≠ []) →
      ∀ n ∈ k.nodes.used, ∀ m ∈ k.nodes.used, ∀ path,
        k.getPath env n = some path → k.getPath env m = some path → n = m) ∧
    ∀ n ∈ k.nodes.used, ∃ text F, ∀ env' : Env, F < env'.fuel →
      k.getPath env' n = (some text).filter (·.length < 1024) := by
  have hrootPath : k.getPath env k.root = some ['/'] := if_pos rfl
  refine ⟨fun n hn hway path hp => ?_, fun hroot n hn m hm path hp hp' => ?_, fun n hn => ?_⟩
  · obtain ⟨ns, hr⟩ := (h.all n hn).route
    have hdirect := hr.direct_of_way h hway
    by_cases hroot : n = k.root
    · rw [hroot, hrootPath] at hp
      cases hp
      rw [hroot]
      exact find_slash hfuel
    · have htext := hr.getPath_text h.toRooted hroot hp
      cases ns with
      | nil => exact absurd (hr.top rfl) hroot
      | cons s ls =>
        have hsplit : (s ++ pathText ls).splitOn '/' = s :: ls := by
          have hall := splitOn_flatMap (hr.noSlash h)
          exact (List.cons.inj ((List.splitOn_append_cons_self [] _).symm.trans hall)).2
        rw [htext]
        exact hdirect.find hfuel hsplit
  · obtain ⟨ns, hr⟩ := (h.all n hn).route
    obtain ⟨ms, hr'⟩ := (h.all m hm).route
    by_cases hnr : n = k.root
    · by_cases hmr : m = k.root
      · rw [hnr, hmr]
      · rw [hnr, hrootPath] at hp
        cases hp
        exact absurd (hr'.getPath_text h.toRooted hmr hp').symm (hr'.root_alone h hmr hroot)
    · by_cases hmr : m = k.root
      · rw [hmr, hrootPath] at hp'
        cases hp'
        exact absurd (hr.getPath_text h.toRooted hnr hp).symm (hr.root_alone h hnr hroot)
      · have htext := hr.getPath_text h.toRooted hnr hp
        rw [hr'.getPath_text h.toRooted hmr hp'] at htext
        rw [← pathText_inj (hr'.noSlash h) (hr.noSlash h) htext] at hr
        exact hr.alike h hr'
  · obtain ⟨ns, hr⟩ := (h.all n hn).route
    obtain ⟨text, ht⟩ := hr.getPath_eq h.toRooted
    exact ⟨text, ns.length, ht⟩

theorem libTree_above {a : Nat} (h : libTree.Under a n) (hn : n < 5) : a < 5 := by
  induction h with
  | refl => exact hn
  | @child d c _ hc ih =>
    refine ih ?_
    by_contra hd
    have hnode : libTree.node d = fileNode [] 0 := by
      change List.getD _ d _ = _
      rw [List.getD_eq_getElem?_getD, List.getElem?_eq_none (Nat.le_of_not_lt hd)]
      rfl
    rw [hnode] at hc
    cases hc

theorem find_getPath_lib : libTree.find freshEnv "/usr/lib".toList = some (some 2, libTree) := by
  have hshaped : Shaped libTree := libTree_wellFormed.shaped (by decide)
  refine (find_getPath hshaped (by decide)).1 2 (by decide) (fun a ha hr => ?_) _ (by decide)
  have hnodes : ∀ b < 5, b ≠ 3 → b ≠ libTree.root →
      (libTree.node b).type ≠ .symlink ∧ (libTree.node b).name ≠ [] := by decide
  refine hnodes a (libTree_above ha (by decide)) (fun hlink => ?_) hr
  -- nothing is below the link
  rw [hlink] at ha
  cases ha.leaf rfl

def namelessTree : Kernel := withNodes [dirNode "/" none [1], dirNode "" (some 0) []] 0

theorem namelessTree_linked (h : namelessTree.Linked n) : n < 2 := by
  induction h with
  | refl => decide
  | @child d c _ hc ih =>
    have hclosed : ∀ e < 2, ∀ x ∈ (namelessTree.node e).children, x < 2 := by decide
    exact hclosed d ih c hc

theorem namelessTree_shaped : Shaped namelessTree where
  used h := Finset.mem_range.mpr (namelessTree_linked h)
  up {d c} h hc := by
    have hup : ∀ e < 2, ∀ x ∈ (namelessTree.node e).children,
        (namelessTree.node x).parent = some e := by decide
    exact hup d (namelessTree_linked h) c hc
  nodup {d} h := by
    have hnodup : ∀ e < 2, (namelessTree.node e).children.Nodup := by decide
    exact hnodup d (namelessTree_linked h)
  top := rfl
  all n hn := by
    have hone : namelessTree.Linked 1 := .child .refl (by decide)
    obtain rfl | rfl : n = 0 ∨ n = 1 := by
      have := Finset.mem_range.mp hn
      simp at this
      omega
    · exact .refl
    · exact hone
  dirs n h := by
    have hdirs : ∀ e < 2, (namelessTree.node e).children ≠ [] →
        (namelessTree.node e).directory = true := by decide
    exact hdirs n (namelessTree_linked h)
  siblings n h := by
    have hsib : ∀ e < 2, ((namelessTree.node e).children.map fun c =>
        (namelessTree.node c).name).Nodup := by decide
    exact hsib n (namelessTree_linked h)
  names n h _ := by
    have hnames : ∀ e < 2, e ≠ namelessTree.root → Dotless (namelessTree.node e).name ∧
        '/' ∉ (namelessTree.node e).name ∧ (namelessTree.node e).name.length ≤ 127 := by decide
    exact hnames n (namelessTree_linked h) ‹_›

/-- The children of a directory that became a link are not found under their paths, and a nameless
child of the root has its path. -/
theorem paths_lead_elsewhere :
    (¬ ∀ (env : Env) (k : Kernel), Shaped k → env.fuel ≠ 0 → ∀ n ∈ k.nodes.used,
      (k.node n).type ≠ .symlink → ∀ path, k.getPath env n = some path →
        k.find env path = some (some n, k)) ∧
    ¬ ∀ (env : Env) (k : Kernel), Shaped k → env.fuel ≠ 0 → ∀ n ∈ k.nodes.used,
      ∀ m ∈ k.nodes.used, ∀ path, k.getPath env n = some path → k.getPath env m = some path →
        n = m := by
  constructor
  · intro hall
    have hshaped : Shaped retypedTree := retypedTree_wellFormed.shaped (by decide)
    have hfind := hall freshEnv retypedTree hshaped (by decide) 3 (by decide) (by decide)
      "/d/x".toList (by decide)
    have hnone : (retypedTree.find freshEnv "/d/x".toList).map Prod.fst = some none := by decide
    rw [hfind] at hnone
    cases hnone
  · intro hall
    have hsame := hall freshEnv namelessTree namelessTree_shaped (by decide) 0 (by decide) 1
      (by decide) ['/'] (by decide) (by decide)
    cases hsame

end LosTacOS.Os.Kernel
