import LosTacOS.Os.Resolve
import LosTacOS.Os.Parents

/-! `find` computes what a path stands for by scanning text and by rebuilding the text of links. -/
namespace LosTacOS.Os

/-- The first parts are the components between slashes. -/
theorem parts_fst {n : Nat} {path : List Char} (hn : path.length < n) :
    (parts n path).map Prod.fst = path.splitOn '/' := by
  induction n generalizing path with
  | zero => omega
  | succ n ih =>
    unfold parts
    have hsplit := List.takeWhile_append_dropWhile (p := fun c => decide (c ≠ '/')) (l := path)
    have hfree : '/' ∉ path.takeWhile (· ≠ '/') := by
      intro hm
      have := List.mem_takeWhile_imp hm
      simp at this
    split
    · rename_i hd
      rw [hd, List.append_nil] at hsplit
      rw [hsplit] at hfree
      rw [List.splitOn_eq_singleton hfree]
      rfl
    · rename_i c rest hd
      have hc : c = '/' := by
        have hhead : (path.dropWhile fun c => decide (c ≠ '/')).head? = some c := by rw [hd]; rfl
        have := List.head?_dropWhile_not (fun c => decide (c ≠ '/')) path
        rw [hhead] at this
        simpa using this
      rw [hd, hc] at hsplit
      have hlen : rest.length < n := by
        have := congrArg List.length hsplit
        rw [List.length_append, List.length_cons] at this
        omega
      rw [List.map_cons, ih hlen]
      conv_rhs => rw [← hsplit]
      rw [List.splitOn_append_cons_self, List.splitOn_eq_singleton hfree]
      rfl

namespace Kernel

variable {env : Env} {k : Kernel} {n m c d : Nat} {s : List Char} {ps : List (List Char)}

section routes

variable {ns ls : List (List Char)} {find : Finder} {qs : List (List Char × Option (List Char))}

theorem Linked.route (h : k.Linked d) : ∃ ns, k.Route d ns := by
  induction h with
  | refl => exact ⟨[], .root⟩
  | child _ hm ih =>
    obtain ⟨ns, hns⟩ := ih
    exact ⟨_, .child hns hm⟩

theorem Route.used (h : WellFormed k) (hr : k.Route d ns) : d ∈ k.nodes.used := by
  induction hr with
  | root => exact h.root
  | child _ hm ih => exact h.children _ ih _ hm

theorem Route.good (h : WellFormed k) (hr : k.Route d ns) : ∀ s ∈ ns, GoodName s := by
  induction hr with
  | root => exact nofun
  | child hr hm ih =>
    intro s hs
    cases List.mem_append.mp hs with
    | inl hs => exact ih s hs
    | inr hs =>
      have hd := hr.used h
      rw [List.mem_singleton.mp hs]
      exact h.names _ (h.children _ hd _ hm) (h.parent_of_child hd hm).2

theorem Route.unique {ns' : List (List Char)} (h : WellFormed k) (hr : k.Route d ns)
    (hr' : k.Route d ns') : ns' = ns := by
  induction hr generalizing ns' with
  | root =>
    cases hr' with
    | root => rfl
    | child hr hm => exact absurd rfl (h.parent_of_child (hr.used h) hm).2
  | child hr hm ih =>
    obtain ⟨hp, hroot⟩ := h.parent_of_child (hr.used h) hm
    cases hr' with
    | root => exact absurd rfl hroot
    | child hr' hm' =>
      have hp' := (h.parent_of_child (hr'.used h) hm').1
      rw [hp] at hp'
      cases hp'
      rw [ih hr']

theorem splitOn_flatMap (hs : ∀ s ∈ ns, '/' ∉ s) :
    (ns.flatMap fun s => '/' :: s).splitOn '/' = [] :: ns := by
  induction ns using List.reverseRecOn with
  | nil => rfl
  | append_singleton ns s ih =>
    have hfree : '/' ∉ s := hs s (by simp)
    rw [List.flatMap_append, List.flatMap_singleton, List.splitOn_append_cons_self,
      ih fun x hx => hs x (List.mem_append_left _ hx), List.splitOn_eq_singleton hfree]
    rfl

theorem Route.splitOn (h : WellFormed k) (hr : k.Route d ns) :
    (ns.flatMap fun s => '/' :: s).splitOn '/' = [] :: ns :=
  splitOn_flatMap fun s hs => (hr.good h s hs).2.2.2

/-- `get_path` writes the route down. -/
theorem Route.pathFrom (h : WellFormed k) (hr : k.Route d ns) (fuel : Nat) (acc : List Char) :
    k.pathFrom fuel (some d) acc = some (ns.flatMap (fun s => '/' :: s) ++ acc) ∨
      (k.pathFrom fuel (some d) acc = none ∧ fuel < ns.length + 1) := by
  induction hr generalizing fuel acc with
  | root =>
    cases fuel with
    | zero => exact Or.inr ⟨rfl, Nat.zero_lt_succ _⟩
    | succ fuel =>
      refine Or.inl ?_
      unfold Kernel.pathFrom
      rw [if_pos rfl]
      rfl
  | child hr hm ih =>
    rename_i d c ns
    obtain ⟨hp, hroot⟩ := h.parent_of_child (hr.used h) hm
    cases fuel with
    | zero => exact Or.inr ⟨rfl, Nat.zero_lt_succ _⟩
    | succ fuel =>
      unfold Kernel.pathFrom
      rw [if_neg hroot, hp]
      cases ih fuel ('/' :: (k.node c).name ++ acc) with
      | inl hi =>
        refine Or.inl ?_
        rw [hi, List.flatMap_append, List.flatMap_singleton, List.append_assoc]
      | inr hi =>
        refine Or.inr ⟨hi.1, ?_⟩
        rw [List.length_append, List.length_singleton]
        omega

theorem cut_short (hs : s.length ≤ 127) : cut s = s := List.take_of_length_le hs

theorem walkParts_skip {rest : Option (List Char)} (hlen : s.length ≤ 127)
    (hs : s = [] ∨ s = ['.']) :
    walkParts env find ((s, rest) :: qs) n k = walkParts env find qs n k := by
  rw [walkParts, cut_short hlen, if_pos hs]

theorem walkParts_up {rest : Option (List Char)} :
    walkParts env find ((['.', '.'], rest) :: qs) n k =
      walkParts env find qs ((k.node n).parent.getD n) k := by
  rw [walkParts, cut_short (by decide), if_neg (by decide), if_pos rfl]

theorem walkParts_miss {rest : Option (List Char)} (hlen : s.length ≤ 127) (hp : Plain s)
    (hc : k.findIn n s = none) (ht : (k.node n).type ≠ .mount) :
    walkParts env find ((s, rest) :: qs) n k = some (none, k) := by
  rw [walkParts, cut_short hlen, if_neg (not_or.mpr ⟨hp.1, hp.2.1⟩), if_neg hp.2.2, hc]
  dsimp only
  unfold findMounted
  split
  · rename_i hm _
    exact absurd hm ht
  · rfl

theorem walkParts_child {rest : Option (List Char)} (hlen : s.length ≤ 127) (hp : Plain s)
    (hc : k.findIn n s = some c) (ht : (k.node c).type ≠ .symlink) :
    walkParts env find ((s, rest) :: qs) n k = walkParts env find qs c k := by
  rw [walkParts, cut_short hlen, if_neg (not_or.mpr ⟨hp.1, hp.2.1⟩), if_neg hp.2.2, hc]
  dsimp only
  rw [followLinks, if_neg ht]
  rfl

theorem walkParts_link {rest : Option (List Char)} (hlen : s.length ≤ 127) (hp : Plain s)
    (hc : k.findIn n s = some c) : walkParts env find ((s, rest) :: qs) n k =
      (followLinks env find 8 c k).bind fun x =>
        match x.1 with
        | none => some (none, x.2)
        | some m => walkParts env find qs m x.2 := by
  rw [walkParts, cut_short hlen, if_neg (not_or.mpr ⟨hp.1, hp.2.1⟩), if_neg hp.2.2, hc]
  rfl

inductive Direct (k : Kernel) : Nat → List (List Char) → Prop
  | root : Direct k k.root []
  | child {d c : Nat} {ns : List (List Char)} : Direct k d ns → c ∈ (k.node d).children →
      k.findIn d (k.node c).name = some c → Plain (k.node c).name →
      (k.node c).name.length ≤ 127 → (k.node c).type ≠ .symlink →
      Direct k c (ns ++ [(k.node c).name])

theorem Direct.route (hd : k.Direct d ns) : k.Route d ns := by
  induction hd with
  | root => exact .root
  | child _ hc _ _ _ _ ih => exact .child ih hc

theorem Direct.walk (hd : k.Direct d ns) (hq : qs.map Prod.fst = ns ++ ls) :
    walkParts env find qs k.root k = walkParts env find (qs.drop ns.length) d k := by
  induction hd generalizing ls with
  | root => rfl
  | @child d c ns _ _ hfind hplain hlen ht ih =>
    rw [List.append_assoc] at hq
    rw [ih hq]
    -- the next part is the name of the child
    have hdrop : (qs.drop ns.length).map Prod.fst = (k.node c).name :: ls := by
      rw [List.map_drop, hq]
      simp
    obtain ⟨⟨part, rest⟩, qs', hqs, hname, _⟩ := List.map_eq_cons_iff.mp hdrop
    have hnext : qs.drop (ns ++ [(k.node c).name]).length = qs' := by
      rw [List.length_append, List.length_singleton, ← List.drop_drop, hqs]
      rfl
    rw [hnext, hqs]
    dsimp only at hname
    rw [hname]
    exact walkParts_child hlen hplain hfind ht

theorem Route.direct (h : WellFormed k) (hl : LeafLinks k) (hr : k.Route d ns)
    (hd : (k.node d).type ≠ .symlink) (hlen : ∀ s ∈ ns, s.length ≤ 127) : k.Direct d ns := by
  induction hr with
  | root => exact .root
  | child hr hm ih =>
    rename_i d c ns
    have hdu := hr.used h
    obtain ⟨_, hroot⟩ := h.parent_of_child hdu hm
    have hgood := h.names c (h.children d hdu c hm) hroot
    refine .child (ih (hl.of_child hdu hm) fun s hs => hlen s (List.mem_append_left _ hs)) hm
      (h.findIn_eq hdu ⟨hm, rfl⟩) ⟨hgood.1, hgood.2.1, hgood.2.2.1⟩ (hlen _ (by simp)) hd

theorem Route.walk (h : WellFormed k) (hl : LeafLinks k) (hr : k.Route d ns)
    (hd : (k.node d).type ≠ .symlink) (hlen : ∀ s ∈ ns, s.length ≤ 127)
    (hq : qs.map Prod.fst = ns ++ ls) : walkParts env find qs k.root k =
      walkParts env find (qs.drop ns.length) d k :=
  (hr.direct h hl hd hlen).walk hq

end routes

section find

variable {r : Option Nat} {t : List Met} {ns : List (List Char)} {j : Nat}

/-- The search for a path comes to the node that its components lead to. -/
theorem Direct.find {rest : List Char} (hd : k.Direct d ns) (hfuel : env.fuel ≠ 0)
    (hs : rest.splitOn '/' = ns) : k.find env ('/' :: rest) = some (some d, k) := by
  obtain ⟨j, hj⟩ := Nat.exists_eq_succ_of_ne_zero hfuel
  have hparts : (parts (rest.length + 1) rest).map Prod.fst = ns ++ [] := by
    rw [parts_fst (Nat.lt_succ_self _), hs, List.append_nil]
  have hnone : (parts (rest.length + 1) rest).drop ns.length = [] := by
    apply List.drop_of_length_le
    rw [← List.length_map Prod.fst, hparts, List.append_nil]
  have hwalk := @Direct.walk env k _ _ _ (findTo env j) _ hd hparts
  rw [hnone] at hwalk
  unfold Kernel.find
  rw [hj]
  exact hwalk

theorem find_slash (hfuel : env.fuel ≠ 0) : k.find env ['/'] = some (some k.root, k) := by
  obtain ⟨j, hj⟩ := Nat.exists_eq_succ_of_ne_zero hfuel
  unfold Kernel.find
  rw [hj]
  rfl

def LinkFits (k : Kernel) (c : Nat) : Prop := ∀ d ns, (k.node c).parent = some d → k.Route d ns →
  (k.expansion c ns).length < 256 ∧ ∀ s ∈ (k.expansion c ns).splitOn '/', s.length ≤ 127

def Tame (k : Kernel) : Met → Prop
  | .link c => k.LinkFits c
  | .miss d => (k.node d).type ≠ .mount

theorem Route.getPath (h : WellFormed k) (hr : k.Route d ns)
    (hlen : (ns.flatMap fun s => '/' :: s).length < 1024) :
    (∃ base, k.getPath env d = some base ∧
      (if base.getLast? = some '/' then base else base ++ ['/']) =
        ns.flatMap (fun s => '/' :: s) ++ ['/']) ∨
      (k.getPath env d = none ∧ env.fuel < ns.length + 1) := by
  by_cases hroot : d = k.root
  · refine Or.inl ⟨['/'], ?_, ?_⟩
    · unfold Kernel.getPath
      rw [if_pos hroot]
    · cases hr with
      | root => rfl
      | child hr hm => exact absurd hroot (h.parent_of_child (hr.used h) hm).2
  · have hlast : ((ns.flatMap fun s => '/' :: s) ++ []).getLast? ≠ some '/' := by
      cases hr with
      | root => exact absurd rfl hroot
      | child hr hm =>
        have hgood := h.names d (h.children _ (hr.used h) d hm) hroot
        intro hlast
        rw [List.append_nil, List.flatMap_append, List.flatMap_singleton, List.getLast?_append,
          List.getLast?_cons] at hlast
        cases hname : (k.node d).name.getLast? with
        | none => exact hgood.1 (List.getLast?_eq_none_iff.mp hname)
        | some c =>
          rw [hname] at hlast
          cases hlast
          exact hgood.2.2.2 (List.mem_of_getLast? hname)
    unfold Kernel.getPath
    rw [if_neg hroot]
    cases hr.pathFrom h env.fuel [] with
    | inl hpath =>
      refine Or.inl ⟨_, ?_, if_neg hlast |>.trans (by rw [List.append_nil])⟩
      rw [hpath]
      refine Option.filter_eq_some_iff.mpr ⟨rfl, decide_eq_true ?_⟩
      rw [List.append_nil]
      exact hlen
    | inr hpath =>
      rw [hpath.1]
      exact Or.inr ⟨rfl, hpath.2⟩

theorem linkTarget_eq (h : WellFormed k) (hr : k.Route d ns) (hc : c ∈ (k.node d).children)
    (hfit : (k.expansion c ns).length < 256) : k.linkTarget env c = some (k.expansion c ns) ∨
      (k.linkTarget env c = none ∧ env.fuel < ns.length + 1) := by
  obtain ⟨hp, _⟩ := h.parent_of_child (hr.used h) hc
  unfold linkTarget
  unfold expansion at hfit ⊢
  dsimp only
  by_cases habs : (k.node c).symlink.head? = some '/'
  · rw [if_pos habs] at hfit ⊢
    refine Or.inl ?_
    rw [if_pos habs]
    exact Option.filter_eq_some_iff.mpr ⟨rfl, decide_eq_true hfit⟩
  · rw [if_neg habs] at hfit ⊢
    rw [if_neg habs, hp]
    dsimp only
    have hbase : (ns.flatMap fun s => '/' :: s).length < 1024 := by
      rw [List.length_append] at hfit
      omega
    have hpath : (∃ base, k.getPath env d = some base ∧ _) ∨ _ := hr.getPath h hbase
    cases hpath with
    | inl hpath =>
      obtain ⟨base, hpath, hslash⟩ := hpath
      refine Or.inl ?_
      rw [hpath, Option.bind_eq_bind, Option.bind_some, hslash, List.append_assoc]
      exact Option.filter_eq_some_iff.mpr ⟨rfl, decide_eq_true hfit⟩
    | inr hpath =>
      rw [hpath.1]
      exact Or.inr ⟨rfl, hpath.2⟩

theorem findTo_slash (rest : List Char) : findTo env (j + 1) k ('/' :: rest) =
    walkParts env (findTo env j) (parts (rest.length + 1) rest) k.root k := rfl

/-- The search for the text of a link is a walk along its target. -/
theorem findTo_expansion (h : WellFormed k) (hl : LeafLinks k) (hr : k.Route d ns)
    (hc : c ∈ (k.node d).children)
    (hlen : ∀ s ∈ (k.expansion c ns).splitOn '/', s.length ≤ 127) :
    ∃ qs, qs.map Prod.fst = (k.node c).symlink.splitOn '/' ∧ ∀ env j,
      findTo env (j + 1) k (k.expansion c ns) =
        walkParts env (findTo env j) qs (k.linkStart c) k := by
  obtain ⟨hp, _⟩ := h.parent_of_child (hr.used h) hc
  unfold expansion at hlen ⊢
  unfold linkStart
  by_cases habs : (k.node c).symlink.head? = some '/'
  · rw [if_pos habs] at hlen ⊢
    rw [if_pos habs]
    obtain ⟨rest, hrest⟩ := List.head?_eq_some_iff.mp habs
    rw [hrest]
    have hsplit : ('/' :: rest).splitOn '/' = [] :: rest.splitOn '/' :=
      List.splitOn_append_cons_self [] rest
    refine ⟨([], none) :: parts (rest.length + 1) rest, ?_, fun env j => ?_⟩
    · rw [List.map_cons, parts_fst (Nat.lt_succ_self _), hsplit]
    · rw [findTo_slash, walkParts_skip (Nat.zero_le _) (Or.inl rfl)]
  · rw [if_neg habs] at hlen ⊢
    rw [if_neg habs, hp, Option.getD_some]
    have hsplit : (ns.flatMap (fun s => '/' :: s) ++ '/' :: (k.node c).symlink).splitOn '/' =
        [] :: (ns ++ (k.node c).symlink.splitOn '/') := by
      rw [List.splitOn_append_cons_self, hr.splitOn h]
      rfl
    -- the text begins with a slash
    obtain ⟨rest, hrest⟩ : ∃ rest, ns.flatMap (fun s => '/' :: s) ++ '/' :: (k.node c).symlink =
        '/' :: rest := by
      cases ns with
      | nil => exact ⟨_, rfl⟩
      | cons s ns => exact ⟨_, rfl⟩
    have hrest' : rest.splitOn '/' = ns ++ (k.node c).symlink.splitOn '/' := by
      have hslash : ('/' :: rest).splitOn '/' = [] :: rest.splitOn '/' :=
        List.splitOn_append_cons_self [] rest
      rw [hrest, hslash] at hsplit
      exact (List.cons.inj hsplit).2
    rw [hsplit] at hlen
    rw [hrest]
    have hq : (parts (rest.length + 1) rest).map Prod.fst =
        ns ++ (k.node c).symlink.splitOn '/' := by
      rw [parts_fst (Nat.lt_succ_self _), hrest']
    refine ⟨(parts (rest.length + 1) rest).drop ns.length, ?_, fun env j => ?_⟩
    · rw [List.map_drop, hq, List.drop_left]
    · rw [findTo_slash]
      refine hr.walk h hl (hl.of_child (hr.used h) hc) (fun s hs => hlen s ?_) hq
      exact List.mem_cons_of_mem _ (List.mem_append_left _ hs)

def Yields (F : Nat) (env : Env) (j : Nat) (x : Option (Option Nat × Kernel)) (r : Option Nat)
    (k : Kernel) : Prop := x = some (r, k) ∨ (x = none ∧ (j < F ∨ env.fuel < F))

theorem Yields.mono {F G j' : Nat} {x : Option (Option Nat × Kernel)} (hy : Yields F env j x r k)
    (hF : F ≤ G) (hj : j' + F ≤ j + G) : Yields G env j' x r k := by
  cases hy with
  | inl hx => exact Or.inl hx
  | inr hx => exact Or.inr ⟨hx.1, by omega⟩

/-- Following a link leads to what its target resolves to. -/
theorem followLinks_yields (h : WellFormed k) (hl : LeafLinks k) (hn : n ∈ k.nodes.used)
    (hc : c ∈ (k.node n).children) (ht : (k.node c).type = .symlink) (hfit : k.LinkFits c)
    (hr : k.Resolves (k.linkStart c) ((k.node c).symlink.splitOn '/') r t) {F : Nat}
    (hF : ∀ env j qs, qs.map Prod.fst = (k.node c).symlink.splitOn '/' →
      Yields F env j (walkParts env (findTo env j) qs (k.linkStart c) k) r k) :
    ∃ G, ∀ env j, Yields G env j (followLinks env (findTo env j) 8 c k) r k := by
  obtain ⟨ns, hroute⟩ := (h.linked hn).route
  obtain ⟨hp, _⟩ := h.parent_of_child hn hc
  obtain ⟨h256, hlen⟩ := hfit n ns hp hroute
  obtain ⟨qs, hqs, hwalk⟩ := findTo_expansion h hl hroute hc hlen
  refine ⟨F + ns.length + 1, fun env j => ?_⟩
  rw [followLinks, if_pos ht]
  dsimp only
  have htext : k.linkTarget env c = some _ ∨ _ := linkTarget_eq h hroute hc h256
  cases htext with
  | inr hnone =>
    rw [hnone.1]
    exact Or.inr ⟨rfl, by omega⟩
  | inl htarget =>
    rw [htarget]
    cases j with
    | zero => exact Or.inr ⟨rfl, by omega⟩
    | succ j =>
      rw [Option.bind_eq_bind, Option.bind_some, hwalk env j]
      cases hF env j qs hqs with
      | inr hnone =>
        rw [hnone.1]
        exact Or.inr ⟨rfl, by omega⟩
      | inl hsome =>
        rw [hsome]
        refine Or.inl ?_
        cases r with
        | none => rfl
        | some m =>
          have hstart := h.linkStart_used (h.children n hn c hc)
          have hm := hr.not_link hl h hstart (hl.linkStart h hn hc) m rfl
          change followLinks env (findTo env (j + 1)) 7 m k = _
          rw [followLinks, if_neg hm]

theorem LinkFits.target (h : WellFormed k) (hn : n ∈ k.nodes.used)
    (hc : c ∈ (k.node n).children) (hfit : k.LinkFits c) :
    ∀ s ∈ (k.node c).symlink.splitOn '/', s.length ≤ 127 := by
  obtain ⟨ns, hroute⟩ := (h.linked hn).route
  obtain ⟨hp, _⟩ := h.parent_of_child hn hc
  obtain ⟨_, hlen⟩ := hfit n ns hp hroute
  intro s hs
  refine hlen s ?_
  unfold expansion
  split
  · exact hs
  · rw [List.splitOn_append_cons_self]
    exact List.mem_append_right _ hs

/-- The walk of `find` agrees with the resolution. -/
theorem Resolves.walk (h : WellFormed k) (hl : LeafLinks k) (hr : k.Resolves n ps r t)
    (hn : n ∈ k.nodes.used) (hlen : ∀ s ∈ ps, s.length ≤ 127) (ht : ∀ e ∈ t, k.Tame e) :
    ∃ F, ∀ env j qs, qs.map Prod.fst = ps →
      Yields F env j (walkParts env (findTo env j) qs n k) r k := by
  induction hr with
  | done =>
    refine ⟨0, fun env j qs hqs => Or.inl ?_⟩
    rw [List.map_eq_nil_iff.mp hqs]
    rfl
  | skip hs _ ih =>
    obtain ⟨F, hF⟩ := ih hn (fun s hs => hlen s (List.mem_cons_of_mem _ hs)) ht
    refine ⟨F, fun env j qs hqs => ?_⟩
    obtain ⟨⟨part, rest⟩, qs, rfl, rfl, hrest⟩ := List.map_eq_cons_iff.mp hqs
    rw [walkParts_skip (hlen part List.mem_cons_self) hs]
    exact hF env j qs hrest
  | up _ ih =>
    obtain ⟨F, hF⟩ := ih (h.up_used hn) (fun s hs => hlen s (List.mem_cons_of_mem _ hs)) ht
    refine ⟨F, fun env j qs hqs => ?_⟩
    obtain ⟨⟨part, rest⟩, qs, rfl, rfl, hrest⟩ := List.map_eq_cons_iff.mp hqs
    rw [walkParts_up]
    exact hF env j qs hrest
  | miss hp hno =>
    refine ⟨0, fun env j qs hqs => Or.inl ?_⟩
    obtain ⟨⟨part, rest⟩, qs, rfl, rfl, hrest⟩ := List.map_eq_cons_iff.mp hqs
    exact walkParts_miss (hlen part List.mem_cons_self) hp (findIn_none hno)
      (ht _ List.mem_cons_self)
  | child hp hc hnl _ ih =>
    obtain ⟨F, hF⟩ := ih (h.children _ hn _ hc.mem)
      (fun s hs => hlen s (List.mem_cons_of_mem _ hs)) ht
    refine ⟨F, fun env j qs hqs => ?_⟩
    obtain ⟨⟨part, rest⟩, qs, rfl, rfl, hrest⟩ := List.map_eq_cons_iff.mp hqs
    rw [walkParts_child (hlen part List.mem_cons_self) hp (h.findIn_eq hn hc) hnl]
    exact hF env j qs hrest
  | link hp hc hlink hin _ ih1 ih2 =>
    have hstart := h.linkStart_used (h.children _ hn _ hc.mem)
    have hfit : k.LinkFits _ := ht _ List.mem_cons_self
    obtain ⟨F1, hF1⟩ := ih1 hstart (hfit.target h hn hc.mem)
      (fun e he => ht e (List.mem_cons_of_mem _ (List.mem_append_left _ he)))
    obtain ⟨G, hG⟩ := followLinks_yields h hl hn hc.mem hlink hfit hin hF1
    obtain ⟨F2, hF2⟩ := ih2 (hin.used h hstart _ rfl)
      (fun s hs => hlen s (List.mem_cons_of_mem _ hs))
      (fun e he => ht e (List.mem_cons_of_mem _ (List.mem_append_right _ he)))
    refine ⟨G + F2, fun env j qs hqs => ?_⟩
    obtain ⟨⟨part, rest⟩, qs, rfl, rfl, hrest⟩ := List.map_eq_cons_iff.mp hqs
    rw [walkParts_link (hlen part List.mem_cons_self) hp (h.findIn_eq hn hc)]
    cases hG env j with
    | inr hnone =>
      rw [hnone.1]
      exact Or.inr ⟨rfl, by omega⟩
    | inl hsome =>
      rw [hsome]
      exact (hF2 env j qs hrest).mono (by omega) (by omega)
  | broken hp hc hlink hin ih =>
    have hstart := h.linkStart_used (h.children _ hn _ hc.mem)
    have hfit : k.LinkFits _ := ht _ List.mem_cons_self
    obtain ⟨F1, hF1⟩ := ih hstart (hfit.target h hn hc.mem)
      (fun e he => ht e (List.mem_cons_of_mem _ he))
    obtain ⟨G, hG⟩ := followLinks_yields h hl hn hc.mem hlink hfit hin hF1
    refine ⟨G, fun env j qs hqs => ?_⟩
    obtain ⟨⟨part, rest⟩, qs, rfl, rfl, hrest⟩ := List.map_eq_cons_iff.mp hqs
    rw [walkParts_link (hlen part List.mem_cons_self) hp (h.findIn_eq hn hc)]
    cases hG env j with
    | inr hnone =>
      rw [hnone.1]
      exact Or.inr ⟨rfl, hnone.2⟩
    | inl hsome =>
      rw [hsome]
      exact Or.inl rfl

theorem startDir_used (h : WellFormed k) (hcwd : k.getProcessCwd ∈ k.nodes.used)
    (path : List Char) : k.startDir path ∈ k.nodes.used := by
  unfold startDir
  split
  · exact h.root
  · exact hcwd

/-- `find` walks along the parts of its path. -/
theorem findTo_parts {env : Env} {j : Nat} {path : List Char} (hne : path ≠ []) :
    findTo env (j + 1) k path =
      walkParts env (findTo env j) (parts (path.length + 1) path) (k.startDir path) k := by
  cases path with
  | nil => exact absurd rfl hne
  | cons c text =>
    by_cases hc : c = '/'
    · have hparts : parts (('/' :: text).length + 1) ('/' :: text) =
          ([], some text) :: parts (text.length + 1) text := rfl
      rw [hc, findTo_slash, hparts, walkParts_skip (Nat.zero_le _) (Or.inl rfl)]
      rfl
    · have hstart : k.startDir (c :: text) = k.getProcessCwd :=
        if_neg fun he => hc (Option.some.inj he)
      rw [hstart, findTo_names hc]

/-- In a well-formed tree without cycles of links, in which links have no children, `find` returns
the node that the path stands for, as long as what it meets fits its buffers and no mounted file
system has to be asked. -/
theorem find_resolves (h : WellFormed k) (hl : LeafLinks k) (he : Expands k)
    (hcwd : k.getProcessCwd ∈ k.nodes.used) {path : List Char} (hne : path ≠ [])
    (hlen : ∀ s ∈ path.splitOn '/', s.length ≤ 127)
    (ht : ∀ r t, k.Resolves (k.startDir path) (path.splitOn '/') r t → ∀ e ∈ t, k.Tame e) :
    ∃ r, (∃ t, k.Resolves (k.startDir path) (path.splitOn '/') r t) ∧
      (∀ r' t', k.Resolves (k.startDir path) (path.splitOn '/') r' t' → r' = r) ∧
      (∀ env x q, k.find env path = some (x, q) → x = r ∧ q = k) ∧
      ∃ F, ∀ env, F ≤ env.fuel → k.find env path = some (r, k) := by
  have hstart := startDir_used h hcwd path
  obtain ⟨r, t, hr⟩ := he.resolves h (path.splitOn '/') hstart
  obtain ⟨F, hF⟩ := hr.walk h hl hstart hlen (ht r t hr)
  -- one level of recursion is the call itself
  have hyield : ∀ env, Yields (F + 1) env env.fuel (k.find env path) r k := by
    intro env
    unfold Kernel.find
    generalize hj : env.fuel = j
    cases j with
    | zero => exact Or.inr ⟨rfl, by omega⟩
    | succ j =>
      rw [findTo_parts hne]
      exact (hF env j _ (parts_fst (Nat.lt_succ_self _))).mono (by omega) (by omega)
  refine ⟨r, ⟨t, hr⟩, fun r' t' hr' => (hr.unique h hstart hr').1, fun env x q hx => ?_,
    F + 1, fun env hfuel => ?_⟩
  · cases hyield env with
    | inl hsome =>
      rw [hx] at hsome
      cases hsome
      exact ⟨rfl, rfl⟩
    | inr hnone =>
      rw [hx] at hnone
      cases hnone.1
  · cases hyield env with
    | inl hsome => exact hsome
    | inr hnone => omega

end find

section trees

def dirNode (name : String) (parent : Option Nat) (children : List Nat) : Node :=
  ⟨name.toList, true, .dir, parent, children, [], none, 0, none, none⟩

def fileNode (name : List Char) (parent : Nat) : Node :=
  ⟨name, false, .file, some parent, [], [], none, 0, none, none⟩

def linkNode (name : String) (parent : Nat) (target : List Char) : Node :=
  ⟨name.toList, false, .symlink, some parent, [], target, none, 0, none, none⟩

def withNodes (nodes : List Node) (cwd : Nat) : Kernel :=
  { boot with
    nodes := ⟨fun n => nodes.getD n (fileNode [] 0), Finset.range nodes.length⟩
    procs := ⟨fun _ => { Process.zero with cwd := some cwd }, {0}⟩ }

def libTree : Kernel := withNodes
  [dirNode "/" none [1], dirNode "usr" (some 0) [2, 3], dirNode "lib" (some 1) [4],
    linkNode "l" 1 "lib".toList, fileNode "x".toList 2] 0

theorem libTree_wellFormed : WellFormed libTree where
  root := by decide
  top := by decide
  once := by decide
  children := by decide
  climbs n hn := ⟨3, by revert n; decide⟩
  dirs := by decide
  siblings := by decide
  names := by decide

theorem libTree_link : libTree.Resolves (libTree.linkStart 3)
    ((libTree.node 3).symlink.splitOn '/') (some 2) [] := by
  have hstart : libTree.linkStart 3 = 1 := by decide
  have hsplit : (libTree.node 3).symlink.splitOn '/' = ["lib".toList] := by decide
  rw [hstart, hsplit]
  exact .child (c := 2) (by decide) ⟨by decide, by decide⟩ (by decide) .done

theorem libTree_expands : Expands libTree := by
  intro c hc ht
  have h3 : c = 3 := by
    revert c
    decide
  rw [h3]
  exact ⟨_, _, libTree_link⟩

theorem libTree_resolves : libTree.Resolves (libTree.startDir "/usr/l/x".toList)
    ("/usr/l/x".toList.splitOn '/') (some 4) [.link 3] := by
  have hstart : libTree.startDir "/usr/l/x".toList = 0 := by decide
  have hsplit : "/usr/l/x".toList.splitOn '/' = [[], "usr".toList, ['l'], ['x']] := by decide
  rw [hstart, hsplit]
  refine .skip (Or.inl rfl) (.child (c := 1) (by decide) ⟨by decide, by decide⟩ (by decide) ?_)
  refine .link (c := 3) (by decide) ⟨by decide, by decide⟩ (by decide) libTree_link ?_
  exact .child (c := 4) (by decide) ⟨by decide, by decide⟩ (by decide) .done

theorem libTree_fits : libTree.LinkFits 3 := by
  intro d ns hd hr
  cases hd
  have hroute : libTree.Route 1 ([] ++ [(libTree.node 1).name]) := .child .root (by decide)
  rw [hroute.unique libTree_wellFormed hr]
  decide

theorem find_resolves_lib : libTree.Resolves (libTree.startDir "/usr/l/x".toList)
      ("/usr/l/x".toList.splitOn '/') (some 4) [.link 3] ∧
    ∃ F, ∀ env, F ≤ env.fuel → libTree.find env "/usr/l/x".toList = some (some 4, libTree) := by
  have htame : ∀ r t, libTree.Resolves (libTree.startDir "/usr/l/x".toList)
      ("/usr/l/x".toList.splitOn '/') r t → ∀ e ∈ t, libTree.Tame e := by
    intro r t hr e he
    rw [(libTree_resolves.unique libTree_wellFormed (by decide) hr).2] at he
    rw [List.mem_singleton.mp he]
    exact libTree_fits
  obtain ⟨r, _, hall, _, hfuel⟩ := find_resolves libTree_wellFormed (by decide) libTree_expands
    (by decide) (by decide) (by decide) htame
  rw [← hall _ _ libTree_resolves] at hfuel
  exact ⟨libTree_resolves, hfuel⟩

/-- `/l` leads to a name that is longer than the buffer of a component. -/
def longTree : Kernel := withNodes
  [dirNode "/" none [1, 2], linkNode "l" 0 ('/' :: List.replicate 128 'a'),
    fileNode (List.replicate 127 'a') 0] 0

/-- The directory `/d` with children was made a link to `/e`. -/
def retypedTree : Kernel := withNodes
  [dirNode "/" none [1, 4], { linkNode "d" 0 "/e".toList with directory := true, children := [2, 3] },
    linkNode "l" 1 "x".toList, fileNode "x".toList 1, dirNode "e" (some 0) []] 1

theorem longTree_wellFormed : WellFormed longTree where
  root := by decide
  top := by decide
  once := by decide
  children := by decide
  climbs n hn := ⟨1, by revert n; decide⟩
  dirs := by decide
  siblings := by decide
  names := by decide

theorem retypedTree_wellFormed : WellFormed retypedTree where
  root := by decide
  top := by decide
  once := by decide
  children := by decide
  climbs n hn := ⟨2, by revert n; decide⟩
  dirs := by decide
  siblings := by decide
  names := by decide

theorem longTree_link : longTree.Resolves (longTree.linkStart 1)
    ((longTree.node 1).symlink.splitOn '/') none [.miss 0] := by
  have hstart : longTree.linkStart 1 = 0 := by decide
  have hsplit : (longTree.node 1).symlink.splitOn '/' = [[], List.replicate 128 'a'] := by decide
  rw [hstart, hsplit]
  have hno : ∀ c ∈ [1, 2], (longTree.node c).name ≠ List.replicate 128 'a' := by decide
  exact .skip (Or.inl rfl) (.miss (by decide) fun c hc => hno c hc.mem hc.name)

theorem longTree_expands : Expands longTree := by
  intro c hc ht
  have h1 : c = 1 := by
    revert c
    decide
  rw [h1]
  exact ⟨_, _, longTree_link⟩

theorem retypedTree_link : retypedTree.Resolves (retypedTree.linkStart 2)
    ((retypedTree.node 2).symlink.splitOn '/') (some 3) [] := by
  have hstart : retypedTree.linkStart 2 = 1 := by decide
  have hsplit : (retypedTree.node 2).symlink.splitOn '/' = [['x']] := by decide
  rw [hstart, hsplit]
  exact .child (c := 3) (by decide) ⟨by decide, by decide⟩ (by decide) .done

theorem retypedTree_expands : Expands retypedTree := by
  intro c hc ht
  have h12 : c = 1 ∨ c = 2 := by
    revert c
    decide
  cases h12 with
  | inl h1 =>
    rw [h1]
    have hstart : retypedTree.linkStart 1 = 0 := by decide
    have hsplit : (retypedTree.node 1).symlink.splitOn '/' = [[], ['e']] := by decide
    rw [hstart, hsplit]
    exact ⟨some 4, [], .skip (Or.inl rfl)
      (.child (c := 4) (by decide) ⟨by decide, by decide⟩ (by decide) .done)⟩
  | inr h2 =>
    rw [h2]
    exact ⟨_, _, retypedTree_link⟩

/-- Short of that `find` may return something else: a component of a link is cut off at 127
characters, and a relative link below a node that was made a link itself is looked for elsewhere. -/
theorem find_differs :
    (WellFormed longTree ∧ LeafLinks longTree ∧ Expands longTree ∧
      longTree.Resolves (longTree.startDir "/l".toList) ("/l".toList.splitOn '/') none
        [.link 1, .miss 0] ∧
      (∀ ns, (longTree.expansion 1 ns).length < 256) ∧
      (longTree.find freshEnv "/l".toList).map Prod.fst = some (some 2)) ∧
    (WellFormed retypedTree ∧ Expands retypedTree ∧
      retypedTree.Resolves (retypedTree.startDir "l".toList) ("l".toList.splitOn '/') (some 3)
        [.link 2] ∧
      retypedTree.LinkFits 2 ∧
      (retypedTree.find freshEnv "l".toList).map Prod.fst = some none) := by
  have hlong : (longTree.find freshEnv "/l".toList).map Prod.fst = some (some 2) := by
    decide +kernel
  have hretyped : (retypedTree.find freshEnv "l".toList).map Prod.fst = some none := by
    decide +kernel
  refine ⟨⟨longTree_wellFormed, by decide, longTree_expands, ?_, ?_, hlong⟩,
    ⟨retypedTree_wellFormed, retypedTree_expands, ?_, ?_, hretyped⟩⟩
  · have hstart : longTree.startDir "/l".toList = 0 := by decide
    have hsplit : "/l".toList.splitOn '/' = [[], ['l']] := by decide
    rw [hstart, hsplit]
    exact .skip (Or.inl rfl)
      (.broken (c := 1) (by decide) ⟨by decide, by decide⟩ (by decide) longTree_link)
  · intro ns
    unfold expansion
    rw [if_pos (by decide)]
    change ('/' :: List.replicate 128 'a').length < 256
    rw [List.length_cons, List.length_replicate]
    decide
  · have hstart : retypedTree.startDir "l".toList = 1 := by decide
    have hsplit : "l".toList.splitOn '/' = [['l']] := by decide
    rw [hstart, hsplit]
    have hlink := retypedTree_link
    exact .link (c := 2) (by decide) ⟨by decide, by decide⟩ (by decide) hlink .done
  · intro d ns hd hr
    cases hd
    have hroute : retypedTree.Route 1 ([] ++ [(retypedTree.node 1).name]) :=
      .child .root (by decide)
    rw [hroute.unique retypedTree_wellFormed hr]
    decide

end trees

end Kernel

end LosTacOS.Os
