import LosTacOS.Os.Dispatch
import LosTacOS.Os.Standing

/-! What `remove` takes out of the tree. It looks its path up like every other call, so that the node
it takes out is the entry that the path names only where the lookup ends at that entry. -/
namespace LosTacOS.Os

structure Names (path base s : List Char) : Prop where
  text : ∃ i, path = base ++ s ++ List.replicate i '/'
  name : s ≠ [] ∧ '/' ∉ s
  base : base = [] ∨ ∃ b, base = b ++ ['/']

section text

variable {path base s : List Char}

theorem splitOn_slashes (i : Nat) :
    (List.replicate i '/').splitOn '/' = List.replicate (i + 1) ([] : List Char) := by
  induction i with
  | zero => rfl
  | succ i ih =>
    have hsplit : ('/' :: List.replicate i '/').splitOn '/' =
        [] :: (List.replicate i '/').splitOn '/' := List.splitOn_append_cons_self [] _
    rw [List.replicate_succ, hsplit, ih]
    rfl

theorem splitOn_trailing (h : '/' ∉ s) (i : Nat) :
    (s ++ List.replicate i '/').splitOn '/' = s :: List.replicate i [] := by
  cases i with
  | zero => rw [List.replicate_zero, List.append_nil, List.splitOn_eq_singleton h, List.replicate_zero]
  | succ i =>
    rw [List.replicate_succ, List.splitOn_append_cons_self, List.splitOn_eq_singleton h,
      splitOn_slashes]
    rfl

/-- The components of the directory, the name and nothing more. -/
theorem Names.splitOn (h : Names path base s) : ∃ bs i,
    path.splitOn '/' = bs ++ s :: List.replicate i [] ∧
      (base = [] ∧ bs = [] ∨ base ≠ [] ∧ base.splitOn '/' = bs ++ [[]]) := by
  obtain ⟨i, hpath⟩ := h.text
  cases h.base with
  | inl hnil =>
    refine ⟨[], i, ?_, Or.inl ⟨hnil, rfl⟩⟩
    rw [hpath, hnil, List.nil_append, splitOn_trailing h.name.2, List.nil_append]
  | inr hb =>
    obtain ⟨b, hb⟩ := hb
    refine ⟨b.splitOn '/', i, ?_, Or.inr ⟨?_, ?_⟩⟩
    · rw [hpath, hb, List.append_assoc, List.append_assoc, List.singleton_append,
        List.splitOn_append_cons_self, splitOn_trailing h.name.2]
    · rw [hb]
      exact List.append_ne_nil_of_right_ne_nil b (List.cons_ne_nil _ _)
    · rw [hb, List.splitOn_append_cons_self]
      rfl

/-- A path starts where the path of its directory starts. -/
theorem Names.head (h : Names path base s) (hne : base ≠ []) :
    path ≠ [] ∧ path.head? = base.head? := by
  obtain ⟨i, hpath⟩ := h.text
  cases base with
  | nil => exact absurd rfl hne
  | cons c base =>
    rw [hpath]
    exact ⟨List.cons_ne_nil _ _, rfl⟩

theorem Names.relative (h : Names path [] s) : path ≠ [] ∧ path.head? ≠ some '/' := by
  obtain ⟨i, hpath⟩ := h.text
  cases hs : s with
  | nil => exact absurd hs h.name.1
  | cons c t =>
    rw [hpath, hs]
    refine ⟨List.cons_ne_nil _ _, fun hc => h.name.2 ?_⟩
    rw [hs, ← Option.some.inj hc]
    exact List.mem_cons_self

end text

namespace Kernel

variable {env : Env} {k k' q : Kernel} {path base s : List Char} {n m c d dir parent : Nat}
  {find : Finder} {ps ps' : List (List Char × Option (List Char))} {b : Bool}

section walks

theorem walkParts_skips {i : Nat} (h : ps.map Prod.fst = List.replicate i []) :
    walkParts env find ps n k = some (some n, k) := by
  induction ps generalizing i with
  | nil => rfl
  | cons p ps ih =>
    cases i with
    | zero => cases h
    | succ i =>
      obtain ⟨part, rest⟩ := p
      obtain ⟨hpart, hps⟩ := List.cons.inj h
      replace hpart : part = [] := hpart
      rw [hpart, walkParts_skip (Nat.zero_le _) (Or.inl rfl)]
      exact ih hps

theorem walkParts_empty {rest : Option (List Char)}
    (qs : List (List Char × Option (List Char))) :
    walkParts env find (ps ++ ([], rest) :: qs) n k = walkParts env find (ps ++ qs) n k := by
  induction ps generalizing n k with
  | nil => exact walkParts_skip (Nat.zero_le _) (Or.inl rfl)
  | cons p ps ih =>
    obtain ⟨part, rest⟩ := p
    rw [List.cons_append, List.cons_append, walkParts, walkParts]
    dsimp only
    rw [ih, ih]
    split
    · rfl
    split
    · rfl
    cases k.findIn n (cut part) with
    | none => rfl
    | some c =>
      dsimp only
      congr 1
      funext found
      obtain ⟨next, q⟩ := found
      cases next with
      | none => rfl
      | some x => exact ih

/-- A walk that misses no component goes on with what is behind, whatever text its components
carry with them. -/
theorem walkParts_through (hmiss : missIn env find ps n k = none)
    (h : walkParts env find ps n k = some (some d, q)) (hps : ps'.map Prod.fst = ps.map Prod.fst)
    (qs : List (List Char × Option (List Char))) :
    walkParts env find (ps' ++ qs) n k = walkParts env find qs d q := by
  induction ps generalizing ps' n k with
  | nil =>
    cases h
    rw [List.map_nil, List.map_eq_nil_iff] at hps
    rw [hps]
    rfl
  | cons p ps ih =>
    obtain ⟨part, rest⟩ := p
    rw [List.map_cons] at hps
    obtain ⟨⟨part', rest'⟩, ps', rfl, hpart, hps⟩ := List.map_eq_cons_iff.mp hps
    replace hpart : part' = part := hpart
    rw [hpart, List.cons_append]
    rw [missIn] at hmiss
    rw [walkParts] at h ⊢
    dsimp only at h ⊢
    by_cases hskip : cut part = [] ∨ cut part = ['.']
    · rw [if_pos hskip] at h hmiss ⊢
      exact ih hmiss h hps
    rw [if_neg hskip] at h hmiss ⊢
    by_cases hup : cut part = ['.', '.']
    · rw [if_pos hup] at h hmiss ⊢
      exact ih hmiss h hps
    rw [if_neg hup] at h hmiss ⊢
    cases hc : k.findIn n (cut part) with
    | none =>
      rw [hc] at hmiss
      cases hmiss
    | some c =>
      rw [hc] at h hmiss
      dsimp only at h hmiss ⊢
      obtain ⟨⟨next, q1⟩, hl, h⟩ := Option.bind_eq_some_iff.mp h
      rw [hl, Option.bind_eq_bind, Option.bind_some] at hmiss ⊢
      cases next with
      | none => cases h
      | some x => exact ih hmiss h hps

/-- `find` and the search for a miss walk along the same components. -/
theorem search_eq (hne : path ≠ []) : ∃ qs, qs.map Prod.fst = path.splitOn '/' ∧ ∀ env j,
    findTo env (j + 1) k path = walkParts env (findTo env j) qs (k.startDir path) k ∧
      missTo env (j + 1) k path = missIn env (findTo env j) qs (k.startDir path) k := by
  refine ⟨parts (path.length + 1) path, parts_fst (Nat.lt_succ_self _),
    fun env j => ⟨findTo_parts hne, ?_⟩⟩
  cases path with
  | nil => exact absurd rfl hne
  | cons c rest =>
    by_cases hc : c = '/'
    · have hparts : parts (('/' :: rest).length + 1) ('/' :: rest) =
          ([], some rest) :: parts (rest.length + 1) rest := rfl
      rw [hc, hparts, missIn, if_pos (Or.inl (by rfl))]
      rfl
    · have hstart : k.startDir (c :: rest) = k.getProcessCwd :=
        if_neg fun he => hc (Option.some.inj he)
      rw [hstart, missTo]
      · exact List.cons_ne_nil c rest
      · exact fun t ht => hc (List.cons.inj ht).1

end walks

/-- The components of `base`, all of which are there, lead to the directory `d`. -/
def InDir (env : Env) (k : Kernel) (base : List Char) (d : Nat) (q : Kernel) : Prop :=
  if base = [] then d = k.getProcessCwd ∧ q = k
  else k.find env base = some (some d, q) ∧ k.miss env base = none

/-- The rest of the search is the lookup of the name in the directory. -/
theorem InDir.lookup {j : Nat} (hd : InDir env k base d q) (hn : Names path base s)
    (hj : env.fuel = j + 1) : Grown k q ∧ ∃ rest es i, es.map Prod.fst = List.replicate i [] ∧
      k.find env path = walkParts env (findTo env j) ((s, rest) :: es) d q := by
  obtain ⟨bs, i, hsplit, hbase⟩ := hn.splitOn
  unfold InDir at hd
  unfold Kernel.find
  rw [hj]
  obtain ⟨hnil, hbs⟩ | ⟨hne, hbs⟩ := hbase
  · rw [if_pos hnil] at hd
    obtain ⟨hdir, rfl⟩ := hd
    rw [hnil] at hn
    obtain ⟨hpath, hrel⟩ := hn.relative
    obtain ⟨qs, hqs, hfind⟩ := search_eq (k := q) hpath
    rw [hsplit, hbs] at hqs
    obtain ⟨⟨part, rest⟩, es, rfl, hpart, hes⟩ := List.map_eq_cons_iff.mp hqs
    refine ⟨.of_eq rfl rfl rfl, rest, es, i, hes, ?_⟩
    rw [(hfind env j).1, hdir]
    replace hpart : part = s := hpart
    rw [hpart]
    have hstart : q.startDir path = q.getProcessCwd := if_neg hrel
    rw [hstart]
  · rw [if_neg hne] at hd
    obtain ⟨hpath, hhead⟩ := hn.head hne
    have hstart : k.startDir path = k.startDir base := by
      unfold startDir
      rw [hhead]
    obtain ⟨qs, hqs, hfind⟩ := search_eq (k := k) hpath
    obtain ⟨rs, hrs, hwalk⟩ := search_eq (k := k) hne
    rw [hbs] at hrs
    obtain ⟨rs1, rs2, rfl, hrs1, hrs2⟩ := List.map_eq_append_iff.mp hrs
    rw [hsplit] at hqs
    obtain ⟨qs1, qs2, rfl, hqs1, hqs2⟩ := List.map_eq_append_iff.mp hqs
    obtain ⟨⟨part, rest⟩, es, rfl, hpart, hes⟩ := List.map_eq_cons_iff.mp hqs2
    refine ⟨find_grown hd.1, rest, es, i, hes, ?_⟩
    replace hpart : part = s := hpart
    have hbw := hd.1
    have hbm := hd.2
    unfold Kernel.find at hbw
    unfold Kernel.miss at hbm
    rw [hj, (hwalk env j).1] at hbw
    rw [hj, (hwalk env j).2] at hbm
    obtain ⟨⟨empty, r⟩, rs3, rfl, hempty, hrs3⟩ := List.map_eq_cons_iff.mp hrs2
    replace hempty : empty = [] := hempty
    have hsame : (qs1 ++ (empty, r) :: rs3).map Prod.fst = (rs1 ++ (empty, r) :: rs3).map Prod.fst := by
      rw [List.map_append, List.map_append, hqs1, hrs1]
    have hthrough := walkParts_through hbm hbw hsame ((part, rest) :: es)
    rw [List.map_eq_nil_iff.mp hrs3, hempty, List.append_assoc, List.singleton_append,
      walkParts_empty] at hthrough
    rw [(hfind env j).1, hstart, ← hpart, ← hthrough]

/-- `n` is the entry of the directory `d` that the path names. -/
def NamedEntry (env : Env) (k : Kernel) (path s : List Char) (d n : Nat) : Prop :=
  ∃ base q, Names path base s ∧ InDir env k base d q ∧ k.findIn d s = some n

/-- The entry that the path names, a node of the tree with nothing below it, has been taken out of
its directory, and nothing else has changed. -/
structure TakesEntry (env : Env) (k : Kernel) (path : List Char) (k' : Kernel) (d n : Nat) : Prop where
  entry : ∃ s, NamedEntry env k path s d n
  linked : k.Linked n
  root : n ≠ k.root
  leaf : (k.node n).children = []
  mount : (k.node n).type ≠ .mount
  gone : ∀ m, k'.Linked m ↔ k.Linked m ∧ m ≠ n
  nodes : k'.nodes = (k.takeOut n d).nodes

/-- What `remove` is for: success takes the named entry out, failure changes no node. -/
def Removes (env : Env) (k : Kernel) (path : List Char) (b : Bool) (k' : Kernel) : Prop :=
  if b then ∃ d n, TakesEntry env k path k' d n else k'.nodes = k.nodes

/-- The path names an entry of the tree, by a name that is looked up as it is, which is neither a
link nor a mount point nor has anything below it. -/
structure Removable (env : Env) (k : Kernel) (path s : List Char) (d n : Nat) : Prop where
  entry : NamedEntry env k path s d n
  plain : Plain s
  short : s.length ≤ 127
  linked : k.Linked d
  link : (k.node n).type ≠ .symlink
  mount : (k.node n).type ≠ .mount
  leaf : (k.node n).children = []

def Stays (env : Env) (k : Kernel) (path : List Char) : Prop :=
  ∀ n q, k.find env path = some (some n, q) →
    n = q.root ∨ ((q.node n).directory = true ∧ (q.node n).children ≠ [])

section tree

theorem freeFile_nodes (k : Kernel) (f : Nat) : (k.freeFile f).nodes = k.nodes := by
  unfold freeFile
  split
  · rfl
  · rfl

theorem freeFile_root (k : Kernel) (f : Nat) : (k.freeFile f).root = k.root := by
  unfold freeFile
  split
  · rfl
  · rfl

/-- `remove` with its answer: either nothing is taken out, or the node that was found. -/
theorem remove_answer (h : k.remove env path = some (b, k')) :
    ∃ node q, k.find env path = some (node, q) ∧
      ((b = false ∧ k' = q ∧ ∀ n, node = some n →
          n = q.root ∨ ((q.node n).directory = true ∧ (q.node n).children ≠ [])) ∨
        (b = true ∧ ∃ n parent, node = some n ∧ n ≠ q.root ∧
          ¬((q.node n).directory = true ∧ (q.node n).children ≠ []) ∧
          (q.node n).parent = some parent ∧ k'.nodes = (q.takeOut n parent).nodes ∧
          k'.root = q.root)) := by
  obtain ⟨⟨node, q⟩, hf, h⟩ := Option.bind_eq_some_iff.mp h
  refine ⟨node, q, hf, ?_⟩
  cases node with
  | none =>
    cases h
    exact Or.inl ⟨rfl, rfl, nofun⟩
  | some n =>
    dsimp only at h
    split at h
    · rename_i hstay
      cases h
      refine Or.inl ⟨rfl, rfl, fun m hm => ?_⟩
      cases hm
      exact hstay
    · rename_i hgo
      obtain ⟨hroot, hempty⟩ := not_or.mp hgo
      obtain ⟨parent, hp, h⟩ := Option.bind_eq_some_iff.mp h
      obtain ⟨-, h⟩ := Option.ite_none_right_eq_some.mp h
      cases h
      refine Or.inr ⟨rfl, n, parent, rfl, hroot, hempty, hp, ?_, ?_⟩
      · dsimp only
        split
        · rw [freeFile_nodes]
          rfl
        · rfl
      · dsimp only
        split
        · exact freeFile_root _ _
        · rfl

/-- What taking two nodes out of the same tree has in common. -/
theorem takeOut_eq {p : Nat} (hn : n ∈ (k.node d).children) (hu : n ∈ k.nodes.used)
    (h : (k.takeOut n d).nodes = (k.takeOut m p).nodes) : m = n ∧ p = d := by
  have hused : k.nodes.used.erase n = k.nodes.used.erase m := congrArg Arena.used h
  have hm : m = n := by
    by_contra hne
    have hin : n ∈ k.nodes.used.erase m := Finset.mem_erase.mpr ⟨Ne.symm hne, hu⟩
    rw [← hused] at hin
    exact (Finset.mem_erase.mp hin).1 rfl
  refine ⟨hm, ?_⟩
  by_contra hne
  have hnode : (k.takeOut n d).node d = (k.takeOut m p).node d := by
    unfold node
    rw [h]
  have hchildren := congrArg Node.children hnode
  rw [takeOut_children, takeOut_children, if_pos rfl, if_neg (Ne.symm hne)] at hchildren
  have hlen := congrArg List.length hchildren
  rw [List.length_erase_of_mem hn] at hlen
  have hpos := List.length_pos_of_mem hn
  omega

theorem Rooted.child_ne (hr : Rooted k) (hd : k.Linked d) (hn : n ∈ (k.node d).children) :
    n ≠ k.root ∧ n ≠ d ∧ (k.node d).parent.getD d ≠ n := by
  have hup := hr.up hd hn
  have hroot : n ≠ k.root := by
    intro he
    rw [he, hr.top] at hup
    cases hup
  have hclimb : k.climb n = d := by
    unfold climb
    rw [hup]
    rfl
  have hne : n ≠ d := by
    intro he
    obtain ⟨j, hj⟩ := hr.climbs (Under.child hd hn)
    rw [← he] at hclimb
    rw [Function.iterate_fixed hclimb] at hj
    exact hroot hj
  refine ⟨hroot, hne, fun hback => ?_⟩
  -- otherwise climbing from the child would go round in a circle
  have hcircle : ∀ j, k.climb^[j] n = n ∨ k.climb^[j] n = d := by
    intro j
    induction j with
    | zero => exact Or.inl rfl
    | succ j ih =>
      rw [Function.iterate_succ_apply']
      cases ih with
      | inl he =>
        rw [he]
        exact Or.inr hclimb
      | inr he =>
        rw [he]
        exact Or.inl hback
  obtain ⟨j, hj⟩ := hr.climbs (Under.child hd hn)
  cases hcircle j with
  | inl he => exact hroot (he.symm.trans hj)
  | inr he =>
    rw [hj] at he
    rw [← he, hr.top] at hback
    exact hroot hback.symm

end tree

section names

def Reachable (k : Kernel) (m : Nat) : Prop :=
  k.Linked m ∧ (m = k.root ∨ (k.node m).name.length ≤ 127 ∨ (k.node m).children ≠ [])

/-- A linked node after `create_node`. -/
theorem Rooted.linkNew_old {x : Bool} (hr : Rooted k) (hn : n ∉ k.nodes.used) (hm : k.Linked m) :
    (k.linkNew n s x dir).node m = { k.node m with
      children := if m = dir then n :: (k.node m).children else (k.node m).children } := by
  have hmn : m ≠ n := fun he => hn (he ▸ hr.used hm)
  by_cases hd : m = dir
  · rw [if_pos hd, hd]
    exact linkNew_dir fun he => hmn (hd.trans he.symm)
  · rw [if_neg hd]
    exact linkNew_other hmn hd

theorem Rooted.createNode_node {x : Bool} (hr : Rooted k)
    (hc : k.createNode env s x dir = some (n, k')) (hm : k.Linked m) : k'.node m =
      { k.node m with
        children := if m = dir then n :: (k.node m).children else (k.node m).children } := by
  obtain ⟨hn, rfl⟩ := createNode_eq env hc
  have hr1 : Rooted { k with allocs := k.allocs + 1 } := hr.of_shape rfl
  exact hr1.linkNew_old hn (hm.of_shape rfl)

structure KeepsNames (k k' : Kernel) : Prop where
  root : k'.root = k.root
  linked : ∀ m, k.Linked m → k'.Linked m
  name : ∀ m, k.Linked m → (k'.node m).name = (k.node m).name
  children : ∀ m, k.Linked m → (k.node m).children ≠ [] → (k'.node m).children ≠ []

theorem KeepsNames.of_nodes (hn : k'.nodes = k.nodes) (hr : k'.root = k.root) : KeepsNames k k' := by
  have hnode : ∀ m, k'.node m = k.node m := fun m => congrArg (Arena.cell · m) hn
  refine ⟨hr, fun m hm => ?_, fun m _ => by rw [hnode], fun m _ => by rw [hnode]; exact id⟩
  unfold Linked
  rw [hr]
  refine Under.mono hm fun d _ c hc => ?_
  rw [hnode]
  exact hc

theorem KeepsNames.trans {k1 : Kernel} (h : KeepsNames k k1) (h' : KeepsNames k1 k') :
    KeepsNames k k' where
  root := h'.root.trans h.root
  linked m hm := h'.linked m (h.linked m hm)
  name m hm := (h'.name m (h.linked m hm)).trans (h.name m hm)
  children m hm hc := h'.children m (h.linked m hm) (h.children m hm hc)

theorem reachable_stands : StandRule env Rooted KeepsNames (fun _ _ => True) Reachable where
  refl _ := .of_nodes rfl rfl
  trans h h' := h.trans h'
  keep _ _ := trivial
  root _ := trivial
  cwd _ := trivial
  parent _ _ _ := trivial
  child _ _ _ := trivial
  alloc h := ⟨h.of_shape rfl, .of_nodes rfl rfl⟩
  device _ h := ⟨h.of_shape rfl, .of_nodes rfl rfl⟩
  dev := by
    intro k name dir n k' dev h _ _ hc
    have h1 := h.createNode hc
    have hroot : k'.root = k.root := by
      obtain ⟨_, rfl⟩ := createNode_eq env hc
      rfl
    have hnew : n ∉ k.nodes.used := (createNode_eq env hc).1
    have hnode : ∀ m, k.Linked m → (k'.asDevice n dev).node m = _ := fun m hm =>
      (setNode_node k' n m _).trans
        ((if_neg fun he : m = n => hnew (he ▸ h.used hm)).trans (h.createNode_node hc hm))
    refine ⟨h1.of_shape (setNode_shape rfl rfl), hroot, fun m hm => ?_, fun m hm => ?_,
      fun m hm hne => ?_⟩
    · refine Linked.of_shape ?_ (setNode_shape rfl rfl)
      unfold Linked
      rw [hroot]
      refine Under.mono hm fun d hd c hcd => ?_
      rw [h.createNode_node hc hd]
      dsimp only
      split
      · exact List.mem_cons_of_mem n hcd
      · exact hcd
    · rw [hnode m hm]
    · rw [hnode m hm]
      dsimp only
      split
      · exact List.cons_ne_nil _ _
      · exact hne
  ask := by
    intro k k' n fs found _ _ _ _ _ h _
    cases found with
    | false => exact ⟨h.of_shape rfl, .of_nodes rfl rfl⟩
    | true => exact ⟨h.of_shape rfl, .of_nodes rfl rfl⟩
  stays := by
    rintro k k' n hk ⟨hl, hn⟩
    refine ⟨hk.linked n hl, ?_⟩
    obtain hroot | hname | hchildren := hn
    · exact Or.inl (hroot.trans hk.root.symm)
    · rw [hk.name n hl]
      exact Or.inr (Or.inl hname)
    · exact Or.inr (Or.inr (hk.children n hl hchildren))
  top _ := ⟨.refl, Or.inl rfl⟩
  above := by
    rintro k n h ⟨hl, hn⟩
    cases hp : (k.node n).parent with
    | none => exact ⟨hl, hn⟩
    | some d =>
      have hroot : n ≠ k.root := by
        intro he
        rw [he, h.top] at hp
        cases hp
      obtain ⟨e, he, hle, hmem⟩ := h.parent hl hroot
      rw [hp] at he
      cases he
      exact ⟨hle, Or.inr (Or.inr (List.ne_nil_of_mem hmem))⟩
  below := by
    rintro k n s c _ ⟨hl, _⟩ _ hlen hc _
    refine ⟨hl.findIn hc, Or.inr (Or.inl ?_)⟩
    rw [(findIn_child hc).2]
    exact hlen

end names

section remove

theorem findIn_of_nodes (h : q.nodes = k.nodes) (d : Nat) (s : List Char) :
    q.findIn d s = k.findIn d s := by
  unfold findIn node
  rw [h]

/-- The lookup of the name ends at the entry itself only for a plain and short name of a node that is
no link. -/
theorem lookup_entry {j i : Nat} {rest : Option (List Char)}
    {es : List (List Char × Option (List Char))} {q' : Kernel} (hr : Rooted k)
    (hq : q.nodes = k.nodes) (hroot : q.root = k.root) (hq' : q'.nodes = k.nodes)
    (hroot' : q'.root = k.root) (hd : k.Linked d) (hs : s ≠ []) (hn : k.findIn d s = some n)
    (hleaf : (k.node n).children = []) (hes : es.map Prod.fst = List.replicate i [])
    (h : walkParts env (findTo env j) ((s, rest) :: es) d q = some (some n, q')) :
    Plain s ∧ s.length ≤ 127 ∧ (k.node n).type ≠ .symlink := by
  have hnode : ∀ m, q.node m = k.node m := fun m => congrArg (Arena.cell · m) hq
  have hnode' : ∀ m, q'.node m = k.node m := fun m => congrArg (Arena.cell · m) hq'
  obtain ⟨hmem, hname⟩ := findIn_child hn
  obtain ⟨hnroot, hnd, hback⟩ := hr.child_ne hd hmem
  have hqr : Rooted q := by
    refine hr.of_linked hroot ?_ fun m _ => hnode m
    rw [hq]
  rw [walkParts] at h
  dsimp only at h
  by_cases hskip : cut s = [] ∨ cut s = ['.']
  · rw [if_pos hskip, walkParts_skips hes] at h
    cases h
    exact absurd rfl hnd
  rw [if_neg hskip] at h
  by_cases hup : cut s = ['.', '.']
  · rw [if_pos hup, walkParts_skips hes, hnode] at h
    cases h
    exact absurd rfl hback
  rw [if_neg hup, findIn_of_nodes hq] at h
  cases hc : k.findIn d (cut s) with
  | none =>
    rw [hc] at h
    exact absurd (findMounted_self h) hnd
  | some c =>
    rw [hc] at h
    obtain ⟨⟨next, q1⟩, hl, h⟩ := Option.bind_eq_some_iff.mp h
    cases next with
    | none => cases h
    | some x =>
      dsimp only at h
      rw [walkParts_skips hes] at h
      cases h
      -- a link is not left on a link, nor on a node with a name that is too long
      have hnl := followLinks_not_link hl
      rw [hnode'] at hnl
      by_cases hlen : s.length ≤ 127
      · rw [cut_short hlen] at hskip hup
        exact ⟨⟨hs, fun he => hskip (Or.inr he), hup⟩, hlen, hnl⟩
      · exfalso
        have hcut : (cut s).length = 127 := by
          unfold cut
          rw [List.length_take]
          omega
        have hdq : q.Linked d := by
          refine Linked.of_shape hd ?_
          unfold shape node
          rw [hroot, hq]
        have hcq : q.findIn d (cut s) = some c := by rw [findIn_of_nodes hq, hc]
        have hreach : Reachable q c := by
          refine ⟨hdq.findIn hcq, Or.inr (Or.inl ?_)⟩
          rw [(findIn_child hcq).2, hcut]
        obtain ⟨_, hor⟩ := reachable_stands.followLinks
          (fun hi hf => reachable_stands.findTo j hi hf) hqr trivial (fun _ => hreach) hl
        rw [hnode', hname, hleaf, hroot'] at hor
        obtain he | he | he := hor
        · exact hnroot he
        · exact hlen he
        · exact he rfl

theorem takeOut_nodes (h : q.nodes = k.nodes) (n d : Nat) :
    (q.takeOut n d).nodes = (k.takeOut n d).nodes := by
  unfold takeOut setNode node
  dsimp only
  rw [h]

theorem Rooted.takeOut_leaf (hr : Rooted k) (hn : n ≠ k.root) (hp : (k.node n).parent = some d)
    (hleaf : (k.node n).children = []) (hnodes : k'.nodes = (k.takeOut n d).nodes)
    (hroot : k'.root = k.root) (m : Nat) : k'.Linked m ↔ k.Linked m ∧ m ≠ n := by
  have hshape : k'.shape = (k.takeOut n d).shape := by
    unfold shape node
    rw [hnodes, hroot]
    rfl
  constructor
  · intro hm
    exact hr.takeOut_linked hn hp (hm.of_shape hshape.symm)
  · rintro ⟨hm, hne⟩
    exact Linked.of_shape (hm.takeOut fun hu => hne (hu.leaf hleaf)) hshape

theorem walkParts_grown {j : Nat} {r : Option Nat}
    (h : walkParts env (findTo env j) ps n k = some (r, k')) : Grown k k' :=
  (grown_search.walkParts (P := fun _ _ _ => True) (onlyAdds_findTo j).follows trivial trivial
    (walkPartsOk_true (fun _ _ _ => trivial) (fun _ _ => trivial) ps n k) h).2.1

/-- What was taken out was the entry, so the lookup has ended there. -/
theorem TakesEntry.removable {j a p : Nat} (ht : TakesEntry env k path k' d n) (hr : Rooted k)
    (hj : env.fuel = j + 1) (hf : k.find env path = some (some a, q))
    (hp : (q.node a).parent = some p) (hnodes : k'.nodes = (q.takeOut a p).nodes) :
    q.nodes.used = k.nodes.used ∧ ∃ s, Removable env k path s d n := by
  obtain ⟨s, base, q1, hnames, hdir, hn⟩ := ht.entry
  have hg := find_grown hf
  have hnu := hr.used ht.linked
  have hboth := hnodes.symm.trans ht.nodes
  have hused : q.nodes.used.erase a = k.nodes.used.erase n := congrArg Arena.used hboth
  obtain rfl : n = a := by
    by_contra hne
    have hin : n ∈ q.nodes.used.erase a := Finset.mem_erase.mpr ⟨hne, hg.used hnu⟩
    rw [hused] at hin
    exact (Finset.mem_erase.mp hin).1 rfl
  have hsame : q.nodes.used = k.nodes.used := by
    rw [← Finset.insert_erase (hg.used hnu), hused, Finset.insert_erase hnu]
  have hq := hg.same hsame
  rw [takeOut_nodes hq] at hboth
  obtain ⟨_, rfl⟩ := takeOut_eq (findIn_child hn).1 hnu hboth.symm
  have hup : (k.node n).parent = some p := by
    rw [← hp]
    unfold node
    rw [hq]
  have hd := hr.linked_parent ht.linked hup
  obtain ⟨hg1, rest, es, i, hes, hfind⟩ := hdir.lookup hnames hj
  rw [hf] at hfind
  obtain ⟨he1, _⟩ := hg1.between (walkParts_grown hfind.symm) hsame
  obtain ⟨hplain, hlen, hlink⟩ := lookup_entry hr (hg1.same he1) hg1.root hq hg.root hd hnames.name.1
    hn ht.leaf hes hfind.symm
  exact ⟨hsame, s, ⟨base, q1, hnames, hdir, hn⟩, hplain, hlen, hd, hlink, ht.mount, ht.leaf⟩

theorem Removable.found {j : Nat} {r : Option Nat} (h : Removable env k path s d n)
    (hj : env.fuel = j + 1) (hf : k.find env path = some (r, q))
    (hsame : q.nodes.used = k.nodes.used) : r = some n := by
  obtain ⟨base, q1, hnames, hdir, hn⟩ := h.entry
  obtain ⟨hg1, rest, es, i, hes, hfind⟩ := hdir.lookup hnames hj
  rw [hf] at hfind
  obtain ⟨he1, _⟩ := hg1.between (walkParts_grown hfind.symm) hsame
  have hq1 := hg1.same he1
  have hn1 : q1.findIn d s = some n := by rw [findIn_of_nodes hq1, hn]
  have hlink : (q1.node n).type ≠ .symlink := by
    unfold node
    rw [hq1]
    exact h.link
  rw [walkParts_child h.short h.plain hn1 hlink, walkParts_skips hes] at hfind
  cases hfind
  rfl

/-- `remove` does what it is for exactly when its search makes no device nodes and either ends at a
node that stays or at the entry that the path names. -/
theorem remove_removes_iff {ok : Env → Kernel → Event → Prop} (hk : Reached ok k)
    (h : k.remove env path = some (b, k')) : Removes env k path b k' ↔
      findOk env Never k path ∧ (Stays env k path ∨ ∃ s d n, Removable env k path s d n) := by
  have hr := hk.rooted
  obtain ⟨node, q, hf, hcase⟩ := remove_answer h
  have hg := find_grown hf
  have hiff := findOk_never_iff hf
  obtain ⟨j, hj⟩ : ∃ j, env.fuel = j + 1 := by
    cases hj : env.fuel with
    | zero =>
      unfold Kernel.find at hf
      rw [hj] at hf
      cases hf
    | succ j => exact ⟨j, rfl⟩
  unfold Removes
  obtain ⟨rfl, rfl, hstay⟩ | ⟨rfl, a, p, rfl, haroot, hempty, hp, hnodes, hk'⟩ := hcase
  · -- nothing was taken out
    rw [if_neg Bool.false_ne_true, hiff]
    constructor
    · intro hsame
      refine ⟨congrArg Arena.used hsame, Or.inl fun n q hq => ?_⟩
      rw [hf] at hq
      cases hq
      exact hstay n rfl
    · exact fun hc => hg.same hc.1
  · rw [if_pos rfl, hiff]
    constructor
    · rintro ⟨d, n, ht⟩
      obtain ⟨hsame, s, hrem⟩ := ht.removable hr hj hf hp hnodes
      exact ⟨hsame, Or.inr ⟨s, d, n, hrem⟩⟩
    · rintro ⟨hsame, hstays | ⟨s, d, n, hrem⟩⟩
      · exact absurd (hstays a q hf) (not_or.mpr ⟨haroot, hempty⟩)
      · cases hrem.found hj hf hsame
        have hq := hg.same hsame
        obtain ⟨base, q1, hnames, hdir, hn⟩ := hrem.entry
        have hup := hr.up hrem.linked (findIn_child hn).1
        have hpd : p = d := by
          unfold node at hp hup
          rw [hq, hup] at hp
          exact (Option.some.inj hp).symm
        rw [hpd, takeOut_nodes hq] at hnodes
        have hroot := (hr.child_ne hrem.linked (findIn_child hn).1).1
        refine ⟨d, a, ⟨s, hrem.entry⟩, hrem.linked.findIn hn, hroot, hrem.leaf, hrem.mount, ?_,
          hnodes⟩
        exact hr.takeOut_leaf hroot hup hrem.leaf hnodes (hk'.trans hg.root)

def linkRun : List (Env × Event) :=
  [(freshEnv, .createFilePath "/f".toList), (freshEnv, .createSymlinkPath "/l".toList "/f".toList)]

/-- The file is removed by its own name. -/
theorem remove_removes_iff_file : ∃ k k', boot.runAll linkRun = some k ∧
    k.remove freshEnv "/f".toList = some (true, k') ∧ Removes freshEnv k "/f".toList true k' := by
  have hrun : (boot.runAll linkRun).any (fun k =>
      (k.remove freshEnv "/f".toList).any (fun x => x.1) ∧ k.root = 0 ∧
        (k.find freshEnv "/".toList).any (fun x => x.1 = some 0) ∧
        (k.miss freshEnv "/".toList).all (fun _ => false) ∧ k.findIn 0 "f".toList = some 1 ∧
        (k.node 1).type = .file ∧ (k.node 1).children = [] ∧
        (k.find freshEnv "/f".toList).any (fun x => x.2.nodes.used = k.nodes.used)) = true := by
    decide +kernel
  obtain ⟨k, hk, h⟩ := any_exists hrun
  obtain ⟨hrem, hroot, hfind, hmiss, hentry, htype, hleaf, hquiet⟩ := of_decide_eq_true h
  obtain ⟨⟨r, q'⟩, hquiet, hsame⟩ := any_exists hquiet
  obtain ⟨⟨b, k'⟩, hrem, hb⟩ := any_exists hrem
  obtain ⟨⟨d, q⟩, hfind, hd⟩ := any_exists hfind
  obtain rfl : b = true := hb
  obtain rfl : d = some 0 := of_decide_eq_true hd
  have hreach : Reached (fun _ _ _ => True) k := Reached.boot.runAll (fun _ _ _ => trivial) hk
  refine ⟨k, k', hk, hrem, (remove_removes_iff hreach hrem).mpr ⟨?_, Or.inr ⟨"f".toList, 0, 1, ?_⟩⟩⟩
  · exact (findOk_never_iff hquiet).mpr (of_decide_eq_true hsame)
  · refine ⟨⟨"/".toList, q, ⟨⟨0, rfl⟩, by decide, Or.inr ⟨[], rfl⟩⟩, ?_, hentry⟩, by decide, by decide,
      hroot ▸ .refl, ?_, ?_, hleaf⟩
    · refine (if_neg (by decide)).mpr ⟨hfind, ?_⟩
      cases hm : k.miss freshEnv "/".toList with
      | none => rfl
      | some m =>
        rw [hm] at hmiss
        cases hmiss
    · rw [htype]
      decide
    · rw [htype]
      decide

/-- The lookup follows the link at the end of the path, and the file goes instead of the link. -/
theorem target_removed : ¬ ∀ (env : Env) (k k' : Kernel) (path : List Char) (b : Bool),
    Reached (fun _ _ _ => True) k → k.remove env path = some (b, k') →
    Removes env k path b k' := by
  intro hall
  have hrun : (boot.runAll linkRun).any (fun k =>
      (k.remove freshEnv "/l".toList).any (fun x => x.1 ∧ x.2.nodes.used = {0, 2}) ∧
        k.nodes.used = {0, 1, 2} ∧ (k.node 1).name = "f".toList) = true := by decide +kernel
  obtain ⟨k, hk, h⟩ := any_exists hrun
  obtain ⟨hrem, hused, hname⟩ := of_decide_eq_true h
  obtain ⟨⟨b, k'⟩, hrem, hb⟩ := any_exists hrem
  obtain ⟨hb, hused'⟩ := of_decide_eq_true hb
  obtain rfl : b = true := hb
  obtain ⟨d, n, ht⟩ := hall _ k k' _ true (Reached.boot.runAll (fun _ _ _ => trivial) hk) hrem
  obtain ⟨s, base, q, hnames, _, hn⟩ := ht.entry
  have hgone : k'.nodes.used = k.nodes.used.erase n := congrArg Arena.used ht.nodes
  rw [hused, hused'] at hgone
  have hn1 : n = 1 := by
    by_contra hne
    have hin : 1 ∈ ({0, 1, 2} : Finset Nat).erase n :=
      Finset.mem_erase.mpr ⟨Ne.symm hne, by decide⟩
    rw [← hgone] at hin
    exact absurd hin (by decide)
  -- the node that is gone has another name
  have hs : s = "f".toList := by
    rw [← hname, ← hn1]
    exact (findIn_child hn).2.symm
  obtain ⟨i, hpath⟩ := hnames.text
  have hmem : 'f' ∈ base ++ s ++ List.replicate i '/' := by
    rw [hs]
    simp
  rw [← hpath] at hmem
  exact absurd hmem (by decide)

end remove

end Kernel

end LosTacOS.Os
