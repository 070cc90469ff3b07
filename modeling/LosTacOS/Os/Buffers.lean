import LosTacOS.Os.Nesting

/-! The buffers of `find` and `get_path`. Nothing bounds what is copied into them but the names and
the link texts that have been put into the tree. -/
namespace LosTacOS.Os

/-- The text that `get_path` writes for a node with these names above it. -/
def pathText (ns : List (List Char)) : List Char := ns.flatMap fun s => '/' :: s

inductive Make where
  | dir (path : List Char)
  | file (path : List Char)
  | symlink (path target : List Char)

namespace Kernel

/-- The loop of `get_path` stores each text it makes, and the terminator, inside `newtemp` and
`temp`; `path` then takes the last of them. -/
def pathStores (k : Kernel) : Nat → Option Nat → List Char → Prop
  | _, none, _ => True
  | 0, some _, _ => True
  | n + 1, some x, acc => x = k.root ∨ (('/' :: (k.node x).name ++ acc).length < 1024 ∧
      k.pathStores n (k.node x).parent ('/' :: (k.node x).name ++ acc))

def PathHolds (k : Kernel) (n : Nat) : Prop := ∀ fuel, k.pathStores fuel (some n) []

/-- What is copied to `target` for the link `c`, the longest text being the last. -/
def TargetHolds (k : Kernel) (c : Nat) : Prop :=
  if (k.node c).symlink.head? = some '/' then (k.node c).symlink.length < 256
  else match (k.node c).parent with
    | some p => k.PathHolds p ∧ ∀ env base, k.getPath env p = some base →
        ((if base.getLast? = some '/' then base else base ++ ['/']) ++
          (k.node c).symlink).length < 256
    | none => ('/' :: (k.node c).symlink).length < 256

section stores

variable (env : Env) (find : Finder) (holds : Kernel → List Char → Prop)

/-- A mounted file system is asked with what has been put into `relpath`. -/
def relpathHolds (k : Kernel) (n : Nat) (part : List Char) (rest : Option (List Char)) : Prop :=
  (k.node n).type = .mount → ∀ fs, (k.node n).filesystem = some fs → fs.has .open = true →
    (relpath part (rest.getD env.beyond)).length < 256 ∧
    (fs = .devfs → k.openDeviceOk env (fun _ _ _ => True) find holds
      (relpath part (rest.getD env.beyond)))

/-- `followLinks` stores inside its buffers, `holds` being the same for the searches in it. -/
def linksHold : Nat → Nat → Kernel → Prop
  | 0, _, _ => True
  | depth + 1, n, k => (k.node n).type = .symlink → k.TargetHolds n ∧
      ∀ target, k.linkTarget env n = some target → holds k target ∧
        ∀ m q, find k target = some (some m, q) → linksHold depth m q

def partsHold : List (List Char × Option (List Char)) → Nat → Kernel → Prop
  | [], _, _ => True
  | (part, rest) :: ps, n, k =>
    let part := cut part
    part.length < 128 ∧
    if part = [] ∨ part = ['.'] then partsHold ps n k
    else if part = ['.', '.'] then partsHold ps ((k.node n).parent.getD n) k
    else
      (k.findIn n part = none → k.relpathHolds env find holds n part rest) ∧
      ∀ c, k.findIn n part = some c → linksHold env find holds 8 c k ∧
        ∀ m q, followLinks env find 8 c k = some (some m, q) → partsHold ps m q

def searchHolds : Nat → Kernel → List Char → Prop
  | 0, _, _ => True
  | n + 1, k, path =>
    if path = [] then True
    else partsHold env (findTo env n) (searchHolds n) (parts (path.length + 1) path)
      (k.startDir path) k

end stores

def StoresInside (env : Env) (k : Kernel) (path : List Char) : Prop :=
  ∀ n, searchHolds env n k path

def Answers (k : Kernel) : Prop := ∃ n fs, k.Linked n ∧ (k.node n).type = .mount ∧
  (k.node n).filesystem = some fs ∧ fs.has .open = true

/-- Where a file system may be asked, the path fits `relpath`, and so does what is read behind the
terminator when the last part is missing. -/
def PathFits (env : Env) (k : Kernel) (path : List Char) : Prop :=
  k.Answers → path.length < 256 ∧ env.beyond.length < 128

variable {env : Env} {k k' k1 q : Kernel} {n m c d dir i j : Nat} {s part path text : List Char}
  {ns ms ps : List (List Char)} {qs : List (List Char × Option (List Char))}
  {rest : Option (List Char)} {r : Option Nat} {find : Finder}
  {holds : Kernel → List Char → Prop}

section routes

theorem pathText_append (ns ms : List (List Char)) :
    pathText (ns ++ ms) = pathText ns ++ pathText ms := List.flatMap_append

theorem pathText_name (s : List Char) : pathText [s] = '/' :: s := List.flatMap_singleton _ s

theorem Route.linked (h : k.Route n ns) : k.Linked n := by
  induction h with
  | root => exact .refl
  | child _ hc ih => exact .child ih hc

/-- What `get_path` stores on its way up is part of the whole path. -/
theorem Route.pathStores (hr : Rooted k) (h : k.Route d ns) {acc : List Char} (fuel : Nat)
    (hlen : (pathText ns ++ acc).length < 1024) : k.pathStores fuel (some d) acc := by
  induction h generalizing fuel acc with
  | root =>
    cases fuel with
    | zero => exact trivial
    | succ fuel => exact Or.inl rfl
  | @child d c ns hd hc ih =>
    cases fuel with
    | zero => exact trivial
    | succ fuel =>
      rw [pathText_append, pathText_name, List.append_assoc] at hlen
      have hsum := hlen
      rw [List.length_append] at hsum
      refine Or.inr ⟨Nat.lt_of_le_of_lt (Nat.le_add_left _ _) hsum, ?_⟩
      rw [hr.up hd.linked hc]
      exact ih fuel hlen

/-- What `get_path` returns is the whole path. -/
theorem Route.pathFrom_eq (hr : Rooted k) (h : k.Route d ns) {acc t : List Char} {fuel : Nat}
    (hp : k.pathFrom fuel (some d) acc = some t) : t = pathText ns ++ acc := by
  induction h generalizing fuel acc with
  | root =>
    cases fuel with
    | zero => cases hp
    | succ fuel =>
      unfold Kernel.pathFrom at hp
      rw [if_pos rfl] at hp
      cases hp
      rfl
  | @child d c ns hd hc ih =>
    cases fuel with
    | zero => cases hp
    | succ fuel =>
      unfold Kernel.pathFrom at hp
      rw [if_neg (hr.child_ne hd.linked hc).1, hr.up hd.linked hc] at hp
      rw [pathText_append, pathText_name, List.append_assoc]
      exact ih hp

/-- With the slash behind it the path of a directory is at most one longer. -/
theorem Route.getPath_length (hr : Rooted k) (h : k.Route d ns) {base : List Char}
    (hp : k.getPath env d = some base) :
    (if base.getLast? = some '/' then base else base ++ ['/']).length ≤
      (pathText ns).length + 1 := by
  unfold Kernel.getPath at hp
  split at hp
  · cases hp
    exact Nat.le_add_left 1 _
  · have hbase := h.pathFrom_eq hr (Option.filter_eq_some_iff.mp hp).1
    rw [List.append_nil] at hbase
    rw [hbase]
    split
    · exact Nat.le_succ _
    · rw [List.length_append]
      exact Nat.le_refl _

end routes

section trees

/-- A tree in which every directory has a path for `get_path` and every link a text for `find`. -/
structure Roomy (k : Kernel) : Prop extends Rooted k where
  cwd : k.Linked k.getProcessCwd
  rootNode : (k.node k.root).type ≠ .symlink
  dirs : ∀ n ns, k.Route n ns → (k.node n).directory = true → (pathText ns).length < 1024
  links : ∀ d ns c, k.Route d ns → c ∈ (k.node d).children → (k.node c).type = .symlink →
    (k.expansion c ns).length < 256

theorem Roomy.startDir (h : Roomy k) (path : List Char) : k.Linked (k.startDir path) := by
  unfold Kernel.startDir
  split
  · exact .refl
  · exact h.cwd

theorem Route.of_names (hs : k'.shape = k.shape)
    (hname : ∀ m, (k'.node m).name = (k.node m).name) (h : k'.Route n ns) : k.Route n ns := by
  induction h with
  | root =>
    have hroot : k'.root = k.root := congrArg (·.1) hs
    rw [hroot]
    exact .root
  | child _ hc ih =>
    rw [children_of_shape hs] at hc
    rw [hname]
    exact .child ih hc

/-- The nodes are where they were, with the names they had. -/
theorem Roomy.relabel (h : Roomy k) (hs : k'.shape = k.shape)
    (hname : ∀ m, (k'.node m).name = (k.node m).name)
    (hdir : ∀ m, (k'.node m).directory = (k.node m).directory)
    (hcwd : k'.Linked k'.getProcessCwd) (hroot : (k'.node k.root).type ≠ .symlink)
    (hlink : ∀ d ns c, k.Route d ns → c ∈ (k.node d).children → (k'.node c).type = .symlink →
      (k'.expansion c ns).length < 256) : Roomy k' := by
  refine ⟨h.toRooted.of_shape hs, hcwd, ?_, fun n ns hr hd => ?_, fun d ns c hr hc ht => ?_⟩
  · have he : k'.root = k.root := congrArg (·.1) hs
    rw [he]
    exact hroot
  · rw [hdir] at hd
    exact h.dirs n ns (hr.of_names hs hname) hd
  · rw [children_of_shape hs] at hc
    exact hlink d ns c (hr.of_names hs hname) hc ht

theorem Roomy.of_nodes (h : Roomy k) (hn : k'.nodes = k.nodes) (hr : k'.root = k.root)
    (hcwd : k.Linked k'.getProcessCwd) : Roomy k' := by
  have hnode : ∀ m, k'.node m = k.node m := fun m => congrArg (Arena.cell · m) hn
  have hs : k'.shape = k.shape := by
    unfold shape node
    rw [hn, hr]
  refine h.relabel hs (fun m => by rw [hnode]) (fun m => by rw [hnode]) (hcwd.of_shape hs) ?_
    fun d ns c hd hc ht => ?_
  · rw [hnode]
    exact h.rootNode
  · rw [hnode] at ht
    have hexp : k'.expansion c ns = k.expansion c ns := by
      unfold expansion
      rw [hnode]
    rw [hexp]
    exact h.links d ns c hd hc ht

/-- One node changes, and may become a link with a text that fits. -/
theorem Roomy.setNode (h : Roomy k) {v : Node} (hp : v.parent = (k.node n).parent)
    (hc : v.children = (k.node n).children) (hname : v.name = (k.node n).name)
    (hdir : v.directory = (k.node n).directory) (hroot : v.type = .symlink → n ≠ k.root)
    (htext : v.type = .symlink → ∀ d ns, k.Route d ns → n ∈ (k.node d).children →
      ((k.setNode n v).expansion n ns).length < 256) : Roomy (k.setNode n v) := by
  have hnode := fun m => setNode_node k n m v
  have hs : (k.setNode n v).shape = k.shape := setNode_shape hp hc
  refine h.relabel hs (fun m => ?_) (fun m => ?_) (h.cwd.of_shape hs) ?_ fun d ns c hd hm ht => ?_
  · rw [hnode]
    split
    · rename_i he
      rw [he, hname]
    · rfl
  · rw [hnode]
    split
    · rename_i he
      rw [he, hdir]
    · rfl
  · rw [hnode]
    split
    · rename_i he
      exact fun ht => hroot ht he.symm
    · exact h.rootNode
  · by_cases he : c = n
    · rw [he] at hm ht ⊢
      rw [hnode, if_pos rfl] at ht
      exact htext ht d ns hd hm
    · rw [hnode, if_neg he] at ht
      have hexp : (k.setNode n v).expansion c ns = k.expansion c ns := by
        unfold expansion
        rw [hnode, if_neg he]
      rw [hexp]
      exact h.links d ns c hd hm ht

theorem Roomy.pathHolds (h : Roomy k) (hn : k.Linked n) (hd : (k.node n).directory = true) :
    k.PathHolds n := by
  obtain ⟨ns, hr⟩ := hn.route
  intro fuel
  refine hr.pathStores h.toRooted fuel ?_
  rw [List.append_nil]
  exact h.dirs n ns hr hd

theorem Roomy.targetHolds (h : Roomy k) (hn : k.Linked n) (ht : (k.node n).type = .symlink) :
    k.TargetHolds n := by
  have hroot : n ≠ k.root := fun he => h.rootNode (he ▸ ht)
  obtain ⟨d, hp, hd, hc⟩ := h.parent hn hroot
  obtain ⟨ns, hr⟩ := hd.route
  have hlen := h.links d ns n hr hc ht
  unfold Kernel.TargetHolds
  unfold expansion at hlen
  by_cases habs : (k.node n).symlink.head? = some '/'
  · rw [if_pos habs] at hlen ⊢
    exact hlen
  · rw [if_neg habs] at hlen ⊢
    rw [hp]
    have htext : (pathText ns).length + ((k.node n).symlink.length + 1) < 256 := by
      rw [List.length_append, List.length_cons] at hlen
      exact hlen
    refine ⟨fun fuel => hr.pathStores h.toRooted fuel ?_, fun env base hbase => ?_⟩
    · rw [List.append_nil]
      omega
    · have := hr.getPath_length h.toRooted hbase
      rw [List.length_append]
      omega

end trees

section making

variable {x : Bool}

theorem Route.of_child (hr : Rooted k) (hd : k.Linked d) (hc : c ∈ (k.node d).children)
    (h : k.Route c ns) : ∃ ms, k.Route d ms ∧ ns = ms ++ [(k.node c).name] := by
  cases h with
  | root => exact absurd rfl (hr.child_ne hd hc).1
  | @child e _ ms he hm =>
    have hup := hr.up hd hc
    rw [hr.up he.linked hm] at hup
    cases hup
    exact ⟨ms, he, rfl⟩

structure Added (k : Kernel) (dir : Nat) (s : List Char) (x : Bool) (n : Nat) (k' : Kernel) :
    Prop where
  rooted : Rooted k'
  root : k'.root = k.root
  cwd : k'.getProcessCwd = k.getProcessCwd
  new : k'.node n = k.newNode s x dir
  fresh : ¬ k.Linked n
  old : ∀ {m}, k.Linked m → k'.node m = { k.node m with
    children := if m = dir then n :: (k.node m).children else (k.node m).children }

theorem Rooted.added (hr : Rooted k) (hd : k.Linked dir)
    (hc : k.createNode env s x dir = some (n, k')) : Added k dir s x n k' := by
  have hold : ∀ {m}, k.Linked m → k'.node m = _ := fun hm => hr.createNode_node hc hm
  have hr' := hr.createNode hc
  obtain ⟨hn, rfl⟩ := createNode_eq env hc
  have hne : n ≠ dir := fun he => hn (he ▸ hr.used hd)
  exact ⟨hr', rfl, rfl, linkNew_new hne, fun hl => hn (hr.used hl), hold⟩

theorem Added.type (h : Added k dir s x n k') :
    (k'.node n).type ≠ .symlink ∧ (k'.node n).type ≠ .mount := by
  rw [h.new]
  cases x with
  | true => exact ⟨nofun, nofun⟩
  | false => exact ⟨nofun, nofun⟩

theorem Added.children (h : Added k dir s x n k') (hd : k.Linked d)
    (hc : c ∈ (k'.node d).children) : c ∈ (k.node d).children ∨ d = dir ∧ c = n := by
  rw [h.old hd] at hc
  dsimp only at hc
  split at hc
  · rename_i he
    cases hc with
    | head => exact Or.inr ⟨he, rfl⟩
    | tail _ hc => exact Or.inl hc
  · exact Or.inl hc

theorem Added.linked (h : Added k dir s x n k') (hm : k.Linked m) : k'.Linked m := by
  unfold Linked
  rw [h.root]
  refine Under.mono hm fun d hd c hc => ?_
  rw [h.old hd]
  dsimp only
  split
  · exact List.mem_cons_of_mem n hc
  · exact hc

theorem Added.route (h : Added k dir s x n k') (hm : k'.Route m ms) :
    k.Route m ms ∨ m = n ∧ ∃ ns, k.Route dir ns ∧ ms = ns ++ [s] := by
  induction hm with
  | root =>
    rw [h.root]
    exact Or.inl .root
  | @child d c ns hd hc ih =>
    cases ih with
    | inl ih =>
      cases h.children ih.linked hc with
      | inl hold =>
        have hname : (k'.node c).name = (k.node c).name := by
          rw [h.old (Under.child ih.linked hold)]
        rw [hname]
        exact Or.inl (.child ih hold)
      | inr hnew =>
        obtain ⟨rfl, rfl⟩ := hnew
        refine Or.inr ⟨rfl, ns, ih, ?_⟩
        rw [h.new]
        rfl
    | inr ih =>
      rw [ih.1, h.new] at hc
      cases hc

theorem Roomy.added (h : Roomy k) (ha : Added k dir s x n k')
    (hlen : x = true → ∀ ns, k.Route dir ns → (pathText (ns ++ [s])).length < 1024) :
    Roomy k' := by
  refine ⟨ha.rooted, ?_, ?_, fun m ms hr hdir => ?_, fun e ms c hr hc ht => ?_⟩
  · rw [ha.cwd]
    exact ha.linked h.cwd
  · rw [ha.root, ha.old .refl]
    exact h.rootNode
  · cases ha.route hr with
    | inl hr =>
      rw [ha.old hr.linked] at hdir
      exact h.dirs m ms hr hdir
    | inr hn =>
      obtain ⟨rfl, ns, hns, rfl⟩ := hn
      rw [ha.new] at hdir
      exact hlen hdir ns hns
  · cases ha.route hr with
    | inr hn =>
      rw [hn.1, ha.new] at hc
      cases hc
    | inl hr =>
      cases ha.children hr.linked hc with
      | inr hn =>
        rw [hn.2] at ht
        exact absurd ht ha.type.1
      | inl hc =>
        have hold := ha.old (Under.child hr.linked hc)
        have hexp : k'.expansion c ms = k.expansion c ms := by
          unfold expansion
          rw [hold]
        rw [hold] at ht
        rw [hexp]
        exact h.links e ms c hr hc ht

/-- The directories that are made below `d` for the names `ps`, if there are any, have paths that
`get_path` has room for. -/
def ShortDown (k : Kernel) (ps : List (List Char)) (d : Nat) : Prop :=
  k.down ps d = none → ∀ ns, k.Route d ns → (pathText (ns ++ ps)).length < 1024

theorem ShortDown.child (h : ShortDown k (s :: ps) d) (hr : Rooted k) (hd : k.Linked d)
    (hf : k.findIn d s = some c) : ShortDown k ps c := by
  intro hnone ns hns
  obtain ⟨hm, hname⟩ := findIn_child hf
  obtain ⟨ms, hms, rfl⟩ := hns.of_child hr hd hm
  have hdown : k.down (s :: ps) d = none := by
    rw [Kernel.down, hf]
    exact hnone
  rw [hname, List.append_assoc]
  exact h hdown ms hms

theorem Roomy.newDir (h : Roomy k) (hs : ShortDown k (s :: ps) d) (hd : k.Linked d)
    (hf : k.findIn d s = none) (hc : k.createNode env s true d = some (c, k1)) :
    Roomy k1 ∧ k1.Linked c ∧ ShortDown k1 ps c := by
  have ha := h.toRooted.added hd hc
  have hdown : k.down (s :: ps) d = none := by
    rw [Kernel.down, hf]
    rfl
  refine ⟨h.added ha fun _ ns hr => ?_, (h.toRooted.madeIn hd hf hc).linked_new,
    fun _ ns hr => ?_⟩
  · have hall := hs hdown ns hr
    rw [← List.singleton_append, ← List.append_assoc, pathText_append,
      List.length_append] at hall
    omega
  · cases ha.route hr with
    | inl hr => exact absurd hr.linked ha.fresh
    | inr hn =>
      obtain ⟨_, ms, hms, rfl⟩ := hn
      rw [List.append_assoc]
      exact hs hdown ms hms

theorem Roomy.createDirIn (h : Roomy k) (hd : k.Linked d) (hs : ShortDown k ps d)
    (hc : createDirIn env ps d k = some (n, k')) : Roomy k' := by
  induction ps generalizing k d with
  | nil =>
    cases hc
    exact h
  | cons s ps ih =>
    rw [Kernel.createDirIn] at hc
    cases hf : k.findIn d s with
    | some c =>
      rw [hf] at hc
      exact ih h (hd.findIn hf) (hs.child h.toRooted hd hf) hc
    | none =>
      rw [hf] at hc
      obtain ⟨⟨c, k1⟩, hm, hc⟩ := Option.bind_eq_some_iff.mp hc
      obtain ⟨h1, hlc, hs1⟩ := h.newDir hs hd hf hm
      exact ih h1 hlc hs1 hc

structure KeepsRoutes (k k' : Kernel) : Prop where
  linked : ∀ m, k.Linked m → k'.Linked m
  route : ∀ m ns, k.Linked m → k'.Route m ns → k.Route m ns

theorem KeepsRoutes.refl (k : Kernel) : KeepsRoutes k k := ⟨fun _ h => h, fun _ _ _ h => h⟩

theorem KeepsRoutes.trans (h : KeepsRoutes k k1) (h' : KeepsRoutes k1 k') : KeepsRoutes k k' where
  linked m hm := h'.linked m (h.linked m hm)
  route m ns hm hr := h.route m ns hm (h'.route m ns (h.linked m hm) hr)

theorem Added.keepsRoutes (h : Added k dir s x n k') : KeepsRoutes k k' where
  linked _ hm := h.linked hm
  route _ _ hm hr := (h.route hr).resolve_right fun hn => h.fresh (hn.1 ▸ hm)

theorem Roomy.createFileIn (h : Roomy k) (hd : k.Linked d) (hs : ShortDown k ps.dropLast d)
    (hc : createFileIn env ps d k = some (r, k')) : Roomy k' ∧ KeepsRoutes k k' := by
  replace hc := createFileIn_creates hc
  induction hc with
  | nil => exact ⟨h, .refl _⟩
  | found => exact ⟨h, .refl _⟩
  | made _ hm =>
    have ha := h.toRooted.added hd hm
    exact ⟨h.added ha nofun, ha.keepsRoutes⟩
  | blocked => exact ⟨h, .refl _⟩
  | down hf _ _ ih =>
    rw [List.dropLast_cons_cons] at hs
    exact ih h (hd.findIn hf) (hs.child h.toRooted hd hf)
  | make hf hm _ ih =>
    rw [List.dropLast_cons_cons] at hs
    obtain ⟨h1, hlc, hs1⟩ := h.newDir hs hd hf hm
    obtain ⟨h2, hk⟩ := ih h1 hlc hs1
    exact ⟨h2, (h.toRooted.added hd hm).keepsRoutes.trans hk⟩

/-- Below a directory without entries everything is made. -/
theorem Creates.fresh (hc : Creates env ps d k r k') (hr : Rooted k) (hd : k.Linked d)
    (he : (k.node d).children = []) (hne : ps ≠ []) : r ≠ none := by
  induction hc with
  | nil => exact absurd rfl hne
  | found => exact nofun
  | made => exact nofun
  | blocked hf _ =>
    rw [findIn_empty he] at hf
    cases hf
  | down hf _ _ _ =>
    rw [findIn_empty he] at hf
    cases hf
  | make hf hm _ ih =>
    have hmade := hr.madeIn hd hf hm
    exact ih hmade.rooted hmade.linked_new hmade.empty (List.cons_ne_nil _ _)

theorem createFileIn_none (hr : Rooted k) (hd : k.Linked d)
    (hc : createFileIn env ps d k = some (none, k')) : k' = k := by
  have hrun := createFileIn_creates hc
  generalize hnone : (none : Option Nat) = r at hrun
  clear hc
  induction hrun with
  | nil => rfl
  | found => cases hnone
  | made => cases hnone
  | blocked => rfl
  | down hf _ _ ih => exact ih hr (hd.findIn hf) hnone
  | make hf hm hrest _ =>
    have hmade := hr.madeIn hd hf hm
    exact absurd hnone.symm (hrest.fresh hmade.rooted hmade.linked_new hmade.empty
      (List.cons_ne_nil _ _))

/-- The routes to a node lead through the one it is found from. -/
theorem Route.of_down (hr : Rooted k) (hd : k.Linked d) (hdown : k.down ps d = some n)
    (h : k.Route n ns) : ∃ ms, k.Route d ms ∧ ns = ms ++ ps := by
  induction ps generalizing d with
  | nil =>
    cases hdown
    exact ⟨ns, h, (List.append_nil ns).symm⟩
  | cons s ps ih =>
    obtain ⟨c, hc, hdown⟩ := Option.bind_eq_some_iff.mp hdown
    obtain ⟨hm, hname⟩ := findIn_child hc
    obtain ⟨ls, hls, rfl⟩ := ih (hd.findIn hc) hdown
    obtain ⟨ms, hms, rfl⟩ := hls.of_child hr hd hm
    refine ⟨ms, hms, ?_⟩
    rw [hname, List.append_assoc]
    rfl

end making

section searching

structure KeepsTree (k k' : Kernel) : Prop where
  linked : ∀ m, k.Linked m → k'.Linked m
  answers : k'.Answers → k.Answers

theorem KeepsTree.of_nodes (hn : k'.nodes = k.nodes) (hr : k'.root = k.root) :
    KeepsTree k k' := by
  have hs : k'.shape = k.shape := by
    unfold shape node
    rw [hn, hr]
  have hnode : ∀ m, k'.node m = k.node m := fun m => congrArg (Arena.cell · m) hn
  refine ⟨fun m hm => hm.of_shape hs, fun ⟨m, fs, hm, ht, hrest⟩ => ?_⟩
  rw [hnode] at ht hrest
  exact ⟨m, fs, hm.of_shape hs.symm, ht, hrest⟩

theorem Roomy.device {name : List Char} (dev : DevOps) (h : Roomy k) (hd : k.Linked dir)
    (hc : k.createNode env name false dir = some (n, k')) :
    Roomy (k'.asDevice n dev) ∧ KeepsTree k (k'.asDevice n dev) := by
  have ha := h.toRooted.added hd hc
  have hs : (k'.asDevice n dev).shape = k'.shape := setNode_shape rfl rfl
  refine ⟨(h.added ha nofun).setNode rfl rfl rfl rfl nofun nofun,
    fun m hm => (ha.linked hm).of_shape hs, fun ⟨m, fs, hm, ht, hrest⟩ => ?_⟩
  have hnode : (k'.asDevice n dev).node m = _ := setNode_node k' n m _
  rw [hnode] at ht hrest
  split at ht
  · cases ht
  · rename_i hne
    rw [if_neg hne] at hrest
    obtain ⟨ms, hr⟩ := (hm.of_shape hs.symm).route
    have hold := ((ha.route hr).resolve_right fun hn => hne hn.1).linked
    rw [ha.old hold] at ht hrest
    exact ⟨m, fs, hold, ht, hrest⟩

theorem roomy_kept : SearchRule env (fun _ _ _ => True) Roomy KeepsTree Linked where
  refl _ := .of_nodes rfl rfl
  trans h h' := ⟨fun m hm => h'.linked m (h.linked m hm), fun ha => h.answers (h'.answers ha)⟩
  keep h hn := h.linked _ hn
  root _ := .refl
  cwd h := h.cwd
  parent h hn hp := h.linked_parent hn hp
  child _ hn hc := hn.findIn hc
  alloc h := ⟨h.of_nodes rfl rfl h.cwd, .of_nodes rfl rfl⟩
  device _ h := ⟨h.of_nodes rfl rfl h.cwd, .of_nodes rfl rfl⟩
  dev := by
    intro k name dir n k' dev h hd _ hc
    exact h.device dev hd hc
  ask := by
    intro k k' n fs found _ _ _ _ _ h _
    cases found with
    | false => exact ⟨h.of_nodes rfl rfl h.cwd, .of_nodes rfl rfl⟩
    | true => exact ⟨h.of_nodes rfl rfl h.cwd, .of_nodes rfl rfl⟩

theorem Roomy.follows (j : Nat) :
    (findTo env j).Follows (fun _ _ => True) Roomy KeepsTree Linked :=
  fun hi _ hf => roomy_kept.findTo j hi (findToOk_true (fun _ _ _ => trivial) j _ _) hf

theorem PathFits.after (h : PathFits env k path) (hk : KeepsTree k k') (ht : text.length < 256) :
    PathFits env k' text := fun ha => ⟨ht, (h (hk.answers ha)).2⟩

theorem linkTarget_length (h : k.linkTarget env n = some text) : text.length < 256 := by
  unfold linkTarget at h
  dsimp only at h
  split at h
  · exact of_decide_eq_true (Option.filter_eq_some_iff.mp h).2
  · cases hp : (k.node n).parent with
    | none =>
      rw [hp] at h
      obtain ⟨base, _, h⟩ := Option.bind_eq_some_iff.mp h
      exact of_decide_eq_true (Option.filter_eq_some_iff.mp h).2
    | some p =>
      rw [hp] at h
      obtain ⟨base, _, h⟩ := Option.bind_eq_some_iff.mp h
      exact of_decide_eq_true (Option.filter_eq_some_iff.mp h).2

/-- A part and the text behind its slash are inside the path. -/
theorem parts_length {p : List Char × Option (List Char)} (hp : p ∈ parts i path)
    (hrest : p.2 = some text) : p.1.length + text.length < path.length := by
  induction i generalizing path with
  | zero => cases hp
  | succ i ih =>
    unfold parts at hp
    have hsplit := List.takeWhile_append_dropWhile (p := (· ≠ '/')) (l := path)
    cases hd : path.dropWhile (· ≠ '/') with
    | nil =>
      rw [hd] at hp
      cases List.mem_singleton.mp hp
      cases hrest
    | cons x rest =>
      rw [hd] at hp hsplit
      have hlen : path.length = (path.takeWhile (· ≠ '/')).length + (rest.length + 1) := by
        rw [← List.length_cons, ← List.length_append, hsplit]
      cases hp with
      | head =>
        cases hrest
        dsimp only
        omega
      | tail _ hp =>
        have := ih hp
        omega

theorem relpath_length (part rest : List Char) :
    (relpath part rest).length ≤ part.length + rest.length + 1 := by
  unfold relpath
  split
  · exact Nat.le_add_right _ _
  · rw [List.length_append]
    omega
  · rw [List.length_append, List.length_cons]
    omega

theorem cut_length (part : List Char) : (cut part).length ≤ 127 ∧ (cut part).length ≤ part.length :=
  ⟨List.length_take_le 127 part, List.length_take_le' 127 part⟩

theorem relpath_fits {p : List Char × Option (List Char)} (hp : p ∈ parts i path)
    (hpath : path.length < 256) (hb : env.beyond.length < 128) :
    (relpath (cut p.1) (p.2.getD env.beyond)).length < 256 := by
  have hrel := relpath_length (cut p.1) (p.2.getD env.beyond)
  obtain ⟨hshort, hcut⟩ := cut_length p.1
  cases hrest : p.2 with
  | none =>
    rw [hrest] at hrel
    have : (relpath (cut p.1) env.beyond).length ≤ (cut p.1).length + env.beyond.length + 1 := hrel
    exact Nat.lt_of_le_of_lt this (by omega)
  | some rest =>
    rw [hrest] at hrel
    have hin := parts_length hp hrest
    have : (relpath (cut p.1) rest).length ≤ (cut p.1).length + rest.length + 1 := hrel
    exact Nat.lt_of_le_of_lt this (by omega)

def HoldsOnRoomy (env : Env) (holds : Kernel → List Char → Prop) : Prop :=
  ∀ k path, Roomy k → PathFits env k path → holds k path

theorem Roomy.deviceHolds (h : Roomy k) (hh : HoldsOnRoomy env holds) (hfit : PathFits env k path)
    (name : List Char) :
    k.openDeviceOk env (fun _ _ _ => True) (findTo env j) holds name := by
  have hmake : ∀ ops, k.makeDeviceOk env (fun _ _ _ => True) (findTo env j) holds name ops := by
    intro ops a q dev hk _
    rw [(kmalloc_eq hk).1]
    exact ⟨hh _ _ (h.of_nodes rfl rfl h.cwd) (hfit.after (.of_nodes rfl rfl) (by decide)),
      fun _ _ _ => trivial⟩
  intro _
  split
  · exact hmake _
  split
  · exact fun base _ => hmake base
  · exact trivial

theorem Roomy.linksHold (h : Roomy k) (hh : HoldsOnRoomy env holds) (hfit : PathFits env k path)
    (hn : k.Linked n) : linksHold env (findTo env j) holds i n k := by
  induction i generalizing n k with
  | zero => exact trivial
  | succ i ih =>
    intro ht
    refine ⟨h.targetHolds hn ht, fun target htarget => ?_⟩
    have hlen := linkTarget_length htarget
    refine ⟨hh k target h (hfit.after (.of_nodes rfl rfl) hlen), fun m q hs => ?_⟩
    obtain ⟨h1, hk, hm⟩ := Roomy.follows j h trivial hs
    exact ih h1 (fun ha => hfit (hk.answers ha)) (hm m rfl)

theorem Roomy.partsHold (h : Roomy k) (hh : HoldsOnRoomy env holds) (hfit : PathFits env k path)
    (hqs : ∀ p ∈ qs, p ∈ parts i path) (hn : k.Linked n) :
    partsHold env (findTo env j) holds qs n k := by
  induction qs generalizing n k with
  | nil => exact trivial
  | cons p qs ih =>
    have hin := hqs p List.mem_cons_self
    have ih := fun {n k} (h : Roomy k) (hfit : PathFits env k path) (hn : k.Linked n) =>
      ih h hfit (fun p hp => hqs p (List.mem_cons_of_mem _ hp)) hn
    obtain ⟨part, rest⟩ := p
    unfold Kernel.partsHold
    refine ⟨Nat.lt_succ_of_le (cut_length part).1, ?_⟩
    split
    · exact ih h hfit hn
    split
    · refine ih h hfit ?_
      cases hp : (k.node n).parent with
      | none => exact hn
      | some d => exact h.linked_parent hn hp
    · refine ⟨fun _ ht fs hfs hopen => ?_, fun c hc => ?_⟩
      · obtain ⟨hpath, hb⟩ := hfit ⟨n, fs, hn, ht, hfs, hopen⟩
        exact ⟨relpath_fits hin hpath hb, fun _ => h.deviceHolds hh hfit _⟩
      · have hcl := hn.findIn hc
        refine ⟨h.linksHold hh hfit hcl, fun m q hl => ?_⟩
        have hok : followLinksOk env (findTo env j) (fun _ _ => True) 8 c k :=
          followLinksOk_true (fun _ _ => trivial) 8 c k
        obtain ⟨h1, hk, hm⟩ := roomy_kept.followLinks (Roomy.follows j) h hcl hok hl
        exact ih h1 (fun ha => hfit (hk.answers ha)) (hm m rfl)

theorem Roomy.storesInside (h : Roomy k) (hfit : PathFits env k path) :
    StoresInside env k path := by
  intro n
  induction n generalizing k path with
  | zero => exact trivial
  | succ n ih =>
    unfold searchHolds
    split
    · exact trivial
    · exact h.partsHold (fun _ _ => ih) hfit (fun _ hp => hp) (h.startDir path)

end searching

section building

def make (env : Env) (k : Kernel) : Make → Option (Option Nat × Kernel)
  | .dir path => k.createDirPath env path
  | .file path => k.createFilePath env path
  | .symlink path target => k.createSymlinkPath env path target

/-- The call adds no directory whose path is too long for `get_path`, and no link whose text, with
the path of its directory before it unless it is absolute, is too long for `find`. -/
def Short (k : Kernel) : Make → Prop
  | .dir path => k.ShortDown (components path) (k.startDir path)
  | .file path => k.ShortDown (components path).dropLast (k.startDir path)
  | .symlink path target => k.ShortDown (components path).dropLast (k.startDir path) ∧
      ∀ ns, k.Route (k.startDir path) ns →
        (if target.head? = some '/' then target
          else pathText (ns ++ (components path).dropLast) ++ '/' :: target).length < 256

/-- The trees that are built by calls that meet `ok`. Between them nodes may become mount points,
paths may be searched for, and all that is not in the tree may change. -/
inductive Builds (ok : Kernel → Make → Prop) : Kernel → Prop
  | boot : Builds ok boot
  | make {env : Env} {k k' : Kernel} {m : Make} {r : Option Nat} : Builds ok k →
      (r.isSome = true → ok k m) → k.make env m = some (r, k') → Builds ok k'
  | mount {k : Kernel} {n : Nat} {filesystem : Option FileSystem} {mountData : Nat} :
      Builds ok k → Builds ok (k.setNode n { k.node n with type := .mount, filesystem, mountData })
  | search {env : Env} {k k' : Kernel} {path : List Char} {r : Option Nat} : Builds ok k →
      k.find env path = some (r, k') → Builds ok k'
  | turn {k k' : Kernel} : Builds ok k → k'.nodes = k.nodes → k'.root = k.root →
      k.Linked k'.getProcessCwd → Builds ok k'

theorem boot_roomy : Roomy boot where
  toRooted := boot_rooted
  cwd := .refl
  rootNode := nofun
  dirs := by
    intro n ns h _
    cases h with
    | root => decide
    | child _ hc => cases hc
  links := by
    intro d ns c _ hc _
    cases hc

theorem Roomy.createDirPath (h : Roomy k) (hs : r.isSome = true → k.Short (.dir path))
    (hc : k.createDirPath env path = some (r, k')) : Roomy k' := by
  unfold Kernel.createDirPath at hc
  split at hc
  · cases hc
    exact h
  · obtain ⟨⟨n, k1⟩, hm, hc⟩ := Option.bind_eq_some_iff.mp hc
    cases hc
    exact h.createDirIn (h.startDir path) (hs rfl) hm

/-- A file is made where the names lead, and a call that fails makes nothing. -/
theorem Roomy.createFilePath (h : Roomy k) (hs : r.isSome = true → k.Short (.file path))
    (hc : k.createFilePath env path = some (r, k')) : Roomy k' ∧ ∀ n, r = some n →
      KeepsRoutes k k' ∧ components path ≠ [] ∧
        k'.down (components path) (k.startDir path) = some n := by
  have hstart := h.startDir path
  unfold Kernel.createFilePath at hc
  split at hc
  · cases hc
    exact ⟨h, nofun⟩
  · cases r with
    | none =>
      rw [createFileIn_none h.toRooted hstart hc]
      exact ⟨h, nofun⟩
    | some n =>
      obtain ⟨h1, hk⟩ := h.createFileIn hstart (hs rfl) hc
      refine ⟨h1, fun m hm => ⟨hk, fun hnil => ?_, ?_⟩⟩
      · rw [hnil] at hc
        cases hc
      · cases hm
        exact (createFileIn_leads h.toRooted hstart hc).down

theorem Roomy.createSymlinkPath {target : List Char} (h : Roomy k)
    (hs : r.isSome = true → k.Short (.symlink path target))
    (hc : k.createSymlinkPath env path target = some (r, k')) : Roomy k' := by
  obtain ⟨⟨node, k1⟩, hf, hc⟩ := Option.bind_eq_some_iff.mp hc
  cases node with
  | none =>
    cases hc
    exact (h.createFilePath (fun hn => Bool.noConfusion hn) hf).1
  | some n =>
    obtain ⟨-, hc⟩ := Option.ite_none_right_eq_some.mp hc
    cases hc
    obtain ⟨hshort, htext⟩ := hs rfl
    obtain ⟨h1, hn⟩ := h.createFilePath (fun _ => hshort) hf
    obtain ⟨hk, hne, hdown⟩ := hn n rfl
    have hstart := hk.linked _ (h.startDir path)
    refine h1.setNode rfl rfl rfl rfl (fun _ he => ?_) fun _ d ns hd hm => ?_
    · rw [he] at hdown
      obtain ⟨ms, _, hnil⟩ := Route.root.of_down h1.toRooted hstart hdown
      exact hne (List.append_eq_nil_iff.mp hnil.symm).2
    · have hall := Route.child hd hm
      obtain ⟨ms, hms, hnames⟩ := hall.of_down h1.toRooted hstart hdown
      rw [← List.dropLast_concat_getLast hne, ← List.append_assoc] at hnames
      obtain ⟨rfl, _⟩ := List.append_inj' hnames rfl
      unfold expansion
      rw [setNode_node, if_pos rfl]
      exact htext ms (hk.route _ ms (h.startDir path) hms)

theorem Roomy.make {m : Make} (h : Roomy k) (hs : r.isSome = true → k.Short m)
    (hc : k.make env m = some (r, k')) : Roomy k' := by
  cases m with
  | dir path => exact h.createDirPath hs hc
  | file path => exact (h.createFilePath hs hc).1
  | symlink path target => exact h.createSymlinkPath hs hc

theorem Builds.roomy (h : Builds Short k) : Roomy k := by
  induction h with
  | boot => exact boot_roomy
  | make _ hok hc ih => exact ih.make hok hc
  | mount _ ih => exact ih.setNode rfl rfl rfl rfl nofun nofun
  | search _ hf ih => exact (Roomy.follows _ ih trivial hf).1
  | turn _ hn hr hcwd ih => exact ih.of_nodes hn hr hcwd

theorem builds_store_inside (h : Builds Short k) :
    (∀ env path, PathFits env k path → StoresInside env k path) ∧
    ∀ n, k.Linked n → (k.node n).directory = true → k.PathHolds n :=
  ⟨fun _ _ hfit => h.roomy.storesInside hfit, fun _ hn hd => h.roomy.pathHolds hn hd⟩

theorem Rooted.route_root (hr : Rooted k) (h : k.Route k.root ns) : ns = [] := by
  generalize hn : k.root = n at h
  cases h with
  | root => rfl
  | child hd hc => exact absurd hn.symm (hr.child_ne hd.linked hc).1

theorem builds_store_inside_link : ∃ k, boot.make freshEnv (.symlink "/a/l".toList ['b']) =
      some (some 2, k) ∧ Builds Short k ∧ StoresInside freshEnv k "/a/l/x".toList ∧
    k.PathHolds 1 := by
  have hrun : (boot.make freshEnv (.symlink "/a/l".toList ['b'])).any (fun x => x.1 = some 2 ∧
      1 ∈ (x.2.node x.2.root).children ∧ (x.2.node 1).directory = true) = true := by
    decide +kernel
  obtain ⟨⟨r, k⟩, hk, h⟩ := any_exists hrun
  obtain ⟨rfl, hc, hd⟩ := of_decide_eq_true h
  have hshort : boot.Short (.symlink "/a/l".toList ['b']) := by
    refine ⟨fun _ ns hns => ?_, fun ns hns => ?_⟩
    · rw [boot_rooted.route_root hns]
      decide
    · rw [boot_rooted.route_root hns]
      decide
  have hb : Builds Short k := .make .boot (fun _ => hshort) hk
  obtain ⟨hsearch, hpath⟩ := builds_store_inside hb
  exact ⟨k, hk, hb, hsearch freshEnv _ fun _ => by decide, hpath 1 (.child .refl hc) hd⟩

def longText : List Char := '/' :: List.replicate 299 'a'

/-- After `ln -s` with a long text the search for the link copies the text over the end of
`target`. -/
theorem long_link_overflows : ∃ k, boot.make freshEnv (.symlink "/l".toList longText) =
      some (some 1, k) ∧ ¬ StoresInside freshEnv k "/l".toList ∧
    ¬ ∀ k, Builds (fun _ _ => True) k → (∀ env path, StoresInside env k path) ∧
      ∀ n, k.Linked n → (k.node n).directory = true → k.PathHolds n := by
  have hrun : (boot.make freshEnv (.symlink "/l".toList longText)).any (fun x => x.1 = some 1 ∧
      x.2.findIn x.2.root ['l'] = some 1 ∧ (x.2.node 1).type = .symlink ∧
        (x.2.node 1).symlink = longText) = true := by
    decide +kernel
  obtain ⟨⟨r, k⟩, hk, h⟩ := any_exists hrun
  obtain ⟨rfl, hc, ht, hs⟩ := of_decide_eq_true h
  have hover : ¬ StoresInside freshEnv k "/l".toList := by
    intro hin
    have hparts : parts 3 "/l".toList = [([], some ['l']), (['l'], none)] := by decide
    have hwalk : partsHold freshEnv (findTo freshEnv 0) (searchHolds freshEnv 0)
        [([], some ['l']), (['l'], none)] k.root k := hparts ▸ hin 1
    obtain ⟨_, _, _, hlinks⟩ := hwalk
    have htarget := ((hlinks 1 hc).1 ht).1
    unfold TargetHolds at htarget
    rw [hs, if_pos (by decide), longText, List.length_cons, List.length_replicate] at htarget
    omega
  exact ⟨k, hk, hover, fun hall => hover ((hall k (.make .boot (fun _ => trivial) hk)).1 _ _)⟩

end building

end Kernel

end LosTacOS.Os
