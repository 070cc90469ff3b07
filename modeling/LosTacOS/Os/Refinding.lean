import LosTacOS.Os.Removing
import LosTacOS.Os.Full
import Mathlib.Data.List.Find

/-! Creating a path and looking it up again. The creating functions walk down by names alone, `find`
also knows dots and links, so that the two meet where there are neither. -/
namespace LosTacOS.Os.Kernel

variable {env : Env} {k k' k1 : Kernel} {path s t : List Char} {n m c d dir y : Nat}
  {ps us vs : List (List Char)}

/-- The node below `d` that names lead to, one entry after the other. -/
def down (k : Kernel) : List (List Char) → Nat → Option Nat
  | [], d => some d
  | s :: ps, d => (k.findIn d s).bind (k.down ps)

section down

theorem down_append : k.down (us ++ vs) d = (k.down us d).bind (k.down vs) := by
  induction us generalizing d with
  | nil => rfl
  | cons s us ih =>
    rw [List.cons_append, down, down, Option.bind_assoc]
    congr 1
    funext c
    exact ih

theorem down_linked (hd : k.Linked d) (h : k.down ps d = some n) : k.Linked n := by
  induction ps generalizing d with
  | nil =>
    cases h
    exact hd
  | cons s ps ih =>
    obtain ⟨c, hc, h⟩ := Option.bind_eq_some_iff.mp h
    exact ih (hd.findIn hc) h

theorem down_under (h : k.down ps d = some n) : k.Under d n := by
  induction ps generalizing d with
  | nil =>
    cases h
    exact .refl
  | cons s ps ih =>
    obtain ⟨c, hc, h⟩ := Option.bind_eq_some_iff.mp h
    exact Under.trans (.child .refl (findIn_child hc).1) (ih h)

end down

section order

theorem Rooted.climbs_to (hr : Rooted k) (hd : k.Linked d) (h : k.Under d n) :
    ∃ j, k.climb^[j] n = d := by
  induction h with
  | refl => exact ⟨0, rfl⟩
  | child hu hc ih =>
    obtain ⟨j, hj⟩ := ih
    refine ⟨j + 1, ?_⟩
    rw [Function.iterate_succ_apply, ← hj]
    congr 1
    unfold climb
    rw [hr.up (Under.trans hd hu) hc]
    rfl

theorem Rooted.under_antisymm (hr : Rooted k) (hd : k.Linked d) (h : k.Under d n)
    (h' : k.Under n d) : n = d := by
  have hn : k.Linked n := Under.trans hd h
  obtain ⟨i, hi⟩ := hr.climbs_to hd h
  obtain ⟨j, hj⟩ := hr.climbs_to hn h'
  obtain ⟨l, hl⟩ := hr.climbs hn
  have hroot : k.climb k.root = k.root := by
    unfold climb
    rw [hr.top]
    rfl
  by_cases h0 : i + j = 0
  · have hi0 : i = 0 := by omega
    rw [hi0] at hi
    exact hi
  -- the two would lie on a circle, which the root is not on
  have hcircle : k.climb^[j + i] n = n := by
    rw [Function.iterate_add_apply, hi, hj]
  have hround : k.climb^[(j + i) * l] n = n := by
    rw [Function.iterate_mul]
    exact Function.iterate_fixed hcircle l
  have hle : l ≤ (j + i) * l := Nat.le_mul_of_pos_left l (by omega)
  have htop : n = k.root := by
    rw [← hround, ← Nat.sub_add_cancel hle, Function.iterate_add_apply, hl]
    exact Function.iterate_fixed hroot _
  rw [htop] at hi ⊢
  rw [← hi]
  exact (Function.iterate_fixed hroot i).symm

theorem Rooted.not_under (hr : Rooted k) (hd : k.Linked d) (hc : c ∈ (k.node d).children) :
    ¬ k.Under c d := by
  intro hu
  have he := hr.under_antisymm hd (.child .refl hc) hu
  exact (hr.child_ne hd hc).2.1 he

end order

section making

structure Enlarges (k k' : Kernel) : Prop where
  rooted : Rooted k'
  root : k'.root = k.root
  linked : ∀ m, k.Linked m → k'.Linked m
  kept : ∀ {d s c}, k.Linked d → k.findIn d s = some c → k'.findIn d s = some c
  old : ∀ {d s c}, k.Linked d → k'.findIn d s = some c → k.Linked c → k.findIn d s = some c
  parent : ∀ {m}, k.Linked m → (k'.node m).parent = (k.node m).parent
  type : ∀ {m}, k.Linked m → (k'.node m).type = (k.node m).type
  new : ∀ {m}, k'.Linked m → ¬ k.Linked m → (k'.node m).type ≠ .symlink

theorem Enlarges.refl (hr : Rooted k) : Enlarges k k :=
  ⟨hr, rfl, fun _ h => h, fun _ h => h, fun _ h _ => h, fun _ => rfl, fun _ => rfl,
    fun h hn => absurd h hn⟩

theorem Enlarges.trans (h : Enlarges k k1) (h' : Enlarges k1 k') : Enlarges k k' where
  rooted := h'.rooted
  root := h'.root.trans h.root
  linked m hm := h'.linked m (h.linked m hm)
  kept hd hc := h'.kept (h.linked _ hd) (h.kept hd hc)
  old hd hc hl := h.old hd (h'.old (h.linked _ hd) hc (h.linked _ hl)) hl
  parent hm := (h'.parent (h.linked _ hm)).trans (h.parent hm)
  type hm := (h'.type (h.linked _ hm)).trans (h.type hm)
  new := by
    intro m hm hn
    by_cases h1 : k1.Linked m
    · rw [h'.type h1]
      exact h.new h1 hn
    · exact h'.new hm h1

theorem Enlarges.above (h : Enlarges k k') (hr : Rooted k) (hd : k'.Linked d) (hu : k'.Under d c)
    (hc : k.Linked c) : k.Linked d := by
  induction hu with
  | refl => exact hc
  | child hu hm ih =>
    have hup := h.rooted.up (Under.trans hd hu) hm
    rw [h.parent hc] at hup
    exact ih (hr.linked_parent hc hup)

/-- Names that lead to an old node have led there before. -/
theorem Enlarges.down_old (h : Enlarges k k') (hr : Rooted k) (hd : k.Linked d)
    (hc : k'.down ps d = some c) (hl : k.Linked c) : k.down ps d = some c := by
  induction ps generalizing d with
  | nil => exact hc
  | cons s ps ih =>
    obtain ⟨e, he, hc⟩ := Option.bind_eq_some_iff.mp hc
    have hle := h.above hr ((h.linked d hd).findIn he) (down_under hc) hl
    rw [down, h.old hd he hle]
    exact ih hle hc

structure MadeIn (k : Kernel) (dir : Nat) (s : List Char) (n : Nat) (k' : Kernel) : Prop
    extends Enlarges k k' where
  found : k'.findIn dir s = some n
  linked_new : k'.Linked n
  empty : (k'.node n).children = []

theorem Enlarges.alloc (hr : Rooted k) : Enlarges k { k with allocs := k.allocs + 1 } where
  rooted := hr.of_shape rfl
  root := rfl
  linked _ hm := hm.of_shape rfl
  kept _ hc := hc
  old _ hc _ := hc
  parent _ := rfl
  type _ := rfl
  new hm hn := (hn (hm.of_shape rfl)).elim

theorem Rooted.findIn_linkNew {x : Bool} (hr : Rooted k) (hn : n ∉ k.nodes.used)
    (hdir : k.Linked dir) (hd : k.Linked d) (t : List Char) :
    (k.linkNew n s x dir).findIn d t =
      if d = dir ∧ t = s then some n else k.findIn d t := by
  have hne : n ≠ dir := fun he => hn (he ▸ hr.used hdir)
  have hold : ∀ c ∈ (k.node d).children,
      decide (((k.linkNew n s x dir).node c).name = t) = decide ((k.node c).name = t) := by
    intro c hc
    rw [hr.linkNew_old hn (Under.child hd hc)]
  have hrest : (k.node d).children.find? (fun c => ((k.linkNew n s x dir).node c).name = t) =
      k.findIn d t := List.find?_congr hold
  unfold findIn
  rw [hr.linkNew_old hn hd]
  dsimp only
  by_cases hdd : d = dir
  · rw [if_pos hdd]
    have hname : ((k.linkNew n s x dir).node n).name = s := by
      rw [linkNew_new hne]
      rfl
    by_cases ht : t = s
    · rw [List.find?_cons_of_pos (by rw [hname, ht]; exact decide_eq_true rfl), if_pos ⟨hdd, ht⟩]
    · rw [List.find?_cons_of_neg (by rw [hname]; simpa using Ne.symm ht),
        if_neg fun h => ht h.2]
      exact hrest
  · rw [if_neg hdd, if_neg fun h => hdd h.1]
    exact hrest

theorem Rooted.linkNew_made {x : Bool} (hr : Rooted k) (hn : n ∉ k.nodes.used)
    (hd : k.Linked dir) (hfree : k.findIn dir s = none) :
    MadeIn k dir s n (k.linkNew n s x dir) := by
  have hne : n ≠ dir := fun he => hn (he ▸ hr.used hd)
  refine ⟨⟨hr.linkNew hn hd, rfl, fun m hm => Linked.linkNew hr hn hd hm,
    fun {e t c} he hc => ?_,
    fun {e t c} he hc hl => ?_, fun {m} hm => ?_, fun {m} hm => ?_, fun {m} hm hm' => ?_⟩,
    ?_, hr.new_linked hn hd, ?_⟩
  · rw [hr.findIn_linkNew hn hd he, if_neg]
    · exact hc
    · rintro ⟨rfl, rfl⟩
      rw [hfree] at hc
      cases hc
  · rw [hr.findIn_linkNew hn hd he] at hc
    split at hc
    · cases hc
      exact absurd (hr.used hl) hn
    · exact hc
  · rw [hr.linkNew_old hn hm]
  · rw [hr.linkNew_old hn hm]
  · obtain rfl : m = n := (linkNew_linked hne hm).resolve_left hm'
    rw [linkNew_new hne]
    cases x with
    | true => exact nofun
    | false => exact nofun
  · rw [hr.findIn_linkNew hn hd hd, if_pos ⟨rfl, rfl⟩]
  · rw [linkNew_new hne]
    rfl

theorem Rooted.madeIn {x : Bool} (hr : Rooted k) (hd : k.Linked dir) (hfree : k.findIn dir s = none)
    (hc : k.createNode env s x dir = some (n, k')) : MadeIn k dir s n k' := by
  obtain ⟨hn, rfl⟩ := createNode_eq env hc
  have h1 := Enlarges.alloc hr
  have h2 := h1.rooted.linkNew_made hn (h1.linked dir hd) hfree (x := x)
  exact ⟨h1.trans h2.toEnlarges, h2.found, h2.linked_new, h2.empty⟩

structure Leads (k : Kernel) (ps : List (List Char)) (d n : Nat) (k' : Kernel) : Prop
    extends Enlarges k k' where
  down : k'.down ps d = some n

theorem Leads.cons (h1 : Enlarges k k1) (hd : k1.Linked d) (hc : k1.findIn d s = some c)
    (h2 : Leads k1 ps c n k') : Leads k (s :: ps) d n k' := by
  refine ⟨h1.trans h2.toEnlarges, ?_⟩
  rw [Kernel.down, h2.kept hd hc]
  exact h2.down

theorem createDirIn_leads (hr : Rooted k) (hd : k.Linked d)
    (h : createDirIn env ps d k = some (n, k')) : Leads k ps d n k' := by
  induction ps generalizing k d with
  | nil =>
    cases h
    exact ⟨.refl hr, rfl⟩
  | cons s ps ih =>
    rw [createDirIn] at h
    cases hc : k.findIn d s with
    | some c =>
      rw [hc] at h
      exact .cons (.refl hr) hd hc (ih hr (hd.findIn hc) h)
    | none =>
      rw [hc] at h
      obtain ⟨⟨c, k1⟩, hm, h⟩ := Option.bind_eq_some_iff.mp h
      have h1 := hr.madeIn hd hc hm
      exact .cons h1.toEnlarges (h1.linked d hd) h1.found (ih h1.rooted h1.linked_new h)

theorem createFileIn_leads (hr : Rooted k) (hd : k.Linked d)
    (h : createFileIn env ps d k = some (some n, k')) : Leads k ps d n k' := by
  have hrun := createFileIn_creates h
  generalize hsome : some n = r at hrun
  clear h
  induction hrun with
  | nil => cases hsome
  | found hf =>
    cases hsome
    exact .cons (.refl hr) hd hf ⟨.refl hr, rfl⟩
  | made hf hm =>
    cases hsome
    have h1 := hr.madeIn hd hf hm
    exact .cons h1.toEnlarges (h1.linked _ hd) h1.found ⟨.refl h1.rooted, rfl⟩
  | blocked => cases hsome
  | down hf _ _ ih => exact .cons (.refl hr) hd hf (ih hr (hd.findIn hf) hsome)
  | make hf hm _ ih =>
    have h1 := hr.madeIn hd hf hm
    exact .cons h1.toEnlarges (h1.linked _ hd) h1.found (ih h1.rooted h1.linked_new hsome)

end making

section lookup

variable {find : Finder} {qs : List (List Char × Option (List Char))}

def Made (env : Env) (k : Kernel) (path : List Char) (n : Nat) (k' : Kernel) : Prop :=
  k.createFilePath env path = some (some n, k') ∨ k.createDirPath env path = some (some n, k')

def Gives (env : Env) (k : Kernel) (path : List Char) (n : Nat) (k' : Kernel) : Prop :=
  Full.createFilePath env k path = (some n, k') ∨ Full.createDirPath env k path = (some n, k')

theorem Gives.made (h : Gives env k path n k') (hn : Full.Named env k k') : Made env k path n k' :=
  h.imp (Full.createFilePath_named · hn) (Full.createDirPath_named · hn)

theorem Made.gives (h : Made env k path n k') : Gives env k path n k' :=
  h.imp Full.createFilePath_fed Full.createDirPath_fed

/-- `find` returns the node, or, if it is a link, what the link resolves to. -/
def Refound (env : Env) (path : List Char) (n : Nat) (k' : Kernel) : Prop :=
  (∃ q, k'.find env path = some (some n, q)) ∨ ((k'.node n).type = .symlink ∧
    k'.find env path = followLinks env (findTo env (env.fuel - 1)) 8 n k')

/-- No component is `.` or `..`, and no component but the last is the name of a link. -/
structure Straight (k : Kernel) (path : List Char) : Prop where
  plain : ∀ s ∈ components path, Plain s
  links : ∀ us vs c, components path = us ++ vs → us ≠ [] → vs ≠ [] →
    k.down us (k.startDir path) = some c → (k.node c).type ≠ .symlink

theorem Made.leads (hr : Rooted k) (hs : k.Linked (k.startDir path)) (h : Made env k path n k') :
    Leads k (components path) (k.startDir path) n k' := by
  cases h with
  | inl h =>
    unfold createFilePath at h
    split at h
    · cases h
    · exact createFileIn_leads hr hs h
  | inr h =>
    unfold createDirPath at h
    split at h
    · cases h
    · obtain ⟨⟨m, k1⟩, hm, h⟩ := Option.bind_eq_some_iff.mp h
      cases h
      exact createDirIn_leads hr hs hm

theorem Made.ne_nil (h : Made env k path n k') : path ≠ [] := by
  intro hnil
  rw [hnil] at h
  cases h with
  | inl h => cases h
  | inr h => cases h

theorem Made.startDir (h : Made env k path n k') (hroot : k'.root = k.root) :
    k'.startDir path = k.startDir path := by
  have hprocs : k'.procSide = k.procSide := by
    cases h with
    | inl h => exact createFilePath_procSide k path _ _ h
    | inr h => exact ((procSide_frame _).createDirPath rfl h).1
  exact startDir_of_procSide hprocs hroot path

theorem components_eq (hlen : ∀ s ∈ path.splitOn '/', s.length ≤ 127) :
    components path = (path.splitOn '/').filter (· ≠ []) := by
  unfold components
  have hmap : (parts (path.length + 1) path).map (fun p => cut p.1) =
      (path.splitOn '/').map cut := by
    rw [← parts_fst (Nat.lt_succ_self path.length), List.map_map]
    rfl
  have hcut : (path.splitOn '/').map cut = path.splitOn '/' := by
    conv_rhs => rw [← List.map_id (path.splitOn '/')]
    exact List.map_congr_left fun s hs => cut_short (hlen s hs)
  rw [hmap, hcut]

/-- A walk along plain names without links in between ends where the names lead. -/
theorem walkParts_down (hlen : ∀ s ∈ qs.map Prod.fst, s.length ≤ 127)
    (hps : (qs.map Prod.fst).filter (· ≠ []) = ps) (hplain : ∀ s ∈ ps, Plain s)
    (hlinks : ∀ us vs c, ps = us ++ vs → us ≠ [] → vs ≠ [] → k.down us d = some c →
      (k.node c).type ≠ .symlink)
    (h : k.down ps d = some n) : walkParts env find qs d k =
      if ps = [] then some (some n, k) else followLinks env find 8 n k := by
  induction qs generalizing ps d with
  | nil =>
    rw [List.map_nil, List.filter_nil] at hps
    rw [← hps] at h ⊢
    cases h
    rfl
  | cons p qs ih =>
    obtain ⟨part, rest⟩ := p
    have hpart : part.length ≤ 127 := hlen part List.mem_cons_self
    have hrest : ∀ s ∈ qs.map Prod.fst, s.length ≤ 127 :=
      fun s hs => hlen s (List.mem_cons_of_mem _ hs)
    rw [List.map_cons] at hps
    by_cases hnil : part = []
    · rw [List.filter_cons_of_neg (by simpa using hnil)] at hps
      rw [hnil, walkParts_skip (Nat.zero_le _) (Or.inl rfl)]
      exact ih hrest hps hplain hlinks h
    · rw [List.filter_cons_of_pos (by simpa using hnil)] at hps
      rw [← hps] at hplain hlinks h ⊢
      rw [if_neg (List.cons_ne_nil _ _)]
      have hp := hplain part List.mem_cons_self
      obtain ⟨c, hc, hdown⟩ := Option.bind_eq_some_iff.mp h
      by_cases hlast : (qs.map Prod.fst).filter (· ≠ []) = []
      · -- only slashes are left
        rw [hlast] at hdown
        cases hdown
        rw [walkParts_link hpart hp hc]
        have hskip : ∀ x q, walkParts env find qs x q = some (some x, q) := by
          intro x q
          apply walkParts_skips (i := qs.length)
          refine List.eq_replicate_iff.mpr ⟨by rw [List.length_map], fun s hs => ?_⟩
          have := List.filter_eq_nil_iff.mp hlast s hs
          simpa using this
        cases followLinks env find 8 n k with
        | none => rfl
        | some x =>
          obtain ⟨next, q⟩ := x
          cases next with
          | none => rfl
          | some x => exact hskip x q
      · have hc' := hlinks [part] _ c rfl (List.cons_ne_nil _ _) hlast (by
          rw [Kernel.down, hc]
          rfl)
        rw [walkParts_child hpart hp hc hc', ih hrest rfl
          (fun s hs => hplain s (List.mem_cons_of_mem _ hs)) ?_ hdown, if_neg hlast]
        intro us vs x he hus hvs hx
        refine hlinks (part :: us) vs x (by rw [he]; rfl) (List.cons_ne_nil _ _) hvs ?_
        rw [Kernel.down, hc]
        exact hx

/-- Without dots and links `find` comes to the node that was made. -/
theorem Straight.refound (h : Straight k path) (hr : Rooted k) (hs : k.Linked (k.startDir path))
    (hlen : ∀ s ∈ path.splitOn '/', s.length ≤ 127) (hfuel : 0 < env.fuel)
    (hm : Made env k path n k') : Refound env path n k' := by
  have hl := hm.leads hr hs
  have hstart := hm.startDir hl.root
  obtain ⟨j, hj⟩ : ∃ j, env.fuel = j + 1 := ⟨env.fuel - 1, by omega⟩
  obtain ⟨qs, hqs, hfind⟩ := search_eq (k := k') hm.ne_nil
  have hfst : (qs.map Prod.fst).filter (· ≠ []) = components path := by
    rw [hqs, components_eq hlen]
  -- the links that are passed were there before
  have hlinks : ∀ us vs c, components path = us ++ vs → us ≠ [] → vs ≠ [] →
      k'.down us (k.startDir path) = some c → (k'.node c).type ≠ .symlink := by
    intro us vs c he hus hvs hc
    by_cases hlc : k.Linked c
    · rw [hl.type hlc]
      exact h.links us vs c he hus hvs (hl.toEnlarges.down_old hr hs hc hlc)
    · exact hl.new (down_linked (hl.linked _ hs) hc) hlc
  have hwalk : walkParts env (findTo env j) qs (k.startDir path) k' =
      if components path = [] then some (some n, k')
      else followLinks env (findTo env j) 8 n k' :=
    walkParts_down (by rw [hqs]; exact hlen) hfst h.plain hlinks hl.down
  have hres : k'.find env path = if components path = [] then some (some n, k')
      else followLinks env (findTo env j) 8 n k' := by
    unfold Kernel.find
    rw [hj, (hfind env j).1, hstart]
    exact hwalk
  unfold Refound
  rw [hres, hj, Nat.add_sub_cancel]
  split
  · exact Or.inl ⟨k', rfl⟩
  · by_cases ht : (k'.node n).type = .symlink
    · exact Or.inr ⟨ht, rfl⟩
    · refine Or.inl ⟨k', ?_⟩
      unfold followLinks
      rw [if_neg ht]

end lookup

section barrier

/-- A node that no lookup passes: a link, or a node with a name that stands for something else. -/
structure Barrier (y : Nat) (k : Kernel) : Prop where
  rooted : Rooted k
  linked : k.Linked y
  root : y ≠ k.root
  bars : (k.node y).type = .symlink ∨ ¬ Plain (k.node y).name

structure KeepsUnder (y : Nat) (k k' : Kernel) : Prop where
  linked : ∀ m, k.Linked m → k'.Linked m
  under : ∀ m, k.Linked m → (k'.Under y m ↔ k.Under y m)

theorem KeepsUnder.trans (h : KeepsUnder y k k1) (h' : KeepsUnder y k1 k') : KeepsUnder y k k' where
  linked m hm := h'.linked m (h.linked m hm)
  under m hm := (h'.under m (h.linked m hm)).trans (h.under m hm)

theorem KeepsUnder.of_shape (hs : k'.shape = k.shape) : KeepsUnder y k k' where
  linked _ hm := hm.of_shape hs
  under m _ := by
    have hc := children_of_shape hs
    constructor
    · intro h
      refine Under.mono h fun d _ c hcd => ?_
      rw [← hc]
      exact hcd
    · intro h
      refine Under.mono h fun d _ c hcd => ?_
      rw [hc]
      exact hcd

theorem Barrier.of_nodes (h : Barrier y k) (hn : k'.nodes = k.nodes) (hr : k'.root = k.root) :
    Barrier y k' ∧ KeepsUnder y k k' := by
  have hs : k'.shape = k.shape := by
    unfold shape node
    rw [hn, hr]
  have hy : k'.node y = k.node y := congrArg (Arena.cell · y) hn
  refine ⟨⟨h.rooted.of_shape hs, h.linked.of_shape hs, ?_, ?_⟩, .of_shape hs⟩
  · rw [hr]
    exact h.root
  · rw [hy]
    exact h.bars

theorem Barrier.createNode {x : Bool} (h : Barrier y k)
    (hc : k.createNode env s x dir = some (n, k')) : Barrier y k' ∧ KeepsUnder y k k' := by
  have hr' := h.rooted.createNode hc
  have hnode : ∀ {m}, k.Linked m → k'.node m = _ := fun hm => h.rooted.createNode_node hc hm
  have hroot : k'.root = k.root := by
    obtain ⟨_, rfl⟩ := createNode_eq env hc
    rfl
  have hmore : ∀ d, k.Linked d → ∀ c ∈ (k.node d).children, c ∈ (k'.node d).children := by
    intro d hd c hcd
    rw [hnode hd]
    dsimp only
    split
    · exact List.mem_cons_of_mem n hcd
    · exact hcd
  have hlinked : ∀ m, k.Linked m → k'.Linked m := by
    intro m hm
    unfold Linked
    rw [hroot]
    exact Under.mono hm hmore
  refine ⟨⟨hr', hlinked y h.linked, ?_, ?_⟩, hlinked, fun m hm => ⟨fun hu => ?_, fun hu => ?_⟩⟩
  · rw [hroot]
    exact h.root
  · rw [hnode h.linked]
    exact h.bars
  · induction hu with
    | refl => exact .refl
    | child hu hmem ih =>
      rename_i d c
      have hup := hr'.up (Under.trans (hlinked y h.linked) hu) hmem
      rw [hnode hm] at hup
      have hcr : c ≠ k.root := by
        intro he
        rw [he, h.rooted.top] at hup
        cases hup
      obtain ⟨e, he, hle, hce⟩ := h.rooted.parent hm hcr
      rw [hup] at he
      cases he
      exact .child (ih hle) hce
  · exact Under.mono hu fun d hd c hcd => hmore d (Under.trans h.linked hd) c hcd

theorem barrier_stands (y : Nat) : StandRule env (Barrier y) (KeepsUnder y) (fun _ _ => True)
    (fun k m => k.Linked m ∧ ¬ k.Under y m) where
  refl _ := .of_shape rfl
  trans h h' := h.trans h'
  keep _ _ := trivial
  root _ := trivial
  cwd _ := trivial
  parent _ _ _ := trivial
  child _ _ _ := trivial
  alloc h := h.of_nodes rfl rfl
  device _ h := h.of_nodes rfl rfl
  dev := by
    intro k name dir n k' dev h _ _ hc
    obtain ⟨h1, h2⟩ := h.createNode hc
    have hne : y ≠ n := fun he => (createNode_eq env hc).1 (he ▸ h.rooted.used h.linked)
    have hs : (k'.asDevice n dev).shape = k'.shape := setNode_shape rfl rfl
    have hy : (k'.asDevice n dev).node y = k'.node y := (setNode_node k' n y _).trans (if_neg hne)
    refine ⟨⟨h1.rooted.of_shape hs, h1.linked.of_shape hs, h1.root, ?_⟩, h2.trans (.of_shape hs)⟩
    rw [hy]
    exact h1.bars
  ask := by
    intro k k' n fs found _ _ _ _ _ h _
    cases found with
    | false => exact h.of_nodes rfl rfl
    | true => exact h.of_nodes rfl rfl
  stays := by
    rintro k k' n hk ⟨hl, hu⟩
    exact ⟨hk.linked n hl, fun hu' => hu ((hk.under n hl).mp hu')⟩
  top := by
    intro k h
    refine ⟨.refl, fun hu => ?_⟩
    generalize hr : k.root = r at hu
    cases hu with
    | refl => exact h.root hr.symm
    | child hu hm =>
      have hup := h.rooted.up (Under.trans h.linked hu) hm
      rw [← hr, h.rooted.top] at hup
      cases hup
  above := by
    rintro k n h ⟨hl, hu⟩
    cases hp : (k.node n).parent with
    | none => exact ⟨hl, hu⟩
    | some d =>
      have hnr : n ≠ k.root := by
        intro he
        rw [he, h.rooted.top] at hp
        cases hp
      obtain ⟨e, he, hle, hm⟩ := h.rooted.parent hl hnr
      rw [hp] at he
      cases he
      exact ⟨hle, fun hd => hu (.child hd hm)⟩
  below := by
    rintro k n s c h ⟨hl, hu⟩ hplain _ hc ht
    obtain ⟨hm, hname⟩ := findIn_child hc
    have hup := h.rooted.up hl hm
    refine ⟨hl.findIn hc, fun hyc => ?_⟩
    cases hyc with
    | refl =>
      cases h.bars with
      | inl hlink => exact ht hlink
      | inr hdots =>
        rw [hname] at hdots
        exact hdots hplain
    | child hyd hmd =>
      have hupd := h.rooted.up (Under.trans h.linked hyd) hmd
      rw [hup] at hupd
      cases hupd
      exact hu hyd

/-- What lies behind a barrier below the start is not found. -/
theorem not_found {e : Nat} {q : Kernel} (hr : Rooted k) (hs : k.Linked (k.startDir path))
    (hne : path ≠ []) (he : k.down us (k.startDir path) = some e) (hy : k.findIn e s = some y)
    (hn : k.down vs y = some n)
    (hbar : (k.node y).type = .symlink ∨ ¬ Plain (k.node y).name) :
    k.find env path ≠ some (some n, q) := by
  intro hf
  have hle := down_linked hs he
  obtain ⟨hmem, _⟩ := findIn_child hy
  have hb : Barrier y k := ⟨hr, hle.findIn hy, (hr.child_ne hle hmem).1, hbar⟩
  have hstart : ¬ k.Under y (k.startDir path) := fun hu =>
    hr.not_under hle hmem (Under.trans hu (down_under he))
  obtain ⟨j, hj⟩ : ∃ j, env.fuel = j + 1 := by
    cases hj : env.fuel with
    | zero =>
      unfold Kernel.find at hf
      rw [hj] at hf
      cases hf
    | succ j => exact ⟨j, rfl⟩
  obtain ⟨qs, _, hfind⟩ := search_eq (k := k) hne
  unfold Kernel.find at hf
  rw [hj, (hfind env j).1] at hf
  have S : StandRule env (Barrier y) (KeepsUnder y) (fun _ _ => True)
    (fun k m => k.Linked m ∧ ¬ k.Under y m) := barrier_stands y
  obtain ⟨_, hkeep, _⟩ := S.toSearchRule.walkParts (S.follows j) hb trivial
    (walkPartsOk_true (fun _ _ _ => trivial) (fun _ _ => trivial) qs _ k) hf
  obtain ⟨_, hout⟩ := S.walkParts (fun hi hg => S.findTo j hi hg) hb trivial ⟨hs, hstart⟩ hf
  exact hout ((hkeep.under n (down_linked (hle.findIn hy) hn)).mpr (down_under hn))

end barrier

section agreement

theorem Enlarges.down_kept (h : Enlarges k k') (hd : k.Linked d) (hc : k.down ps d = some c) :
    k'.down ps d = some c := by
  induction ps generalizing d with
  | nil => exact hc
  | cons s ps ih =>
    obtain ⟨e, he, hc⟩ := Option.bind_eq_some_iff.mp hc
    rw [down, h.kept hd he]
    exact ih (hd.findIn he) hc

theorem Refound.straight (h : Refound env path n k') (hr : Rooted k)
    (hs : k.Linked (k.startDir path)) (hm : Made env k path n k')
    (hlink : (k'.node n).type ≠ .symlink) : Straight k path := by
  have hl := hm.leads hr hs
  have hstart := hm.startDir hl.root
  have hs' : k'.Linked (k'.startDir path) := by
    rw [hstart]
    exact hl.linked _ hs
  obtain ⟨q, hf⟩ : ∃ q, k'.find env path = some (some n, q) := h.resolve_right fun hh => hlink hh.1
  constructor
  · intro s hmem
    by_contra hdots
    obtain ⟨us, vs, he⟩ := List.append_of_mem hmem
    have hdown := hl.down
    rw [he, down_append] at hdown
    obtain ⟨e, hus, hdown⟩ := Option.bind_eq_some_iff.mp hdown
    obtain ⟨y, hy, hvs⟩ := Option.bind_eq_some_iff.mp hdown
    rw [← hstart] at hus
    refine not_found hl.rooted hs' hm.ne_nil hus hy hvs (Or.inr ?_) hf
    rw [(findIn_child hy).2]
    exact hdots
  · intro us vs c he hne _ hc hclink
    have hkept := hl.toEnlarges.down_kept hs hc
    have hdown := hl.down
    rw [he, down_append, hkept, Option.bind_some] at hdown
    -- the last step to the link
    obtain ⟨ws, s, rfl⟩ : ∃ ws s, us = ws ++ [s] :=
      ⟨us.dropLast, us.getLast hne, (List.dropLast_append_getLast hne).symm⟩
    rw [down_append] at hkept
    obtain ⟨e, hws, hkept⟩ := Option.bind_eq_some_iff.mp hkept
    obtain ⟨y, hy, hyc⟩ := Option.bind_eq_some_iff.mp hkept
    cases hyc
    rw [← hstart] at hws
    refine not_found hl.rooted hs' hm.ne_nil hws hy hdown (Or.inl ?_) hf
    rw [hl.type (down_linked hs hc)]
    exact hclink

/-- What was made is found again if there was memory for the names, no component is a dot and none but
the last a link. Unless it is a link itself it is found again only then. -/
theorem made_refound {ok : Env → Kernel → Event → Prop} (hk : Reached ok k)
    (hs : k.Linked (k.startDir path)) (hlen : ∀ s ∈ path.splitOn '/', s.length ≤ 127)
    (hfuel : 0 < env.fuel) (hm : Gives env k path n k') :
    (Full.Named env k k' ∧ Straight k path → Refound env path n k') ∧
      (Full.Named env k k' → (k'.node n).type ≠ .symlink → Refound env path n k' →
        Straight k path) := by
  refine ⟨fun ⟨hn, h⟩ => ?_, fun hn ht h => ?_⟩
  · exact h.refound hk.rooted hs hlen hfuel (hm.made hn)
  · exact h.straight hk.rooted hs (hm.made hn) ht

theorem boot_down (us : List (List Char)) (hne : us ≠ []) (d : Nat) : boot.down us d = none := by
  cases us with
  | nil => exact absurd rfl hne
  | cons s us => rfl

/-- Two new directories. -/
theorem made_refound_two_directories : ∃ n k', boot.createDirPath freshEnv "/a/b".toList =
    some (some n, k') ∧ k'.nodes.used = {0, 1, n} ∧ Refound freshEnv "/a/b".toList n k' := by
  have hrun : (boot.createDirPath freshEnv "/a/b".toList).any (fun x => x.1.any fun n =>
      x.2.nodes.used = {0, 1, n}) = true := by decide +kernel
  obtain ⟨⟨r, k'⟩, hmade, hr⟩ := any_exists hrun
  obtain ⟨n, rfl, hused⟩ := any_exists hr
  have hreach : Reached (fun _ _ _ => True) boot := .boot
  have hstart : boot.Linked (boot.startDir "/a/b".toList) := Under.refl
  have hgives : Gives freshEnv boot _ n k' := Made.gives (Or.inr hmade)
  refine ⟨n, k', hmade, of_decide_eq_true hused,
    (made_refound hreach hstart (by decide) (by decide) hgives).1 ⟨fun _ _ _ => rfl, ?_⟩⟩
  refine ⟨by decide, fun us vs c _ hne _ hc => ?_⟩
  rw [boot_down us hne] at hc
  cases hc

/-- `mkdir` of `/a/.` makes an entry of that name, `find` returns `/a`. -/
theorem dot_not_refound : ¬ ∀ (env : Env) (k k' : Kernel) (path : List Char) (n : Nat),
    Reached (fun _ _ _ => True) k → k.Linked (k.startDir path) →
    (∀ s ∈ path.splitOn '/', s.length ≤ 127) → 0 < env.fuel → Gives env k path n k' →
    Refound env path n k' := by
  intro hall
  have hrun : (boot.createDirPath freshEnv "/a/.".toList).any (fun x => x.1 = some 2 ∧
      (x.2.node 2).type = .dir ∧
      (x.2.find freshEnv "/a/.".toList).any fun y => y.1 = some 1) = true := by decide +kernel
  obtain ⟨⟨r, k'⟩, hmade, h⟩ := any_exists hrun
  obtain ⟨hr, ht, hf⟩ := of_decide_eq_true h
  obtain rfl : r = some 2 := hr
  obtain ⟨⟨x, q⟩, hf, hx⟩ := any_exists hf
  obtain rfl : x = some 1 := of_decide_eq_true hx
  have hstart : boot.Linked (boot.startDir "/a/.".toList) := Under.refl
  have hboth := hall freshEnv boot k' _ 2 .boot hstart (by decide) (by decide)
    (Made.gives (Or.inr hmade))
  cases hboth with
  | inl hfound =>
    obtain ⟨q', hq⟩ := hfound
    rw [hf] at hq
    cases hq
  | inr hlink =>
    have hsym := hlink.1
    rw [ht] at hsym
    cases hsym

end agreement

end LosTacOS.Os.Kernel
