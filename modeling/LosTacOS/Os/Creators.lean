import LosTacOS.Os.Buffers

/-! Where `create_file_path` ends: at a node that is there already, at a file in its way, or where
something is missing. -/
namespace LosTacOS.Os

/-- Where the walk of `create_file_path` ends before anything is created. -/
inductive Place where
  | found (n : Nat)
  | blocked
  | missing
deriving DecidableEq

namespace Kernel

variable {env : Env} {k k' q : Kernel} {dir n : Nat} {ps : List (List Char)} {path : List Char}
  {r : Option Nat}

/-- The walk down the components; only the last of them may be something else than a directory. -/
def placeIn (k : Kernel) : List (List Char) → Nat → Place
  | [], _ => .blocked
  | [part], dir =>
    match k.findIn dir part with
    | some n => .found n
    | none => .missing
  | part :: next :: ps, dir =>
    match k.findIn dir part with
    | some n => if (k.node n).directory then k.placeIn (next :: ps) n else .blocked
    | none => .missing

def place (k : Kernel) (path : List Char) : Place := k.placeIn (components path) (k.startDir path)

section place

theorem createNode_used {name : List Char} {d : Bool}
    (h : k.createNode env name d dir = some (n, k')) :
    n ∉ k.nodes.used ∧ k'.nodes.used = insert n k.nodes.used := by
  obtain ⟨hn, rfl⟩ := createNode_eq env h
  exact ⟨hn, rfl⟩

/-- A new node has no children but itself: it may have the address of its own directory when that
was freed. -/
theorem createNode_children {name : List Char} {d : Bool}
    (h : k.createNode env name d dir = some (n, k')) : ∀ c ∈ (k'.node n).children, c = n := by
  obtain ⟨_, rfl⟩ := createNode_eq env h
  intro c hc
  rw [linkNew_node] at hc
  dsimp only at hc
  rw [if_pos rfl] at hc
  by_cases hdir : n = dir
  · subst hdir
    simpa [newNode] using hc
  · simp [hdir, newNode] at hc

theorem Creates.new {used : Finset Nat} (hc : Creates env ps dir k r k')
    (hu : used ⊆ k.nodes.used) (hdir : dir ∉ used)
    (hself : ∀ c ∈ (k.node dir).children, c = dir) :
    k.nodes.used ⊆ k'.nodes.used ∧ ∀ n, r = some n → n ∉ used := by
  induction hc with
  | nil => exact ⟨fun _ hx => hx, nofun⟩
  | found hf =>
    refine ⟨fun _ hx => hx, fun n hn => ?_⟩
    cases hn
    rw [hself _ (List.mem_of_find?_eq_some hf)]
    exact hdir
  | made _ hm =>
    obtain ⟨hn, hused⟩ := createNode_used hm
    refine ⟨by rw [hused]; exact Finset.subset_insert _ _, fun m hm => ?_⟩
    cases hm
    exact fun hin => hn (hu hin)
  | blocked => exact ⟨fun _ hx => hx, nofun⟩
  | down hf _ _ ih =>
    have hsame := hself _ (List.mem_of_find?_eq_some hf)
    subst hsame
    exact ih hu hdir hself
  | make _ hm _ ih =>
    obtain ⟨hn, hused⟩ := createNode_used hm
    have hsub := hused.ge.trans' (Finset.subset_insert _ _)
    obtain ⟨hrest, hnew⟩ := ih (hu.trans hsub) (fun hin => hn (hu hin)) (createNode_children hm)
    exact ⟨hsub.trans hrest, hnew⟩

/-- A link is made of whatever `create_file_path` comes back with. -/
theorem createSymlinkPath_cases {target : List Char}
    (h : k.createSymlinkPath env path target = some (r, k')) :
    ∃ q, k.createFilePath env path = some (r, q) ∧ (r = none ∧ k' = q ∨
      ∃ n, r = some n ∧ k' = q.setNode n { q.node n with type := .symlink, symlink := target }) := by
  obtain ⟨⟨node, q⟩, hq, h⟩ := Option.bind_eq_some_iff.mp h
  cases node with
  | none =>
    cases h
    exact ⟨_, hq, Or.inl ⟨rfl, rfl⟩⟩
  | some n =>
    obtain ⟨-, h⟩ := Option.ite_none_right_eq_some.mp h
    cases h
    exact ⟨_, hq, Or.inr ⟨n, rfl, rfl⟩⟩

end place

end Kernel

end LosTacOS.Os
