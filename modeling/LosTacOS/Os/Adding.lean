import LosTacOS.Os.Creators
import LosTacOS.Os.Full

/-! What the creating functions leave of the nodes there were. All of them stop at a node that is
there already; `create_symlink_path` then makes a link of it. -/
namespace LosTacOS.Os.Kernel

variable {env : Env} {k k' k1 : Kernel} {dir d n : Nat} {ps rest : List (List Char)}
  {part path name : List Char} {r : Option Nat} {used : Finset Nat}

namespace Full

def make (env : Env) (k : Kernel) : Make → Option Nat × Kernel
  | .dir path => createDirPath env k path
  | .file path => createFilePath env k path
  | .symlink path target => createSymlinkPath env k path target

section gap

/-- The directory of the first node that `create_file_path` makes. -/
def fileGap (k : Kernel) : List (List Char) → Nat → Option Nat
  | [], _ => none
  | [part], dir => if (k.findIn dir part).isSome then none else some dir
  | part :: next :: ps, dir =>
    match k.findIn dir part with
    | some n => if (k.node n).directory then fileGap k (next :: ps) n else none
    | none => some dir

def dirGap (k : Kernel) : List (List Char) → Nat → Option Nat
  | [], _ => none
  | part :: ps, dir =>
    match k.findIn dir part with
    | some n => dirGap k ps n
    | none => some dir

def gap (k : Kernel) : Make → Option Nat
  | .dir path => dirGap k (components path) (k.startDir path)
  | .file path | .symlink path _ => fileGap k (components path) (k.startDir path)

theorem createDirIn_jump (h : dirGap k ps dir = some d) : ∃ part rest,
    k.findIn d part = none ∧ createDirIn env ps dir k = createDirIn env (part :: rest) d k := by
  induction ps generalizing dir with
  | nil => cases h
  | cons part ps ih =>
    rw [dirGap] at h
    cases hf : k.findIn dir part with
    | none =>
      rw [hf] at h
      cases h
      exact ⟨part, ps, hf, rfl⟩
    | some c =>
      rw [hf] at h
      rw [createDirIn, hf]
      exact ih h

theorem createDirIn_whole (h : dirGap k ps dir = none) : (createDirIn env ps dir k).2 = k := by
  induction ps generalizing dir with
  | nil => rfl
  | cons part ps ih =>
    rw [dirGap] at h
    rw [createDirIn]
    cases hf : k.findIn dir part with
    | none =>
      rw [hf] at h
      cases h
    | some c =>
      rw [hf] at h
      exact ih h

end gap

end Full

section frame

/-- Every node that was in use still is, and has changed at most in that new children stand before
the old ones. The data of files has not changed. -/
structure NodesKept (k k' : Kernel) : Prop where
  nodes : ∀ n ∈ k.nodes.used, n ∈ k'.nodes.used ∧
    ∃ new, k'.node n = { k.node n with children := new ++ (k.node n).children }
  files : k'.files = k.files
  blocks : k'.blocks = k.blocks

/-- The nodes of `used` have not changed at all, nor has the data of files. -/
structure Spared (used : Finset Nat) (k k' : Kernel) : Prop where
  kept : used ⊆ k'.nodes.used
  node : ∀ n ∈ used, k'.node n = k.node n
  files : k'.files = k.files
  blocks : k'.blocks = k.blocks

theorem Spared.refl (h : used ⊆ k.nodes.used) : Spared used k k := ⟨h, fun _ _ => rfl, rfl, rfl⟩

theorem Spared.trans (h : Spared used k k1) (h' : Spared used k1 k') : Spared used k k' :=
  ⟨h'.kept, fun n hn => (h'.node n hn).trans (h.node n hn), h'.files.trans h.files,
    h'.blocks.trans h.blocks⟩

theorem NodesKept.refl (k : Kernel) : NodesKept k k := ⟨fun _ hn => ⟨hn, [], rfl⟩, rfl, rfl⟩

theorem NodesKept.spared (h : NodesKept k k1) (h' : Spared k.nodes.used k1 k') :
    NodesKept k k' := by
  refine ⟨fun n hn => ⟨h'.kept hn, ?_⟩, h'.files.trans h.files, h'.blocks.trans h.blocks⟩
  rw [h'.node n hn]
  exact (h.nodes n hn).2

theorem NodesKept.setNode (h : NodesKept k k') (hn : n ∉ k.nodes.used) (x : Node) :
    NodesKept k (k'.setNode n x) := by
  refine ⟨fun m hm => ?_, h.files, h.blocks⟩
  obtain ⟨hu, new, hnew⟩ := h.nodes m hm
  refine ⟨hu, new, ?_⟩
  have hne : m ≠ n := fun he => hn (he ▸ hm)
  rw [setNode_node, if_neg hne, hnew]

theorem NodesKept.linkNew {x : Bool} (hn : n ∉ k.nodes.used) :
    NodesKept k (k.linkNew n name x dir) := by
  refine ⟨fun m hm => ⟨Finset.mem_insert_of_mem hm, ?_⟩, rfl, rfl⟩
  have hne : m ≠ n := fun he => hn (he ▸ hm)
  rw [linkNew_node]
  dsimp only
  by_cases hdir : m = dir
  · subst hdir
    rw [if_pos rfl, if_neg hne]
    exact ⟨[n], rfl⟩
  · rw [if_neg hdir, if_neg hne]
    exact ⟨[], rfl⟩

namespace Full

/-- Below a directory that is not among the nodes of `used` nothing happens to them. A new directory
has no children but itself: it may have the address of its own directory when that was freed. -/
structure Below (used : Finset Nat) (dir : Nat) (k : Kernel) : Prop where
  old : used ⊆ k.nodes.used
  out : dir ∉ used
  self : ∀ c ∈ (k.node dir).children, c = dir

def emptied (k : Kernel) (dir : Nat) : Kernel :=
  Kernel.setNode { k with allocs := k.allocs + 1 } dir { k.node dir with children := [] }

structure Made (k k' : Kernel) (n dir : Nat) : Prop where
  fresh : n ∉ k.nodes.used
  used : n ∈ k'.nodes.used
  kept : NodesKept k k'
  spared : Spared (k.nodes.used.erase dir) k k'
  below : Below k.nodes.used n k'

theorem Made.linkNew {x : Bool} (hn : n ∉ k.nodes.used) :
    Made k (k.linkNew n name x dir) n dir := by
  have hsub : k.nodes.used ⊆ insert n k.nodes.used := Finset.subset_insert _ _
  refine ⟨hn, Finset.mem_insert_self _ _, .linkNew hn, ⟨(Finset.erase_subset _ _).trans hsub, fun u hu => ?_, rfl, rfl⟩, hsub, hn,
    fun c hc => ?_⟩
  · obtain ⟨hdir, hu⟩ := Finset.mem_erase.mp hu
    have hun : u ≠ n := fun he => hn (he ▸ hu)
    rw [linkNew_node]
    dsimp only
    rw [if_neg hdir, if_neg hun]
  · rw [linkNew_node] at hc
    dsimp only at hc
    rw [if_pos rfl] at hc
    by_cases hdir : n = dir
    · subst hdir
      simpa [newNode] using hc
    · simp [hdir, newNode] at hc

theorem createNode_cases (env : Env) (k : Kernel) (name : List Char) (x : Bool) (dir : Nat) :
    ((k.kmalloc env k.nodes.used).1 = none ∧ createNode env k name x dir = (none, emptied k dir)) ∨
      ∃ n k1, (k.kmalloc env k.nodes.used).1 = some n ∧
        createNode env k name x dir = (some n, k1) ∧ Made k k1 n dir := by
  unfold createNode
  cases hk : k.kmalloc env k.nodes.used with
  | mk a k1 =>
    obtain ⟨rfl, hfresh⟩ := kmalloc_eq hk
    cases a with
    | none => exact Or.inl ⟨rfl, rfl⟩
    | some n =>
      have hmade := @Made.linkNew { k with allocs := k.allocs + 1 } dir n
        (if env.texts (k.allocs + 1) then name else env.atNull) x (hfresh n rfl)
      obtain ⟨hn, hused, hkept, hspared, hbelow⟩ := hmade
      exact Or.inr ⟨n, _, rfl, rfl, hn, hused, ⟨hkept.nodes, hkept.files, hkept.blocks⟩,
        ⟨hspared.kept, hspared.node, hspared.files, hspared.blocks⟩, hbelow⟩

theorem Below.createNode {x : Bool} (h : Below used dir k) :
    Spared used k (createNode env k name x dir).2 ∧
      ∀ n, (createNode env k name x dir).1 = some n →
        Below used n (createNode env k name x dir).2 := by
  have hne : ∀ u ∈ used, u ≠ dir := fun u hu he => h.out (he ▸ hu)
  obtain ⟨-, hc⟩ | ⟨n, k1, -, hc, hmade⟩ := createNode_cases env k name x dir
  · rw [hc]
    refine ⟨⟨h.old, fun u hu => ?_, rfl, rfl⟩, nofun⟩
    unfold emptied
    rw [setNode_node, if_neg (hne u hu)]
    rfl
  · rw [hc]
    refine ⟨⟨h.old.trans hmade.below.old, fun u hu => ?_, hmade.kept.files, hmade.kept.blocks⟩,
      fun m hm => ?_⟩
    · exact hmade.spared.node u (Finset.mem_erase.mpr ⟨hne u hu, h.old hu⟩)
    · cases hm
      exact ⟨h.old.trans hmade.below.old, fun hu => hmade.fresh (h.old hu), hmade.below.self⟩

theorem Below.findIn {c : Nat} (h : Below used dir k) (hf : k.findIn dir part = some c) : c = dir :=
  h.self c (List.mem_of_find?_eq_some hf)

theorem Below.createFileIn (h : Below used dir k) :
    Spared used k (createFileIn env ps dir k).2 ∧
      ∀ n, (createFileIn env ps dir k).1 = some n → n ∉ used := by
  induction ps generalizing dir k with
  | nil => exact ⟨.refl h.old, fun n hn => absurd hn (Option.some_ne_none n).symm⟩
  | cons part ps ih =>
    cases ps with
    | nil =>
      rw [Full.createFileIn]
      cases hf : k.findIn dir part with
      | some c =>
        refine ⟨.refl h.old, fun n hn => ?_⟩
        cases hn
        rw [h.findIn hf]
        exact h.out
      | none => exact h.createNode.imp_right fun hb n hn => (hb n hn).out
    | cons next ps =>
      rw [Full.createFileIn]
      cases hf : k.findIn dir part with
      | some c =>
        obtain rfl := h.findIn hf
        dsimp only
        split
        · exact ih h
        · exact ⟨.refl h.old, fun n hn => absurd hn (Option.some_ne_none n).symm⟩
      | none =>
        obtain ⟨hs, hb⟩ := @Below.createNode env _ _ part _ true h
        dsimp only
        cases hc : Full.createNode env k part true dir with
        | mk a k1 =>
          rw [hc] at hs hb
          cases a with
          | none => exact ⟨hs, fun n hn => absurd hn (Option.some_ne_none n).symm⟩
          | some m => exact (ih (hb m rfl)).imp_left hs.trans

theorem Below.createDirIn (h : Below used dir k) : Spared used k (createDirIn env ps dir k).2 := by
  induction ps generalizing dir k with
  | nil => exact .refl h.old
  | cons part ps ih =>
    rw [Full.createDirIn]
    cases hf : k.findIn dir part with
    | some c =>
      obtain rfl := h.findIn hf
      exact ih h
    | none =>
      obtain ⟨hs, hb⟩ := @Below.createNode env _ _ part _ true h
      dsimp only
      cases hc : Full.createNode env k part true dir with
      | mk a k1 =>
        rw [hc] at hs hb
        cases a with
        | none => exact hs
        | some m => exact hs.trans (ih (hb m rfl))

end Full

end frame

section adds

theorem Full.createDirPath_snd (env : Env) (k : Kernel) (path : List Char) :
    (createDirPath env k path).2 = (createDirIn env (components path) (k.startDir path) k).2 := by
  rw [createDirPath]
  split_ifs with hnil
  · subst hnil
    rfl
  · rfl

/-- A link is made of whatever `create_file_path` comes back with. -/
theorem Full.createSymlinkPath_cases (env : Env) (k : Kernel) (path target : List Char) :
    (createSymlinkPath env k path target).1 = (createFilePath env k path).1 ∧
      ((createFilePath env k path).1 = none ∧
          (createSymlinkPath env k path target).2 = (createFilePath env k path).2 ∨
        ∃ n x, (createFilePath env k path).1 = some n ∧
          (createSymlinkPath env k path target).2 = (createFilePath env k path).2.setNode n x) := by
  unfold createSymlinkPath
  cases createFilePath env k path with
  | mk r q =>
    cases r with
    | none => exact ⟨rfl, Or.inl ⟨rfl, rfl⟩⟩
    | some n => exact ⟨rfl, Or.inr ⟨n, _, rfl, rfl⟩⟩

end adds

end LosTacOS.Os.Kernel
