import LosTacOS.Os.Trees

/-! The creating functions on a heap that may be full. `create_node` does not look whether it gets
memory: it writes through null, where there is a page, and links null into its directory. -/
namespace LosTacOS.Os.Kernel

variable {env : Env} {k k' k1 : Kernel} {dir d n : Nat} {ps rest : List (List Char)}
  {part path name : List Char} {r : Option Nat} {used : Finset Nat}

namespace Full

section definitions

variable (env : Env)

/-- `create_node`. Null as the first child empties the directory. A null name reads as the text at
address 0. -/
def createNode (k : Kernel) (name : List Char) (directory : Bool) (parent : Nat) :
    Option Nat × Kernel :=
  match k.kmalloc env k.nodes.used with
  | (none, k) => (none, k.setNode parent { k.node parent with children := [] })
  | (some n, k) =>
    (some n, k.linkNew n (if env.texts k.allocs then name else env.atNull) directory parent)

def createFileIn : List (List Char) → Nat → Kernel → Option Nat × Kernel
  | [], _, k => (none, k)
  | [part], dir, k =>
    match k.findIn dir part with
    | some n => (some n, k)
    | none => createNode env k part false dir
  | part :: next :: ps, dir, k =>
    match k.findIn dir part with
    | some n => if (k.node n).directory then createFileIn (next :: ps) n k else (none, k)
    | none =>
      match createNode env k part true dir with
      -- the walk goes on below null; nothing is freed on it, so there is no memory for nodes there
      | (none, k) => (none, k)
      | (some n, k) => createFileIn (next :: ps) n k

def createFilePath (k : Kernel) (path : List Char) : Option Nat × Kernel :=
  if path = [] then (none, k)
  else createFileIn env (components path) (k.startDir path) k

def createDirIn : List (List Char) → Nat → Kernel → Option Nat × Kernel
  | [], dir, k => (some dir, k)
  | part :: ps, dir, k =>
    match k.findIn dir part with
    | some n => createDirIn ps n k
    | none =>
      match createNode env k part true dir with
      | (none, k) => (none, k)
      | (some n, k) => createDirIn ps n k

def createDirPath (k : Kernel) (path : List Char) : Option Nat × Kernel :=
  if path = [] then (none, k)
  else createDirIn env (components path) (k.startDir path) k

/-- Without memory for its text the link is null, and `strcpy` has put the text where null reads. -/
def createSymlinkPath (k : Kernel) (path target : List Char) : Option Nat × Kernel :=
  match createFilePath env k path with
  | (none, k) => (none, k)
  | (some n, k) => (some n, k.setNode n { k.node n with type := .symlink, symlink := target })

end definitions

section memory

/-! With memory these are the functions of the tree. -/

theorem createNode_fed {x : Bool} (h : k.createNode env name x dir = some (n, k')) :
    createNode env k name x dir = (some n, k') := by
  unfold Kernel.createNode at h
  unfold createNode
  cases hk : k.kmalloc env k.nodes.used with
  | mk a k1 =>
    rw [hk] at h
    cases a with
    | none => cases h
    | some m =>
      obtain ⟨htext, h⟩ := Option.ite_none_right_eq_some.mp h
      cases h
      dsimp only
      rw [if_pos htext]

theorem createFileIn_fed (h : Creates env ps dir k r k') : createFileIn env ps dir k = (r, k') := by
  induction h with
  | nil => rfl
  | found hf => rw [createFileIn, hf]
  | made hf hm => rw [createFileIn, hf, createNode_fed hm]
  | blocked hf hd =>
    rw [createFileIn, hf]
    exact if_neg hd
  | down hf hd _ ih =>
    rw [createFileIn, hf]
    exact (if_pos hd).trans ih
  | make hf hm _ ih =>
    rw [createFileIn, hf]
    dsimp only
    rw [createNode_fed hm]
    exact ih

theorem createFilePath_fed (h : k.createFilePath env path = some (r, k')) :
    createFilePath env k path = (r, k') := by
  unfold Kernel.createFilePath at h
  unfold createFilePath
  split at h
  · rename_i hnil
    cases h
    exact if_pos hnil
  · rename_i hne
    rw [if_neg hne]
    exact createFileIn_fed (createFileIn_creates h)

theorem createDirIn_fed (h : Kernel.createDirIn env ps dir k = some (n, k')) :
    createDirIn env ps dir k = (some n, k') := by
  induction ps generalizing dir k with
  | nil =>
    cases h
    rfl
  | cons part ps ih =>
    unfold Kernel.createDirIn at h
    unfold createDirIn
    cases hf : k.findIn dir part with
    | some c =>
      rw [hf] at h
      exact ih h
    | none =>
      rw [hf] at h
      obtain ⟨⟨m, k1⟩, hm, h⟩ := Option.bind_eq_some_iff.mp h
      dsimp only
      rw [createNode_fed hm]
      exact ih h

theorem createDirPath_fed (h : k.createDirPath env path = some (r, k')) :
    createDirPath env k path = (r, k') := by
  unfold Kernel.createDirPath at h
  unfold createDirPath
  split at h
  · rename_i hnil
    cases h
    exact if_pos hnil
  · rename_i hne
    obtain ⟨⟨n, k1⟩, hn, h⟩ := Option.bind_eq_some_iff.mp h
    cases h
    rw [if_neg hne]
    exact createDirIn_fed hn

def Named (env : Env) (k k' : Kernel) : Prop := ∀ i, k.allocs < i → i ≤ k'.allocs → env.texts i

theorem createNode_allocs {x : Bool} (h : createNode env k name x dir = (r, k')) :
    k'.allocs = k.allocs + 1 := by
  unfold createNode at h
  cases hk : k.kmalloc env k.nodes.used with
  | mk a k1 =>
    rw [hk] at h
    obtain ⟨rfl, -⟩ := kmalloc_eq hk
    cases a with
    | none =>
      cases h
      rfl
    | some n =>
      cases h
      rfl

theorem createNode_named {x : Bool} (h : createNode env k name x dir = (some n, k'))
    (ht : env.texts (k.allocs + 1)) : k.createNode env name x dir = some (n, k') := by
  unfold createNode at h
  unfold Kernel.createNode
  cases hk : k.kmalloc env k.nodes.used with
  | mk a k1 =>
    obtain ⟨rfl, -⟩ := kmalloc_eq hk
    rw [hk] at h
    cases a with
    | none => cases h
    | some m =>
      dsimp only at h ⊢
      rw [if_pos ht] at h ⊢
      cases h
      rfl

theorem createFileIn_allocs : k.allocs ≤ (createFileIn env ps dir k).2.allocs := by
  induction ps generalizing dir k with
  | nil => exact Nat.le_refl _
  | cons part ps ih =>
    cases ps with
    | nil =>
      rw [createFileIn]
      cases hf : k.findIn dir part with
      | some c => exact Nat.le_refl _
      | none => exact (Nat.le_succ _).trans (createNode_allocs rfl).ge
    | cons next ps =>
      rw [createFileIn]
      cases hf : k.findIn dir part with
      | some c =>
        dsimp only
        split
        · exact ih
        · exact Nat.le_refl _
      | none =>
        dsimp only
        cases hc : createNode env k part true dir with
        | mk a k1 =>
          have hle : k.allocs ≤ k1.allocs := (Nat.le_succ _).trans (createNode_allocs hc).ge
          cases a with
          | none => exact hle
          | some m => exact hle.trans ih

theorem createDirIn_allocs : k.allocs ≤ (createDirIn env ps dir k).2.allocs := by
  induction ps generalizing dir k with
  | nil => exact Nat.le_refl _
  | cons part ps ih =>
    rw [createDirIn]
    cases hf : k.findIn dir part with
    | some c => exact ih
    | none =>
      dsimp only
      cases hc : createNode env k part true dir with
      | mk a k1 =>
        have hle : k.allocs ≤ k1.allocs := (Nat.le_succ _).trans (createNode_allocs hc).ge
        cases a with
        | none => exact hle
        | some m => exact hle.trans ih

/-- The first node of a call that names all its nodes, and the rest of the call. -/
theorem Named.first {x : Bool} {q : Kernel} (h : Named env k k')
    (hc : createNode env k name x dir = (r, q)) (hle : q.allocs ≤ k'.allocs) :
    env.texts (k.allocs + 1) ∧ Named env q k' := by
  have ha : q.allocs = k.allocs + 1 := createNode_allocs hc
  refine ⟨h _ (Nat.lt_succ_self _) (ha ▸ hle), fun i hi => h i ?_⟩
  omega

/-- A node that comes back with all its names comes back from the tree. -/
theorem createFileIn_named (h : createFileIn env ps dir k = (some n, k')) (hn : Named env k k') :
    Kernel.createFileIn env ps dir k = some (some n, k') := by
  induction ps generalizing dir k with
  | nil => cases h
  | cons part ps ih =>
    cases ps with
    | nil =>
      rw [createFileIn] at h
      rw [Kernel.createFileIn]
      cases hf : k.findIn dir part with
      | some c =>
        rw [hf] at h
        cases h
        rfl
      | none =>
        rw [hf] at h
        dsimp only at h ⊢
        rw [createNode_named h (hn.first h (Nat.le_refl _)).1]
        rfl
    | cons next ps =>
      rw [createFileIn] at h
      rw [Kernel.createFileIn]
      cases hf : k.findIn dir part with
      | some c =>
        rw [hf] at h
        dsimp only at h ⊢
        split at h
        · rename_i hd
          rw [if_pos hd]
          exact ih h hn
        · cases h
      | none =>
        rw [hf] at h
        dsimp only at h ⊢
        cases hc : createNode env k part true dir with
        | mk a k1 =>
          rw [hc] at h
          cases a with
          | none => cases h
          | some m =>
            dsimp only at h
            have hle : k1.allocs ≤ k'.allocs := by
              have hmono : k1.allocs ≤ (createFileIn env (next :: ps) m k1).2.allocs := createFileIn_allocs
              rwa [h] at hmono
            obtain ⟨ht, hrest⟩ := hn.first hc hle
            rw [createNode_named hc ht]
            exact ih h hrest

theorem createDirIn_named (h : createDirIn env ps dir k = (some n, k')) (hn : Named env k k') :
    Kernel.createDirIn env ps dir k = some (n, k') := by
  induction ps generalizing dir k with
  | nil =>
    cases h
    rfl
  | cons part ps ih =>
    rw [createDirIn] at h
    rw [Kernel.createDirIn]
    cases hf : k.findIn dir part with
    | some c =>
      rw [hf] at h
      exact ih h hn
    | none =>
      rw [hf] at h
      dsimp only at h ⊢
      cases hc : createNode env k part true dir with
      | mk a k1 =>
        rw [hc] at h
        cases a with
        | none => cases h
        | some m =>
          dsimp only at h
          have hle : k1.allocs ≤ k'.allocs := by
            have hmono : k1.allocs ≤ (createDirIn env ps m k1).2.allocs := createDirIn_allocs
            rwa [h] at hmono
          obtain ⟨ht, hrest⟩ := hn.first hc hle
          rw [createNode_named hc ht]
          exact ih h hrest

theorem createFilePath_named (h : createFilePath env k path = (some n, k'))
    (hn : Named env k k') : k.createFilePath env path = some (some n, k') := by
  unfold createFilePath at h
  unfold Kernel.createFilePath
  split at h
  · cases h
  · rename_i hne
    rw [if_neg hne]
    exact createFileIn_named h hn

theorem createDirPath_named (h : createDirPath env k path = (some n, k'))
    (hn : Named env k k') : k.createDirPath env path = some (some n, k') := by
  unfold createDirPath at h
  unfold Kernel.createDirPath
  split at h
  · cases h
  · rename_i hne
    rw [if_neg hne, createDirIn_named h hn]
    rfl

end memory

end Full

end LosTacOS.Os.Kernel
