import LosTacOS.Os.Adding

/-! A search on a heap that may be full. It makes nodes only where devfs makes a device on the fly. -/
namespace LosTacOS.Os.Kernel.Full

variable {env : Env} {search tree : Finder} {k k' q : Kernel} {path name : List Char}

section definitions

variable (env) (search)

/-- A device without memory for its node is there all the same; its null node is written to. -/
def createDev (k : Kernel) (name : List Char) (dev : DevOps) : Option (Option Nat × Kernel) := do
  let (dir, k) ← search k "/dev".toList
  match dir with
  | none => some (none, k)
  | some dir =>
    match createNode env k name false dir with
    | (none, k) => some (none, k)
    | (some n, k) => some (some n, k.setNode n { k.node n with dev := some dev, type := .dev })

def makeDevice (k : Kernel) (name : List Char) (ops : Option DevOps) : Option (Bool × Kernel) :=
  match k.kmalloc env ∅ with
  | (none, k) => some (false, k)
  | (some _, k) =>
    let k := { k with devices := (name, ops) :: k.devices }
    match ops with
    | none => some (true, k)
    | some dev => do
      let (_, k) ← createDev env search k name dev
      some (true, k)

def openDevice (k : Kernel) (name : List Char) : Option (Bool × Kernel) :=
  if (k.findDevice name).isSome then some (true, k)
  else if isNumbered "tty" name then
    makeDevice env search k name ((k.findDevice "tty".toList).getD none)
  else if isNumbered "fb" name then do
    let base ← (k.findDevice "fb".toList).orElse fun _ => k.findDevice "fb0".toList
    makeDevice env search k name base
  else some (false, k)

def fsOpen (k : Kernel) (fs : FileSystem) (data : Nat) (path : List Char) :
    Option (Option Nat × Kernel) := do
  let (found, k) ←
    if fs = .devfs then openDevice env search k path else some (env.opens k.handles fs data path, k)
  let result := if found then some k.handles else none
  some (result, { k with handles := k.handles + 1, fsLog := .opened fs data result :: k.fsLog })

def findMounted (k : Kernel) (n : Nat) (part : List Char) (rest : Option (List Char)) :
    Option (Option Nat × Kernel) :=
  match (k.node n).type, (k.node n).filesystem with
  | .mount, some fs =>
    if fs.has .open then do
      let path := relpath part (rest.getD env.beyond)
      if path.length < 256 then
        let (handle, k) ← fsOpen env search k fs (k.node n).mountData path
        match handle with
        | some h => some (some n, k.fsClose fs h)
        | none => some (none, k)
      else none
    else some (none, k)
  | _, _ => some (none, k)

def walkParts : List (List Char × Option (List Char)) → Nat → Kernel → Option (Option Nat × Kernel)
  | [], n, k => some (some n, k)
  | (part, rest) :: ps, n, k =>
    let part := cut part
    if part = [] ∨ part = ['.'] then walkParts ps n k
    else if part = ['.', '.'] then walkParts ps ((k.node n).parent.getD n) k
    else
      match k.findIn n part with
      | none => findMounted env search k n part rest
      | some c => do
        let (next, k) ← followLinks env search 8 c k
        match next with
        | none => some (none, k)
        | some c => walkParts ps c k

end definitions

def findTo (env : Env) : Nat → Finder
  | 0, _, _ => none
  | n + 1, k, path =>
    match path with
    | [] => some (some k.root, k)
    | '/' :: rest => walkParts env (findTo env n) (parts (rest.length + 1) rest) k.root k
    | _ => walkParts env (findTo env n) (parts (path.length + 1) path) k.getProcessCwd k

def find (env : Env) : Finder := findTo env env.fuel

def findOrCreateDir (env : Env) (k : Kernel) (path : List Char) : Option (Option Nat × Kernel) := do
  let (dir, k) ← find env k path
  match dir with
  | some dir => some (some dir, k)
  | none => some (createDirPath env k path)

section memory

/-! With memory this is the search of the tree. -/

def Follows (search tree : Finder) : Prop :=
  ∀ k path r k', tree k path = some (r, k') → search k path = some (r, k')

variable (hs : Follows search tree)
include hs

theorem createDev_fed {dev : DevOps} {r : Option Nat}
    (h : k.createDev env tree name dev = some (r, k')) :
    createDev env search k name dev = some (r, k') := by
  obtain ⟨⟨dir, k1⟩, hd, h⟩ := Option.bind_eq_some_iff.mp h
  unfold createDev
  rw [hs _ _ _ _ hd]
  cases dir with
  | none => exact h
  | some dir =>
    obtain ⟨⟨n, k2⟩, hn, h⟩ := Option.bind_eq_some_iff.mp h
    cases h
    change (match createNode env k1 name false dir with
      | (none, k) => _
      | (some n, k) => _) = _
    rw [createNode_fed hn]

theorem makeDevice_fed {ops : Option DevOps} {r : Bool}
    (h : k.makeDevice env tree name ops = some (r, k')) :
    makeDevice env search k name ops = some (r, k') := by
  unfold Kernel.makeDevice at h
  unfold makeDevice
  cases hk : k.kmalloc env ∅ with
  | mk a k1 =>
    rw [hk] at h
    cases a with
    | none => exact h
    | some a =>
      cases ops with
      | none => exact h
      | some dev =>
        obtain ⟨⟨n, k2⟩, hc, h⟩ := Option.bind_eq_some_iff.mp h
        cases h
        exact Option.bind_eq_some_iff.mpr ⟨_, createDev_fed hs hc, rfl⟩

theorem openDevice_fed {r : Bool} (h : k.openDevice env tree name = some (r, k')) :
    openDevice env search k name = some (r, k') := by
  unfold Kernel.openDevice at h
  unfold openDevice
  split at h
  · rename_i hthere
    rw [if_pos hthere]
    exact h
  · rename_i hthere
    rw [if_neg hthere]
    split at h
    · rename_i htty
      rw [if_pos htty]
      exact makeDevice_fed hs h
    · rename_i htty
      rw [if_neg htty]
      split at h
      · rename_i hfb
        rw [if_pos hfb]
        obtain ⟨base, hbase, h⟩ := Option.bind_eq_some_iff.mp h
        exact Option.bind_eq_some_iff.mpr ⟨base, hbase, makeDevice_fed hs h⟩
      · rename_i hfb
        rw [if_neg hfb]
        exact h

theorem fsOpen_fed {fs : FileSystem} {data : Nat} {r : Option Nat}
    (h : k.fsOpen env tree fs data path = some (r, k')) :
    fsOpen env search k fs data path = some (r, k') := by
  unfold Kernel.fsOpen at h
  unfold fsOpen
  by_cases hdev : fs = .devfs
  · rw [if_pos hdev] at h ⊢
    obtain ⟨⟨found, k1⟩, hf, h⟩ := Option.bind_eq_some_iff.mp h
    exact Option.bind_eq_some_iff.mpr ⟨_, openDevice_fed hs hf, h⟩
  · rw [if_neg hdev] at h ⊢
    exact h

theorem findMounted_fed {n : Nat} {part : List Char} {rest : Option (List Char)} {r : Option Nat}
    (h : k.findMounted env tree n part rest = some (r, k')) :
    findMounted env search k n part rest = some (r, k') := by
  unfold Kernel.findMounted at h
  unfold findMounted
  cases htype : (k.node n).type <;> cases hfs : (k.node n).filesystem <;> rw [htype, hfs] at h
  case mount.some fs =>
    dsimp only at h ⊢
    by_cases hopen : fs.has .open = true
    · rw [if_pos hopen] at h ⊢
      by_cases hlen : (relpath part (rest.getD env.beyond)).length < 256
      · rw [if_pos hlen] at h ⊢
        obtain ⟨⟨handle, k1⟩, ho, h⟩ := Option.bind_eq_some_iff.mp h
        exact Option.bind_eq_some_iff.mpr ⟨_, fsOpen_fed hs ho, h⟩
      · rw [if_neg hlen] at h
        cases h
    · rw [if_neg hopen] at h ⊢
      exact h
  all_goals exact h

theorem followLinks_fed {depth n : Nat} {r : Option Nat}
    (h : followLinks env tree depth n k = some (r, k')) :
    followLinks env search depth n k = some (r, k') := by
  induction depth generalizing n k with
  | zero => exact h
  | succ depth ih =>
    unfold followLinks at h ⊢
    split at h
    · rename_i hlink
      obtain ⟨target, ht, h⟩ := Option.bind_eq_some_iff.mp h
      obtain ⟨⟨next, k1⟩, hn, h⟩ := Option.bind_eq_some_iff.mp h
      rw [if_pos hlink]
      refine Option.bind_eq_some_iff.mpr ⟨target, ht, Option.bind_eq_some_iff.mpr ⟨_, hs _ _ _ _ hn, ?_⟩⟩
      cases next with
      | none => exact h
      | some m => exact ih h
    · rename_i hlink
      rw [if_neg hlink]
      exact h

theorem walkParts_fed {ps : List (List Char × Option (List Char))} {n : Nat} {r : Option Nat}
    (h : Kernel.walkParts env tree ps n k = some (r, k')) :
    walkParts env search ps n k = some (r, k') := by
  induction ps generalizing n k with
  | nil => exact h
  | cons p ps ih =>
    unfold Kernel.walkParts at h
    unfold walkParts
    dsimp only at h ⊢
    split at h
    · rename_i hskip
      rw [if_pos hskip]
      exact ih h
    · rename_i hskip
      rw [if_neg hskip]
      split at h
      · rename_i hup
        rw [if_pos hup]
        exact ih h
      · rename_i hup
        rw [if_neg hup]
        cases hc : k.findIn n (cut p.1) with
        | none =>
          rw [hc] at h
          exact findMounted_fed hs h
        | some c =>
          rw [hc] at h
          obtain ⟨⟨next, k1⟩, hl, h⟩ := Option.bind_eq_some_iff.mp h
          refine Option.bind_eq_some_iff.mpr ⟨_, followLinks_fed hs hl, ?_⟩
          cases next with
          | none => exact h
          | some m => exact ih h

omit hs

theorem findTo_fed (env : Env) (n : Nat) : Follows (findTo env n) (Kernel.findTo env n) := by
  induction n with
  | zero => exact fun _ _ _ _ h => nomatch h
  | succ n ih =>
    intro k path r k' h
    cases path with
    | nil => exact h
    | cons c text =>
      by_cases hc : c = '/'
      · subst hc
        exact walkParts_fed ih h
      · rw [findTo_names hc] at h
        rw [findTo]
        · exact walkParts_fed ih h
        · exact nofun
        · exact fun _ he => hc (List.cons.inj he).1

/-- What a search of the tree does is what it does on a heap that may be full. -/
theorem find_fed {r : Option Nat} (h : k.find env path = some (r, k')) :
    find env k path = some (r, k') :=
  findTo_fed env env.fuel k path r k' h

theorem findOrCreateDir_fed {r : Option Nat} (h : k.findOrCreateDir env path = some (r, k')) :
    findOrCreateDir env k path = some (r, k') := by
  obtain ⟨⟨dir, k1⟩, hd, h⟩ := Option.bind_eq_some_iff.mp h
  refine Option.bind_eq_some_iff.mpr ⟨_, find_fed hd, ?_⟩
  cases dir with
  | some dir => exact h
  | none => exact congrArg some (createDirPath_fed h)

end memory

section sought

structure Sought (k q : Kernel) : Prop where
  used : k.nodes.used ⊆ q.nodes.used
  node : q.nodes.used = k.nodes.used → ∀ n, q.node n = k.node n ∨
    q.node n = { k.node n with children := [] }
  table : q.mountTable = k.mountTable
  mounts : q.mounts = k.mounts

namespace Sought

theorem same (hn : q.nodes = k.nodes) (ht : q.mountTable = k.mountTable)
    (hm : q.mounts = k.mounts) : Sought k q := by
  refine ⟨by rw [hn], fun _ n => Or.inl ?_, ht, hm⟩
  rw [Kernel.node, hn]
  rfl

theorem trans {q' : Kernel} (h : Sought k q) (h' : Sought q q') : Sought k q' := by
  refine ⟨h.used.trans h'.used, fun he n => ?_, h'.table.trans h.table, h'.mounts.trans h.mounts⟩
  have hq : q.nodes.used = k.nodes.used := Finset.Subset.antisymm (he ▸ h'.used) h.used
  have hcell := h.node hq n
  obtain h1 | h1 := h'.node (he.trans hq.symm) n
  · rw [h1]
    exact hcell
  · obtain h2 | h2 := hcell
    all_goals
      rw [h1, h2]
      exact Or.inr rfl

theorem after {k1 : Kernel} (h : Sought k1 q) (hn : k1.nodes = k.nodes)
    (ht : k1.mountTable = k.mountTable) (hm : k1.mounts = k.mounts) : Sought k q :=
  (same hn ht hm).trans h

theorem made {n : Nat} (hn : n ∉ k.nodes.used) (hu : q.nodes.used = insert n k.nodes.used)
    (ht : q.mountTable = k.mountTable) (hm : q.mounts = k.mounts) : Sought k q := by
  refine ⟨by rw [hu]; exact Finset.subset_insert _ _, fun he => ?_, ht, hm⟩
  rw [hu] at he
  exact absurd (Finset.insert_eq_self.mp he) hn

theorem emptied (k : Kernel) (dir : Nat) : Sought k (emptied k dir) := by
  refine ⟨fun _ hn => hn, fun _ n => ?_, rfl, rfl⟩
  rw [Full.emptied, setNode_node]
  split
  · rename_i he
    exact Or.inr (he ▸ rfl)
  · exact Or.inl rfl

theorem nodes_ext (hu : q.nodes.used = k.nodes.used) (hn : ∀ n, q.node n = k.node n) :
    q.nodes = k.nodes :=
  congrArg₂ Arena.mk (funext hn) hu

/-- What the first part of a call has changed the rest does not bring back. -/
theorem nodes_eq {q' : Kernel} (h : Sought k q) (h' : Sought q q') (he : q'.nodes = k.nodes) :
    q.nodes = k.nodes := by
  have hused : q'.nodes.used = k.nodes.used := congrArg Arena.used he
  have hq : q.nodes.used = k.nodes.used := Finset.Subset.antisymm (hused ▸ h'.used) h.used
  refine nodes_ext hq fun n => ?_
  have hcell : q'.node n = k.node n := by
    rw [Kernel.node, he]
    rfl
  obtain h1 | h1 := h.node hq n
  · exact h1
  · obtain h2 | h2 := h'.node (hused.trans hq.symm) n
    · rw [← h2, hcell]
    · rw [h1, ← hcell, h2, h1]

theorem createNode (env : Env) (k : Kernel) (name : List Char) (x : Bool) (dir : Nat) :
    Sought k (Full.createNode env k name x dir).2 := by
  unfold Full.createNode
  cases hk : k.kmalloc env k.nodes.used with
  | mk a k1 =>
    obtain ⟨rfl, hfresh⟩ := kmalloc_eq hk
    cases a with
    | none => exact emptied k dir
    | some n => exact made (hfresh n rfl) rfl rfl rfl

theorem createDirIn {ps : List (List Char)} {dir : Nat} :
    Sought k (Full.createDirIn env ps dir k).2 := by
  induction ps generalizing dir k with
  | nil => exact same rfl rfl rfl
  | cons part ps ih =>
    rw [Full.createDirIn]
    cases hf : k.findIn dir part with
    | some c => exact ih
    | none =>
      have hmade := createNode env k part true dir
      dsimp only
      cases hc : Full.createNode env k part true dir with
      | mk a k1 =>
        rw [hc] at hmade
        cases a with
        | none => exact hmade
        | some m => exact hmade.trans ih

theorem createDirPath : Sought k (Full.createDirPath env k path).2 := by
  rw [createDirPath_snd]
  exact createDirIn

end Sought

def Seeks (search : Finder) : Prop :=
  ∀ k path r q, search k path = some (r, q) → Sought k q

variable (hs : Seeks search)
include hs

theorem Seeks.createDev {dev : DevOps} {r : Option Nat}
    (h : createDev env search k name dev = some (r, q)) : Sought k q := by
  obtain ⟨⟨dir, k1⟩, hd, h⟩ := Option.bind_eq_some_iff.mp h
  have h1 := hs _ _ _ _ hd
  cases dir with
  | none =>
    cases h
    exact h1
  | some dir =>
    have hmade := Sought.createNode env k1 name false dir
    dsimp only at h
    cases hc : Full.createNode env k1 name false dir with
    | mk a k2 =>
      rw [hc] at h hmade
      cases a with
      | none =>
        cases h
        exact h1.trans hmade
      | some n =>
        cases h
        unfold Full.createNode at hc
        cases hk : k1.kmalloc env k1.nodes.used with
        | mk b k3 =>
          obtain ⟨rfl, hfresh⟩ := kmalloc_eq hk
          rw [hk] at hc
          cases b with
          | none => cases hc
          | some m =>
            cases hc
            exact h1.trans (.made (hfresh n rfl) rfl rfl rfl)

theorem Seeks.makeDevice {ops : Option DevOps} {r : Bool}
    (h : makeDevice env search k name ops = some (r, q)) : Sought k q := by
  unfold Full.makeDevice at h
  cases hk : k.kmalloc env ∅ with
  | mk a k1 =>
    rw [hk] at h
    obtain ⟨rfl, -⟩ := kmalloc_eq hk
    cases a with
    | none =>
      cases h
      exact .same rfl rfl rfl
    | some a =>
      cases ops with
      | none =>
        cases h
        exact .same rfl rfl rfl
      | some dev =>
        obtain ⟨⟨n, k2⟩, hc, h⟩ := Option.bind_eq_some_iff.mp h
        cases h
        exact (hs.createDev hc).after rfl rfl rfl

theorem Seeks.openDevice {r : Bool} (h : openDevice env search k name = some (r, q)) :
    Sought k q := by
  unfold Full.openDevice at h
  split_ifs at h
  · cases h
    exact .same rfl rfl rfl
  · exact hs.makeDevice h
  · obtain ⟨base, -, h⟩ := Option.bind_eq_some_iff.mp h
    exact hs.makeDevice h
  · cases h
    exact .same rfl rfl rfl

theorem Seeks.fsOpen {fs : FileSystem} {data : Nat} {r : Option Nat}
    (h : fsOpen env search k fs data path = some (r, q)) : Sought k q := by
  unfold Full.fsOpen at h
  by_cases hdev : fs = .devfs
  · rw [if_pos hdev] at h
    obtain ⟨⟨found, k1⟩, hf, h⟩ := Option.bind_eq_some_iff.mp h
    cases h
    exact (hs.openDevice hf).trans (.same rfl rfl rfl)
  · rw [if_neg hdev] at h
    cases h
    exact .same rfl rfl rfl

theorem Seeks.findMounted {n : Nat} {part : List Char} {rest : Option (List Char)} {r : Option Nat}
    (h : findMounted env search k n part rest = some (r, q)) : Sought k q := by
  unfold Full.findMounted at h
  split at h
  · split at h
    · dsimp only at h
      split at h
      · obtain ⟨⟨handle, k1⟩, ho, h⟩ := Option.bind_eq_some_iff.mp h
        have h1 := hs.fsOpen ho
        cases handle with
        | none =>
          cases h
          exact h1
        | some x =>
          cases h
          exact h1.trans (.same rfl rfl rfl)
      · cases h
    · cases h
      exact .same rfl rfl rfl
  · cases h
    exact .same rfl rfl rfl

theorem Seeks.followLinks {depth n : Nat} {r : Option Nat}
    (h : followLinks env search depth n k = some (r, q)) : Sought k q := by
  induction depth generalizing n k with
  | zero =>
    unfold Kernel.followLinks at h
    split at h
    all_goals
      cases h
      exact .same rfl rfl rfl
  | succ depth ih =>
    unfold Kernel.followLinks at h
    split at h
    · obtain ⟨target, -, h⟩ := Option.bind_eq_some_iff.mp h
      obtain ⟨⟨next, k1⟩, hn, h⟩ := Option.bind_eq_some_iff.mp h
      have h1 := hs _ _ _ _ hn
      cases next with
      | none =>
        cases h
        exact h1
      | some m => exact h1.trans (ih h)
    · cases h
      exact .same rfl rfl rfl

theorem Seeks.walkParts {ps : List (List Char × Option (List Char))} {n : Nat} {r : Option Nat}
    (h : walkParts env search ps n k = some (r, q)) : Sought k q := by
  induction ps generalizing n k with
  | nil =>
    cases h
    exact .same rfl rfl rfl
  | cons p ps ih =>
    unfold Full.walkParts at h
    dsimp only at h
    split at h
    · exact ih h
    · split at h
      · exact ih h
      · split at h
        · exact hs.findMounted h
        · obtain ⟨⟨next, k1⟩, hl, h⟩ := Option.bind_eq_some_iff.mp h
          have h1 := hs.followLinks hl
          cases next with
          | none =>
            cases h
            exact h1
          | some m => exact h1.trans (ih h)

omit hs

theorem seeks_findTo (env : Env) (n : Nat) : Seeks (findTo env n) := by
  induction n with
  | zero => exact fun _ _ _ _ h => nomatch h
  | succ n ih =>
    intro k path r q h
    unfold findTo at h
    split at h
    · cases h
      exact .same rfl rfl rfl
    · exact ih.walkParts h
    · exact ih.walkParts h

theorem find_sought {r : Option Nat} (h : find env k path = some (r, q)) : Sought k q :=
  seeks_findTo env env.fuel k path r q h

theorem findOrCreateDir_sought {r : Option Nat} (h : findOrCreateDir env k path = some (r, q)) :
    Sought k q := by
  obtain ⟨⟨dir, k1⟩, hd, h⟩ := Option.bind_eq_some_iff.mp h
  have h1 := find_sought hd
  cases dir with
  | some dir =>
    cases h
    exact h1
  | none =>
    have h2 := @Sought.createDirPath env k1 path
    rw [Option.some.inj h] at h2
    exact h1.trans h2

end sought

section untouched

/-- The search changes no node and `create_dir_path`, if it is called, makes none: at most it is
refused the first one of an empty directory. -/
def Untouched (env : Env) (k : Kernel) (path : List Char) : Prop :=
  ∃ node q, find env k path = some (node, q) ∧ q.nodes = k.nodes ∧
    (node = none → ∀ d, dirGap q (components path) (q.startDir path) = some d →
      (q.kmalloc env q.nodes.used).1 = none ∧ (q.node d).children = [])

theorem emptied_nodes_iff {dir : Nat} :
    (emptied k dir).nodes = k.nodes ↔ (k.node dir).children = [] := by
  constructor
  · intro h
    have hcell : (emptied k dir).node dir = k.node dir := by
      rw [node, h]
      rfl
    rw [emptied, setNode_node, if_pos rfl] at hcell
    exact (congrArg Node.children hcell).symm
  · intro h
    refine Sought.nodes_ext rfl fun n => ?_
    rw [emptied, setNode_node]
    split
    · rename_i he
      rw [he, ← h]
    · rfl

theorem createDirPath_nodes_iff : (createDirPath env k path).2.nodes = k.nodes ↔
    ∀ d, dirGap k (components path) (k.startDir path) = some d →
      (k.kmalloc env k.nodes.used).1 = none ∧ (k.node d).children = [] := by
  rw [createDirPath_snd]
  cases hg : dirGap k (components path) (k.startDir path) with
  | none =>
    rw [createDirIn_whole hg]
    exact ⟨fun _ _ => nofun, fun _ => rfl⟩
  | some d =>
    obtain ⟨part, rest, hf, hjump⟩ := @createDirIn_jump env _ _ _ _ hg
    rw [hjump, createDirIn, hf]
    dsimp only
    obtain ⟨hm, hc⟩ | ⟨n, k1, hm, hc, hmade⟩ := createNode_cases env k part true d
    · rw [hc]
      dsimp only
      rw [emptied_nodes_iff]
      refine ⟨fun h d' he => ?_, fun h => (h d rfl).2⟩
      cases he
      exact ⟨hm, h⟩
    · rw [hc]
      refine ⟨fun h => ?_, fun h => ?_⟩
      · have hin : n ∈ k1.nodes.used := hmade.used
        have hrest := (@Sought.createDirIn env k1 rest n).used hin
        rw [h] at hrest
        exact absurd hrest hmade.fresh
      · cases hm.symm.trans (h d rfl).1

theorem untouched_iff {node : Option Nat} (h : findOrCreateDir env k path = some (node, q)) :
    q.nodes = k.nodes ↔ Untouched env k path := by
  obtain ⟨⟨dir, k1⟩, hd, h⟩ := Option.bind_eq_some_iff.mp h
  have h1 := find_sought hd
  cases dir with
  | some dir =>
    cases h
    constructor
    · exact fun he => ⟨some dir, q, hd, he, nofun⟩
    · rintro ⟨node, q', hd', he, -⟩
      cases hd.symm.trans hd'
      exact he
  | none =>
    have h2 := @Sought.createDirPath env k1 path
    have hiff := @createDirPath_nodes_iff env k1 path
    rw [Option.some.inj h] at h2 hiff
    constructor
    · intro he
      have he1 := h1.nodes_eq h2 he
      exact ⟨none, k1, hd, he1, fun _ => hiff.mp (he.trans he1.symm)⟩
    · rintro ⟨node, q', hd', he, hgap⟩
      cases hd.symm.trans hd'
      exact (hiff.mpr (hgap rfl)).trans he

end untouched

end LosTacOS.Os.Kernel.Full
