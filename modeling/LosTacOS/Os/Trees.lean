import LosTacOS.Os.Search

/-! What the calls on the tree and on mounts can do to the kernel. They search, create nodes and
change them in a few places; one rule covers every property that these few steps keep. -/
namespace LosTacOS.Os.Kernel

variable {env : Env} {I : Kernel → Prop} {R : Kernel → Kernel → Prop} {V : Kernel → Nat → Prop}
  {G : Kernel → Option FileSystem → Nat → Prop}

def newNode (k : Kernel) (name : List Char) (directory : Bool) (dir : Nat) : Node where
  name := name
  directory := directory
  type := if directory then .dir else .file
  parent := some dir
  children := []
  symlink := []
  filesystem := (k.node dir).filesystem
  mountData := (k.node dir).mountData
  file := none
  dev := none

theorem setNode_node (k : Kernel) (n m : Nat) (x : Node) :
    (k.setNode n x).node m = if m = n then x else k.node m := Arena.set_cell ..

/-- The nodes after `create_node`: the new one, and its parent with one more child. -/
theorem linkNew_node (k : Kernel) (n dir m : Nat) (name : List Char) (d : Bool) :
    (k.linkNew n name d dir).node m =
      let old := fun x => if x = n then k.newNode name d dir else k.node x
      if m = dir then { old dir with children := n :: (old dir).children } else old m := by
  have hold : ∀ x, (Arena.cell (k.nodes.alloc n (k.newNode name d dir)) x) =
      if x = n then k.newNode name d dir else k.node x := fun x => Arena.alloc_cell ..
  change Arena.cell ((k.nodes.alloc n (k.newNode name d dir)).set dir
    { (k.nodes.alloc n (k.newNode name d dir)).cell dir with
      children := n :: ((k.nodes.alloc n (k.newNode name d dir)).cell dir).children }) m = _
  rw [Arena.set_cell]
  simp only [hold]

def asLink (k : Kernel) (n : Nat) (target : List Char) : Kernel :=
  k.setNode n { k.node n with type := .symlink, symlink := target }

def asMount (k : Kernel) (n : Nat) (fs : Option FileSystem) (data : Nat) : Kernel :=
  k.setNode n { k.node n with type := .mount, filesystem := fs, mountData := data }

def asDir (k : Kernel) (n : Nat) : Kernel :=
  k.setNode n { k.node n with type := .dir, filesystem := none, mountData := 0 }

def withFile (k : Kernel) (n f : Nat) : Kernel := k.setNode n { k.node n with file := some f }

def takeOut (k : Kernel) (n parent : Nat) : Kernel :=
  let k := k.setNode parent { k.node parent with children := (k.node parent).children.erase n }
  { k with nodes := k.nodes.free n }

def enter (k : Kernel) (m : Nat) (mnt : Mount) : Kernel :=
  { k with mounts := k.mounts.alloc m mnt, mountTable := m :: k.mountTable }

def dropFile (k : Kernel) (n : Nat) : Kernel :=
  match (k.node n).directory, (k.node n).file with
  | false, some f => k.freeFile f
  | _, _ => k

theorem dropFile_rest (k : Kernel) (n : Nat) :
    ∃ files blocks freed, k.dropFile n = { k with files, blocks, freed } := by
  unfold dropFile
  split
  · unfold freeFile
    split
    · exact ⟨_, _, _, rfl⟩
    · exact ⟨_, k.blocks, k.freed, rfl⟩
  · exact ⟨k.files, k.blocks, k.freed, rfl⟩

/-- What `remove` does: it finds a node, takes it out and drops its file, or it only finds. -/
theorem remove_cases {k k' : Kernel} {path : List Char} {r : Bool}
    (h : k.remove env path = some (r, k')) : ∃ node q, k.find env path = some (node, q) ∧
      (k' = q ∨ ∃ n parent, node = some n ∧ n ≠ q.root ∧
        ¬((q.node n).directory = true ∧ (q.node n).children ≠ []) ∧
        (q.node n).parent = some parent ∧
        k' = { q.dropFile n with nodes := (q.takeOut n parent).nodes }) := by
  obtain ⟨⟨node, q⟩, h1, h⟩ := Option.bind_eq_some_iff.mp h
  refine ⟨node, q, h1, ?_⟩
  cases node with
  | none =>
    cases h
    exact Or.inl rfl
  | some n =>
    dsimp only at h
    split at h
    · cases h
      exact Or.inl rfl
    · rename_i hno
      push Not at hno
      obtain ⟨parent, hp, h⟩ := Option.bind_eq_some_iff.mp h
      refine Or.inr ⟨n, parent, rfl, hno.1, fun hh => hh.2 (hno.2 hh.1), hp, ?_⟩
      -- the parent changes in its children only, even if it were the node itself
      have hnode : ∀ cs, ((q.setNode parent { q.node parent with children := cs }).node n).directory =
          (q.node n).directory ∧
          ((q.setNode parent { q.node parent with children := cs }).node n).file = (q.node n).file := by
        intro cs
        rw [setNode_node]
        split
        · rename_i hnp
          rw [hnp]
          exact ⟨rfl, rfl⟩
        · exact ⟨rfl, rfl⟩
      obtain ⟨hd, hf⟩ := hnode ((q.node parent).children.erase n)
      unfold dropFile
      obtain ⟨-, h⟩ := Option.ite_none_right_eq_some.mp h
      rw [hd, hf] at h
      cases hdir : (q.node n).directory with
      | true =>
        rw [hdir] at h
        cases h
        rfl
      | false =>
        rw [hdir] at h
        cases hfile : (q.node n).file with
        | none =>
          rw [hfile] at h
          cases h
          rfl
        | some f =>
          rw [hfile] at h
          cases h
          dsimp only
          unfold freeFile
          cases hdata : (q.files.cell f).privateData with
          | none =>
            have hdata' : ((q.setNode parent { q.node parent with
                children := (q.node parent).children.erase n }).files.cell f).privateData = none :=
              hdata
            simp only [hdata']
            rfl
          | some p =>
            have hdata' : ((q.setNode parent { q.node parent with
                children := (q.node parent).children.erase n }).files.cell f).privateData = some p :=
              hdata
            simp only [hdata']
            rfl

/-- What `umount` does: nothing, or the mount leaves the table, its node may become a directory, and
the record is given back. -/
theorem umount_cases {k k' : Kernel} {path : List Char} {r : Bool}
    (h : k.umount env path = some (r, k')) : k' = k ∨ ∃ m node q q',
      k.mountTable.find? (fun m => (k.mounts.cell m).path = path) = some m ∧
      { k with mountTable := k.mountTable.erase m }.find env path = some (node, q) ∧
      (q' = q ∨ ∃ n, node = some n ∧ q' = q.asDir n) ∧
      k' = { q' with mounts := q'.mounts.free m } := by
  unfold umount at h
  split at h
  · cases h
    exact Or.inl rfl
  · rename_i m hm
    obtain ⟨⟨node, q⟩, h1, h⟩ := Option.bind_eq_some_iff.mp h
    obtain ⟨-, h⟩ := Option.ite_none_right_eq_some.mp h
    cases h
    cases node with
    | none => exact Or.inr ⟨m, none, q, q, hm, h1, Or.inl rfl, rfl⟩
    | some n =>
      dsimp only
      split
      · exact Or.inr ⟨m, some n, q, q.asDir n, hm, h1, Or.inr ⟨n, rfl, rfl⟩, rfl⟩
      · exact Or.inr ⟨m, some n, q, q, hm, h1, Or.inl rfl, rfl⟩

/-- What `create_file_path` does with the components of a path. A directory is made for each that
is missing but the last, and it ends where a file stands in the way. -/
inductive Creates (env : Env) :
    List (List Char) → Nat → Kernel → Option Nat → Kernel → Prop
  | nil {dir k} : Creates env [] dir k none k
  | found {part dir k n} : k.findIn dir part = some n → Creates env [part] dir k (some n) k
  | made {part dir k n k'} : k.findIn dir part = none →
      k.createNode env part false dir = some (n, k') → Creates env [part] dir k (some n) k'
  | blocked {part next ps dir k n} : k.findIn dir part = some n →
      (k.node n).directory ≠ true → Creates env (part :: next :: ps) dir k none k
  | down {part next ps dir k n r k'} : k.findIn dir part = some n →
      (k.node n).directory = true → Creates env (next :: ps) n k r k' →
      Creates env (part :: next :: ps) dir k r k'
  | make {part next ps dir k n k1 r k'} : k.findIn dir part = none →
      k.createNode env part true dir = some (n, k1) → Creates env (next :: ps) n k1 r k' →
      Creates env (part :: next :: ps) dir k r k'

theorem createFileIn_creates {ps : List (List Char)} {dir : Nat} {k k' : Kernel} {r : Option Nat}
    (h : createFileIn env ps dir k = some (r, k')) : Creates env ps dir k r k' := by
  induction ps generalizing dir k with
  | nil =>
    cases h
    exact .nil
  | cons part ps ih =>
    cases ps with
    | nil =>
      rw [createFileIn] at h
      cases hf : k.findIn dir part with
      | some n =>
        rw [hf] at h
        cases h
        exact .found hf
      | none =>
        rw [hf] at h
        obtain ⟨⟨n, k1⟩, hn, h⟩ := Option.bind_eq_some_iff.mp h
        cases h
        exact .made hf hn
    | cons next ps =>
      rw [createFileIn] at h
      cases hf : k.findIn dir part with
      | some n =>
        rw [hf] at h
        dsimp only at h
        by_cases hd : (k.node n).directory = true
        · rw [if_pos hd] at h
          exact .down hf hd (ih h)
        · rw [if_neg hd] at h
          cases h
          exact .blocked hf hd
      | none =>
        rw [hf] at h
        obtain ⟨⟨n, k1⟩, hn, h⟩ := Option.bind_eq_some_iff.mp h
        exact .make hf hn (ih h)

/-- `I`, `R` and `V` as for a search, for calls that also create nodes. -/
structure GrowRule (env : Env) (I : Kernel → Prop) (R : Kernel → Kernel → Prop)
    (V : Kernel → Nat → Prop) : Prop extends SearchRule env (fun _ _ _ => True) I R V where
  create : ∀ {k name d dir n k'}, I k → V k dir → k.createNode env name d dir = some (n, k') →
    I k' ∧ R k k' ∧ V k' n

/-- `G` holds of the file systems and data that may be mounted. -/
structure NodeRule (env : Env) (I : Kernel → Prop) (R : Kernel → Kernel → Prop)
    (V : Kernel → Nat → Prop) (G : Kernel → Option FileSystem → Nat → Prop) : Prop
    extends GrowRule env I R V where
  link : ∀ {k n} target, I k → V k n → I (k.asLink n target) ∧ R k (k.asLink n target)
  carry : ∀ {k k' fs data}, R k k' → G k fs data → G k' fs data
  null : ∀ {k fs}, G k fs 0
  volume : ∀ {k} fs v, I k → I { k with volumes := (fs, v) :: k.volumes } ∧
    R k { k with volumes := (fs, v) :: k.volumes } ∧
      G { k with volumes := (fs, v) :: k.volumes } (some fs) v
  retype : ∀ {k n fs data}, I k → V k n → G k fs data →
    I (k.asMount n fs data) ∧ R k (k.asMount n fs data)
  table : ∀ {k m mnt}, I k → m ∉ k.mounts.used → G k mnt.fs mnt.data →
    I (k.enter m mnt) ∧ R k (k.enter m mnt)

structure TreeRule (env : Env) (I : Kernel → Prop) (R : Kernel → Kernel → Prop)
    (V : Kernel → Nat → Prop) (G : Kernel → Option FileSystem → Nat → Prop) : Prop
    extends NodeRule env I R V G where
  file : ∀ {k n} f, I k → V k n → I (k.withFile n f) ∧ R k (k.withFile n f)
  data : ∀ {k : Kernel} (files blocks blockLen freed allocs), I k →
    I { k with files, blocks, blockLen, freed, allocs } ∧
      R k { k with files, blocks, blockLen, freed, allocs }

namespace GrowRule

variable (T : GrowRule env I R V) {k k' : Kernel}
include T

theorem find {path : List Char} {r : Option Nat} (hi : I k) (hf : k.find env path = some (r, k')) :
    I k' ∧ R k k' ∧ ∀ n, r = some n → V k' n :=
  T.toSearchRule.find hi (findToOk_true (fun _ _ _ => trivial) env.fuel k path) hf

theorem search : (Kernel.find env).Follows (fun _ _ => True) I R V := fun hi _ hf => T.find hi hf

theorem registerDevice {name : List Char} {dev : DevOps} (hi : I k)
    (hr : k.registerDevice env (Kernel.find env) name dev = some k') : I k' ∧ R k k' :=
  T.toSearchRule.registerDevice T.search hi
    (makeDeviceOk_true (fun _ _ _ => trivial) (fun _ _ => trivial) name _) hr

theorem fsOpen {fs : FileSystem} {data : Nat} {path : List Char} {r : Option Nat} (hi : I k)
    (ho : k.fsOpen env (Kernel.find env) fs data path = some (r, k')) :
    ∃ k1 found, I k1 ∧ R k k1 ∧ r = (if found then some k1.handles else none) ∧
      k' = k1.opened fs data found :=
  T.toSearchRule.fsOpen T.search hi
    (fun _ => openDeviceOk_true (fun _ _ _ => trivial) (fun _ _ => trivial) path) ho

section create

theorem createFileIn {ps : List (List Char)} {dir : Nat} {r : Option Nat} (hi : I k)
    (hv : V k dir) (hc : Kernel.createFileIn env ps dir k = some (r, k')) :
    I k' ∧ R k k' ∧ ∀ n, r = some n → V k' n := by
  replace hc := createFileIn_creates hc
  induction hc with
  | nil => exact ⟨hi, T.refl _, nofun⟩
  | found hf =>
    refine ⟨hi, T.refl _, fun m hm => ?_⟩
    cases hm
    exact T.child hi hv hf
  | made _ hn =>
    obtain ⟨h1, h2, h3⟩ := T.create hi hv hn
    refine ⟨h1, h2, fun m hm => ?_⟩
    cases hm
    exact h3
  | blocked => exact ⟨hi, T.refl _, nofun⟩
  | down hf _ _ ih => exact ih hi (T.child hi hv hf)
  | make _ hn _ ih =>
    obtain ⟨h1, h2, h3⟩ := T.create hi hv hn
    obtain ⟨h4, h5, h6⟩ := ih h1 h3
    exact ⟨h4, T.trans h2 h5, h6⟩

theorem startDir (hi : I k) (path : List Char) : V k (k.startDir path) := by
  unfold Kernel.startDir
  split
  · exact T.root hi
  · exact T.cwd hi

theorem createFilePath {path : List Char} {r : Option Nat} (hi : I k)
    (hc : k.createFilePath env path = some (r, k')) : I k' ∧ R k k' ∧ ∀ n, r = some n → V k' n := by
  unfold Kernel.createFilePath at hc
  split at hc
  · cases hc
    exact ⟨hi, T.refl _, nofun⟩
  · exact T.createFileIn hi (T.startDir hi path) hc

theorem createDirIn {ps : List (List Char)} {dir n : Nat} (hi : I k) (hv : V k dir)
    (hc : Kernel.createDirIn env ps dir k = some (n, k')) : I k' ∧ R k k' ∧ V k' n := by
  induction ps generalizing dir k with
  | nil =>
    cases hc
    exact ⟨hi, T.refl _, hv⟩
  | cons part ps ih =>
    unfold Kernel.createDirIn at hc
    split at hc
    · rename_i c hc'
      exact ih hi (T.child hi hv hc') hc
    · obtain ⟨⟨c, k1⟩, h1, h2⟩ := Option.bind_eq_some_iff.mp hc
      obtain ⟨h3, h4, h5⟩ := T.create hi hv h1
      obtain ⟨h6, h7, h8⟩ := ih h3 h5 h2
      exact ⟨h6, T.trans h4 h7, h8⟩

theorem createDirPath {path : List Char} {r : Option Nat} (hi : I k)
    (hc : k.createDirPath env path = some (r, k')) : I k' ∧ R k k' ∧ ∀ n, r = some n → V k' n := by
  unfold Kernel.createDirPath at hc
  split at hc
  · cases hc
    exact ⟨hi, T.refl _, nofun⟩
  · obtain ⟨⟨n, k1⟩, h1, h2⟩ := Option.bind_eq_some_iff.mp hc
    cases h2
    obtain ⟨h3, h4, h5⟩ := T.createDirIn hi (T.startDir hi path) h1
    refine ⟨h3, h4, fun m hm => ?_⟩
    cases hm
    exact h5

theorem createNodes {dir : Nat} {names : List (String × Bool)} (hi : I k) (hv : V k dir)
    (hc : k.createNodes env dir names = some k') : I k' ∧ R k k' := by
  induction names generalizing k with
  | nil =>
    cases hc
    exact ⟨hi, T.refl _⟩
  | cons x names ih =>
    obtain ⟨⟨n, k1⟩, h1, h2⟩ := Option.bind_eq_some_iff.mp hc
    obtain ⟨h3, h4, _⟩ := T.create hi hv h1
    obtain ⟨h5, h6⟩ := ih h3 (T.keep h4 hv) h2
    exact ⟨h5, T.trans h4 h6⟩

theorem findOrCreateDir {path : List Char} {r : Option Nat} (hi : I k)
    (hf : k.findOrCreateDir env path = some (r, k')) : I k' ∧ R k k' ∧ ∀ n, r = some n → V k' n := by
  obtain ⟨⟨dir, k1⟩, h1, h2⟩ := Option.bind_eq_some_iff.mp hf
  obtain ⟨h3, h4, h5⟩ := T.find hi h1
  cases dir with
  | none =>
    obtain ⟨h6, h7, h8⟩ := T.createDirPath h3 h2
    exact ⟨h6, T.trans h4 h7, h8⟩
  | some n =>
    cases h2
    exact ⟨h3, h4, h5⟩

end create

section init

theorem procfsInit {r : Bool} (hi : I k) (hp : k.procfsInit env = some (r, k')) : I k' ∧ R k k' := by
  obtain ⟨⟨dir, k1⟩, h1, h2⟩ := Option.bind_eq_some_iff.mp hp
  obtain ⟨h3, h4, h5⟩ := T.find hi h1
  cases dir with
  | none =>
    cases h2
    exact ⟨h3, h4⟩
  | some n =>
    obtain ⟨k2, h6, h7⟩ := Option.bind_eq_some_iff.mp h2
    cases h7
    obtain ⟨h8, h9⟩ := T.createNodes h3 (h5 n rfl) h6
    exact ⟨h8, T.trans h4 h9⟩

theorem sysfsNodes {sys : Nat} {r : Bool} (hi : I k) (hv : V k sys)
    (hs : k.sysfsNodes env sys = some (r, k')) : I k' ∧ R k k' := by
  obtain ⟨⟨kernel, k1⟩, h1, hs⟩ := Option.bind_eq_some_iff.mp hs
  obtain ⟨i1, r1, v1⟩ := T.create hi hv h1
  obtain ⟨⟨firmware, k2⟩, h2, hs⟩ := Option.bind_eq_some_iff.mp hs
  obtain ⟨i2, r2, v2⟩ := T.create i1 (T.keep r1 hv) h2
  have r12 := T.trans r1 r2
  obtain ⟨⟨memory, k3⟩, h3, hs⟩ := Option.bind_eq_some_iff.mp hs
  obtain ⟨i3, r3, v3⟩ := T.create i2 (T.keep r12 hv) h3
  have r13 := T.trans r12 r3
  obtain ⟨⟨cpu, k4⟩, h4, hs⟩ := Option.bind_eq_some_iff.mp hs
  obtain ⟨i4, r4, v4⟩ := T.create i3 (T.keep r13 hv) h4
  obtain ⟨k5, h5, hs⟩ := Option.bind_eq_some_iff.mp hs
  obtain ⟨i5, r5⟩ := T.createNodes i4 (T.keep (T.trans r2 (T.trans r3 r4)) v1) h5
  obtain ⟨k6, h6, hs⟩ := Option.bind_eq_some_iff.mp hs
  obtain ⟨i6, r6⟩ := T.createNodes i5 (T.keep (T.trans r3 (T.trans r4 r5)) v2) h6
  obtain ⟨k7, h7, hs⟩ := Option.bind_eq_some_iff.mp hs
  obtain ⟨i7, r7⟩ := T.createNodes i6 (T.keep (T.trans r4 (T.trans r5 r6)) v3) h7
  obtain ⟨k8, h8, hs⟩ := Option.bind_eq_some_iff.mp hs
  obtain ⟨i8, r8⟩ := T.createNodes i7 (T.keep (T.trans r5 (T.trans r6 r7)) v4) h8
  cases hs
  exact ⟨i8, T.trans r13 (T.trans r4 (T.trans r5 (T.trans r6 (T.trans r7 r8))))⟩

theorem sysfsInit {r : Bool} (hi : I k) (hs : k.sysfsInit env = some (r, k')) : I k' ∧ R k k' := by
  obtain ⟨⟨dir, k1⟩, h1, h2⟩ := Option.bind_eq_some_iff.mp hs
  obtain ⟨h3, h4, h5⟩ := T.findOrCreateDir hi h1
  cases dir with
  | none =>
    cases h2
    exact ⟨h3, h4⟩
  | some n =>
    obtain ⟨h6, h7⟩ := T.sysfsNodes h3 (h5 n rfl) h2
    exact ⟨h6, T.trans h4 h7⟩

theorem fsInit {fs : FileSystem} {r : Bool} (hi : I k) (hf : k.fsInit env fs = some (r, k')) :
    I k' ∧ R k k' := by
  cases fs with
  | procfs => exact T.procfsInit hi hf
  | sysfs => exact T.sysfsInit hi hf
  | devfs =>
    obtain ⟨k1, h1, h2⟩ := Option.bind_eq_some_iff.mp hf
    cases h2
    exact T.registerDevice hi h1
  | tarfs =>
    cases hf
    exact ⟨hi, T.refl _⟩
  | fat32 =>
    cases hf
    exact ⟨hi, T.refl _⟩
  | isofs =>
    cases hf
    exact ⟨hi, T.refl _⟩
  | tmpfs =>
    cases hf
    exact ⟨hi, T.refl _⟩

end init

end GrowRule

namespace NodeRule

variable (T : NodeRule env I R V G) {k k' : Kernel}
include T

theorem createSymlinkPath {path target : List Char} {r : Option Nat} (hi : I k)
    (hc : k.createSymlinkPath env path target = some (r, k')) : I k' ∧ R k k' := by
  obtain ⟨⟨node, k1⟩, h1, h2⟩ := Option.bind_eq_some_iff.mp hc
  obtain ⟨h3, h4, h5⟩ := T.createFilePath hi h1
  cases node with
  | none =>
    cases h2
    exact ⟨h3, h4⟩
  | some n =>
    obtain ⟨-, h2⟩ := Option.ite_none_right_eq_some.mp h2
    cases h2
    obtain ⟨h6, h7⟩ := T.link target h3 (h5 n rfl)
    exact ⟨h6, T.trans h4 h7⟩

section mount

theorem mountOn {n data : Nat} {path : List Char} {fs : Option FileSystem} {r : Bool} (hi : I k)
    (hv : V k n) (hg : G k fs data) (hm : k.mountOn env n path fs data = some (r, k')) :
    I k' ∧ R k k' := by
  obtain ⟨h1, h2⟩ := T.retype hi hv hg
  unfold Kernel.mountOn at hm
  dsimp only at hm
  split at hm
  · rename_i k1 hk
    cases hm
    obtain ⟨h3, h4⟩ := T.toSearchRule.kmalloc h1 hk
    exact ⟨h3, T.trans h2 h4⟩
  · rename_i m k1 hk
    obtain ⟨h3, h4⟩ := T.toSearchRule.kmalloc h1 hk
    have hg1 := T.carry (T.trans h2 h4) hg
    have hfresh : m ∉ k1.mounts.used := by
      rw [(kmalloc_eq hk).1]
      exact (kmalloc_eq hk).2 m rfl
    have h56 : I (k1.enter m ⟨path, fs, data⟩) ∧ R k1 (k1.enter m ⟨path, fs, data⟩) :=
      T.table h3 hfresh hg1
    obtain ⟨h5, h6⟩ := h56
    have h7 := T.trans h2 (T.trans h4 h6)
    obtain ⟨-, hm⟩ := Option.ite_none_right_eq_some.mp hm
    cases fs with
    | none =>
      cases hm
      exact ⟨h5, h7⟩
    | some fs =>
      obtain ⟨h8, h9⟩ := T.fsInit h5 hm
      exact ⟨h8, T.trans h7 h9⟩

theorem mount {path : List Char} {fs : Option FileSystem} {data : Nat} {r : Bool} (hi : I k)
    (hg : G k fs data) (hm : k.mount env path fs data = some (r, k')) : I k' ∧ R k k' := by
  unfold Kernel.mount at hm
  split at hm
  · cases hm
    exact ⟨hi, T.refl _⟩
  · obtain ⟨⟨node, k1⟩, h1, h2⟩ := Option.bind_eq_some_iff.mp hm
    obtain ⟨h3, h4, h5⟩ := T.findOrCreateDir hi h1
    cases node with
    | none =>
      cases h2
      exact ⟨h3, h4⟩
    | some n =>
      obtain ⟨h6, h7⟩ := T.mountOn h3 (h5 n rfl) (T.carry h4 hg) h2
      exact ⟨h6, T.trans h4 h7⟩

theorem mountVolume {path : List Char} {fs : FileSystem} {r : Bool} (hi : I k)
    (hm : k.mountVolume env path fs = some (r, k')) : I k' ∧ R k k' := by
  unfold Kernel.mountVolume at hm
  split at hm
  · rename_i k1 hk
    cases hm
    exact T.toSearchRule.kmalloc hi hk
  · rename_i v k1 hk
    obtain ⟨h1, h2⟩ := T.toSearchRule.kmalloc hi hk
    obtain ⟨h3, h4, h5⟩ := T.volume fs (v + 1) h1
    obtain ⟨h6, h7⟩ := T.mount h3 h5 hm
    exact ⟨h6, T.trans h2 (T.trans h4 h7)⟩

theorem sysMount {target : List Char} {fstype : Option (List Char)} {data : Nat} {r : Int}
    (hi : I k) (hg : G k (fstype.bind fsByName) data)
    (hm : k.sysMount env target fstype data = some (r, k')) : I k' ∧ R k k' := by
  unfold Kernel.sysMount at hm
  split at hm
  · cases hm
    exact ⟨hi, T.refl _⟩
  · obtain ⟨path, _, hm⟩ := Option.bind_eq_some_iff.mp hm
    obtain ⟨⟨ok, k1⟩, h1, hm⟩ := Option.bind_eq_some_iff.mp hm
    cases hm
    exact T.mount hi hg h1

end mount

section archive

theorem mountEntry {image : Nat → UInt8} {block hdr : Nat} (hi : I k)
    (hattach : ∀ {k n hdr size k'}, I k → V k n →
      k.attachFile env n ⟨block, hdr + 512⟩ size = some k' → I k' ∧ R k k')
    (hm : k.mountEntry env image block hdr = some k') : I k' ∧ R k k' := by
  unfold Kernel.mountEntry at hm
  dsimp only at hm
  split at hm
  · obtain ⟨⟨r, k1⟩, h1, h2⟩ := Option.bind_eq_some_iff.mp hm
    cases h2
    exact T.createSymlinkPath hi h1
  · split at hm
    · cases hm
      exact ⟨hi, T.refl _⟩
    · split at hm
      · obtain ⟨⟨r, k1⟩, h1, h2⟩ := Option.bind_eq_some_iff.mp hm
        cases h2
        obtain ⟨h3, h4, _⟩ := T.createDirPath hi h1
        exact ⟨h3, h4⟩
      · split at hm
        · obtain ⟨⟨r, k1⟩, h1, h2⟩ := Option.bind_eq_some_iff.mp hm
          obtain ⟨h3, h4, h5⟩ := T.createFilePath hi h1
          cases r with
          | none =>
            cases h2
            exact ⟨h3, h4⟩
          | some n =>
            obtain ⟨h6, h7⟩ := hattach h3 (h5 n rfl) h2
            exact ⟨h6, T.trans h4 h7⟩
        · cases hm
          exact ⟨hi, T.refl _⟩

theorem mountVfs {image : Nat → UInt8} {size block rounds hdr : Nat} (hi : I k)
    (hattach : ∀ {k n hdr size k'}, I k → V k n →
      k.attachFile env n ⟨block, hdr + 512⟩ size = some k' → I k' ∧ R k k')
    (hm : Kernel.mountVfs env image size block rounds hdr k = some k') : I k' ∧ R k k' := by
  induction rounds generalizing hdr k with
  | zero =>
    unfold Kernel.mountVfs at hm
    split at hm
    · cases hm
    · cases hm
      exact ⟨hi, T.refl _⟩
  | succ rounds ih =>
    unfold Kernel.mountVfs at hm
    split at hm
    · split at hm
      · cases hm
        exact ⟨hi, T.refl _⟩
      · obtain ⟨k1, h1, h2⟩ := Option.bind_eq_some_iff.mp hm
        obtain ⟨h3, h4⟩ := T.mountEntry hi hattach h1
        obtain ⟨h5, h6⟩ := ih h3 h2
        exact ⟨h5, T.trans h4 h6⟩
    · cases hm
      exact ⟨hi, T.refl _⟩

end archive

end NodeRule

namespace TreeRule

variable (T : TreeRule env I R V G) {k k' : Kernel}
include T

section files

theorem ensureFileStorage {n : Nat} {r : Option Nat} (hi : I k) (hv : V k n)
    (he : k.ensureFileStorage env n = (r, k')) : I k' ∧ R k k' := by
  unfold Kernel.ensureFileStorage at he
  split at he
  · cases he
    exact ⟨hi, T.refl _⟩
  · split at he
    · cases he
      exact ⟨hi, T.refl _⟩
    · split at he
      · rename_i k1 hk
        cases he
        exact T.toSearchRule.kmalloc hi hk
      · rename_i f k1 hk
        cases he
        obtain ⟨h1, h2⟩ := T.toSearchRule.kmalloc hi hk
        obtain ⟨h3, h4⟩ := T.data (k1.files.alloc f File.zero) k1.blocks k1.blockLen k1.freed
          k1.allocs h1
        obtain ⟨h5, h6⟩ := T.file f h3 (T.keep (T.trans h2 h4) hv)
        exact ⟨h5, T.trans h2 (T.trans h4 h6)⟩

theorem allocBlock {len : Nat} {r : Option Nat} (hi : I k)
    (ha : k.allocBlock env len = (r, k')) : I k' ∧ R k k' := by
  unfold Kernel.allocBlock at ha
  dsimp only at ha
  split at ha
  · rename_i k1 hk
    cases ha
    exact T.toSearchRule.kmalloc hi hk
  · rename_i b k1 hk
    cases ha
    obtain ⟨h1, h2⟩ := T.toSearchRule.kmalloc hi hk
    obtain ⟨h3, h4⟩ := T.data k1.files _ _ k1.freed k1.allocs h1
    exact ⟨h3, T.trans h2 h4⟩

theorem freeData (hi : I k) (f : Nat) : I (k.freeData f) ∧ R k (k.freeData f) := by
  unfold Kernel.freeData
  split
  · exact T.data k.files _ k.blockLen _ k.allocs hi
  · exact ⟨hi, T.refl _⟩

theorem setContent {n : Nat} {bytes : List UInt8} {r : Bool} (hi : I k) (hv : V k n)
    (hs : k.setContent env n bytes = (r, k')) : I k' ∧ R k k' := by
  unfold Kernel.setContent at hs
  split at hs
  · rename_i k1 hk
    cases hs
    exact T.ensureFileStorage hi hv hk
  · rename_i f k1 hk
    obtain ⟨h1, h2⟩ := T.ensureFileStorage hi hv hk
    split at hs
    · rename_i k2 hk2
      cases hs
      obtain ⟨h3, h4⟩ := T.allocBlock h1 hk2
      exact ⟨h3, T.trans h2 h4⟩
    · rename_i b k2 hk2
      cases hs
      obtain ⟨h3, h4⟩ := T.allocBlock h1 hk2
      obtain ⟨h5, h6⟩ := T.data k2.files (k2.copyTo ⟨b, 0⟩ (bytes ++ [0])).blocks k2.blockLen
        k2.freed k2.allocs h3
      obtain ⟨h7, h8⟩ := T.freeData h5 f
      generalize hq : Kernel.freeData _ f = q at h7 h8
      obtain ⟨h9, h10⟩ := T.data (q.files.set f
        { q.files.cell f with privateData := some ⟨b, 0⟩, size := bytes.length }) q.blocks q.blockLen
        q.freed q.allocs h7
      rw [← hq] at h9 h10 h8
      exact ⟨h9, T.trans h2 (T.trans h4 (T.trans h6 (T.trans h8 h10)))⟩

theorem writeContent {path : List Char} {bytes : List UInt8} {r : Bool} (hi : I k)
    (hw : k.writeContent env path bytes = some (r, k')) : I k' ∧ R k k' := by
  obtain ⟨⟨node, k1⟩, h1, hw⟩ := Option.bind_eq_some_iff.mp hw
  obtain ⟨h3, h4, h5⟩ := T.find hi h1
  cases node with
  | some n =>
    obtain ⟨-, hw⟩ := Option.ite_none_right_eq_some.mp hw
    obtain ⟨h6, h7⟩ := T.setContent h3 (h5 n rfl) (Option.some.inj hw)
    exact ⟨h6, T.trans h4 h7⟩
  | none =>
    obtain ⟨⟨n, k2⟩, h6, hw⟩ := Option.bind_eq_some_iff.mp hw
    obtain ⟨h7, h8, h9⟩ := T.create h3 (T.root h3) h6
    obtain ⟨h10, h11⟩ := T.setContent h7 h9 (Option.some.inj hw)
    exact ⟨h10, T.trans h4 (T.trans h8 h11)⟩

theorem attachFile {n size : Nat} {p : Ptr} (hi : I k) (hv : V k n)
    (ha : k.attachFile env n p size = some k') : I k' ∧ R k k' := by
  unfold Kernel.attachFile at ha
  split at ha
  · cases ha
  · rename_i f k1 hk
    cases ha
    obtain ⟨h1, h2⟩ := T.toSearchRule.kmalloc hi hk
    obtain ⟨h3, h4⟩ := T.data (k1.files.alloc f ⟨size, 0, some p⟩) k1.blocks k1.blockLen k1.freed
      k1.allocs h1
    obtain ⟨h5, h6⟩ := T.file f h3 (T.keep (T.trans h2 h4) hv)
    exact ⟨h5, T.trans h2 (T.trans h4 h6)⟩

theorem mountRootfs {archive : Nat → UInt8} {size : Nat} {unpacked : Option (List UInt8)}
    (hi : I k) (hm : k.mountRootfs env archive size unpacked = some k') : I k' ∧ R k k' := by
  unfold Kernel.mountRootfs at hm
  dsimp only at hm
  have hplain := T.data k.files (k.blocks.set 0 archive) k.blockLen k.freed k.allocs hi
  split at hm
  · obtain ⟨h1, h2⟩ := T.mountVfs hplain.1 T.attachFile hm
    exact ⟨h1, T.trans hplain.2 h2⟩
  · split at hm
    · obtain ⟨h1, h2⟩ := T.mountVfs hplain.1 T.attachFile hm
      exact ⟨h1, T.trans hplain.2 h2⟩
    · rename_i b k1 hb
      obtain ⟨h1, h2⟩ := T.allocBlock hi hb
      obtain ⟨h3, h4⟩ := T.data k1.files (k1.blocks.set b _) k1.blockLen k1.freed k1.allocs h1
      obtain ⟨h5, h6⟩ := T.mountVfs h3 T.attachFile hm
      exact ⟨h5, T.trans h2 (T.trans h4 h6)⟩

end files

section remove

/-- `remove`, given what taking a node out does. -/
theorem remove {path : List Char} {r : Bool} (hi : I k)
    (hout : ∀ {q n parent}, I q → R k q → k.find env path = some (some n, q) → V q n → n ≠ q.root →
      ¬((q.node n).directory = true ∧ (q.node n).children ≠ []) → (q.node n).parent = some parent →
        I (q.takeOut n parent))
    (hr : k.remove env path = some (r, k')) : I k' := by
  obtain ⟨node, q, h1, hr⟩ := remove_cases hr
  obtain ⟨h3, h4, h5⟩ := T.find hi h1
  cases hr with
  | inl hk' =>
    rw [hk']
    exact h3
  | inr hr =>
    obtain ⟨n, parent, rfl, hroot, hempty, hp, rfl⟩ := hr
    have h6 := hout h3 h4 h1 (h5 n rfl) hroot hempty hp
    obtain ⟨files, blocks, freed, hdrop⟩ := dropFile_rest q n
    rw [hdrop]
    exact (T.data files blocks q.blockLen freed q.allocs h6).1

/-- `umount` of mount `m`, given what leaving the table and giving back the record do. -/
theorem umount {path : List Char} {r : Bool} (hi : I k)
    (hleave : ∀ {m}, k.mountTable.find? (fun m => (k.mounts.cell m).path = path) = some m →
      I { k with mountTable := k.mountTable.erase m })
    (hdir : ∀ {q n}, I q → V q n → I (q.asDir n) ∧ R q (q.asDir n))
    (hfree : ∀ {m q}, k.mountTable.find? (fun m => (k.mounts.cell m).path = path) = some m →
      I q → R { k with mountTable := k.mountTable.erase m } q →
        I { q with mounts := q.mounts.free m })
    (hu : k.umount env path = some (r, k')) : I k' := by
  cases umount_cases hu with
  | inl hk' =>
    rw [hk']
    exact hi
  | inr hu =>
    obtain ⟨m, node, q, q', hm, h1, hnode, rfl⟩ := hu
    obtain ⟨h3, h4, h5⟩ := T.find (hleave hm) h1
    cases hnode with
    | inl hq =>
      rw [hq]
      exact hfree hm h3 h4
    | inr hq =>
      obtain ⟨n, rfl, rfl⟩ := hq
      obtain ⟨h6, h7⟩ := hdir h3 (h5 n rfl)
      exact hfree hm h6 (T.trans h4 h7)

end remove

/-- Every call on the tree and on mounts; `umount` and `remove` are the caller's business. -/
theorem onTree {ev : Event} {r : Reply} (hi : I k) (hq : ev.onTree = true)
    (hmount : ∀ target fstype data, ev = .sysMount target fstype data →
      G k (fstype.bind fsByName) data)
    (humount : ∀ {path r k'},
      (ev = .umount path ∨ ∃ target, ev = .sysUmount target ∧ k.absPath env target = some path) →
        k.umount env path = some (r, k') → I k')
    (hremove : ∀ {path r k'}, ev = .remove path → k.remove env path = some (r, k') → I k')
    (hs : k.step env ev = some (r, k')) : I k' := by
  cases ev with
  | execve path =>
    cases hsp : env.space with
    | true =>
      simp only [step, hsp, if_true] at hs
      obtain ⟨a, hs⟩ := answer_some hs
      exact (T.find hi hs).1
    | false =>
      simp only [step, hsp] at hs
      cases hs
      exact hi
  | sysMount target fstype data =>
    obtain ⟨a, hs⟩ := answer_some hs
    exact (T.sysMount hi (hmount target fstype data rfl) hs).1
  | sysUmount target =>
    obtain ⟨a, hs⟩ := answer_some hs
    unfold Kernel.sysUmount at hs
    split at hs
    · cases hs
      exact hi
    · obtain ⟨path, hpath, hs⟩ := Option.bind_eq_some_iff.mp hs
      obtain ⟨⟨ok, k1⟩, h1, hs⟩ := Option.bind_eq_some_iff.mp hs
      cases hs
      exact humount (Or.inr ⟨target, rfl, hpath⟩) h1
  | sysSymlink target path =>
    obtain ⟨a, hs⟩ := answer_some hs
    obtain ⟨path', _, hs⟩ := Option.bind_eq_some_iff.mp hs
    obtain ⟨⟨node, k1⟩, h1, hs⟩ := Option.bind_eq_some_iff.mp hs
    cases hs
    exact (T.createSymlinkPath hi h1).1
  | createFilePath path =>
    simp only [step] at hs
    obtain ⟨a, hs⟩ := answer_some hs
    exact (T.createFilePath hi hs).1
  | createDirPath path =>
    simp only [step] at hs
    obtain ⟨a, hs⟩ := answer_some hs
    exact (T.createDirPath hi hs).1
  | createSymlinkPath path target =>
    simp only [step] at hs
    obtain ⟨a, hs⟩ := answer_some hs
    exact (T.createSymlinkPath hi hs).1
  | registerDevice name dev =>
    exact (T.registerDevice hi (silent_some hs)).1
  | mount path fs =>
    obtain ⟨a, hs⟩ := answer_some hs
    exact (T.mount hi T.null hs).1
  | mountVolume path fs =>
    obtain ⟨a, hs⟩ := answer_some hs
    exact (T.mountVolume hi hs).1
  | umount path =>
    obtain ⟨a, hs⟩ := answer_some hs
    exact humount (Or.inl rfl) hs
  | remove path =>
    obtain ⟨a, hs⟩ := answer_some hs
    exact hremove rfl hs
  | mountRootfs archive size unpacked => exact (T.mountRootfs hi (silent_some hs)).1
  | _ => cases hq

end TreeRule

end LosTacOS.Os.Kernel
