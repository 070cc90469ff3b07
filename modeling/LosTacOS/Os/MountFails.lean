import LosTacOS.Os.Mounting
import LosTacOS.Os.FullFind

/-! `fs::mount` with everything that can fail in it. There may be no memory for the node, which is made
a mount point before there is memory for the mount; the copy of the path may be null, and the `init`
callback is asked last. -/
namespace LosTacOS.Os

structure MountState where
  kernel : Kernel
  pathless : Finset Nat

/-- The `init` callbacks. They leave the mount table alone. -/
structure InitHook where
  run : FileSystem → Kernel → Option (Bool × Kernel)
  table : ∀ {fs k ok k'}, run fs k = some (ok, k') → k'.mountTable = k.mountTable
  mounts : ∀ {fs k ok k'}, run fs k = some (ok, k') → k'.mounts = k.mounts

def kernelInits (env : Env) : InitHook where
  run fs k := k.fsInit env fs
  table h := (Kernel.roles_kept.fsInit trivial h).2.table
  mounts h := (Kernel.roles_kept.fsInit trivial h).2.mounts

open Kernel

namespace MountState

variable {env : Env} {hook : InitHook} {s s' : MountState} {path : List Char}
  {fs : Option FileSystem} {data n : Nat} {r : Bool}

def pathOf (s : MountState) (m : Nat) : Option (List Char) :=
  if m ∈ s.pathless then none else some (s.kernel.mounts.cell m).path

def mountAt (env : Env) (hook : InitHook) (s : MountState) (n : Nat) (path : List Char)
    (fs : Option FileSystem) (data : Nat) : Option (Bool × MountState) :=
  let k := s.kernel.setNode n { s.kernel.node n with
    type := .mount, filesystem := fs, mountData := data }
  match k.kmalloc env k.mounts.used with
  | (none, k) => some (false, ⟨k, s.pathless⟩)
  | (some m, k) =>
    let (copy, k) := k.kmalloc env ∅
    let k := { k with
      mounts := k.mounts.alloc m ⟨path, fs, data⟩
      mountTable := m :: k.mountTable }
    let pathless := if copy.isSome then s.pathless.erase m else insert m s.pathless
    match fs with
    | none => some (true, ⟨k, pathless⟩)
    | some fs => (hook.run fs k).map fun x => (x.1, ⟨x.2, pathless⟩)

def mount (env : Env) (hook : InitHook) (s : MountState) (path : List Char)
    (fs : Option FileSystem) (data : Nat) : Option (Bool × MountState) :=
  if path = [] then some (false, s)
  else do
    let (node, k) ← Full.findOrCreateDir env s.kernel path
    match node with
    | none => some (false, ⟨k, s.pathless⟩)
    | some n => mountAt env hook ⟨k, s.pathless⟩ n path fs data

/-- What a mount promises: if it fails the tree and the table are as they were, and if it succeeds
the new mount of the table has the path. -/
def MountKept (s s' : MountState) (path : List Char) : Bool → Prop
  | false => s'.kernel.nodes = s.kernel.nodes ∧ s'.kernel.mountTable = s.kernel.mountTable ∧
      s'.kernel.mounts = s.kernel.mounts ∧ s'.pathless = s.pathless
  | true => ∃ m, s'.kernel.mountTable = m :: s.kernel.mountTable ∧ s'.pathOf m = some path

def recordAt (env : Env) (k : Kernel) : Option Nat := (k.kmalloc env k.mounts.used).1

def copyAt (env : Env) (k : Kernel) : Option Nat :=
  (Kernel.kmalloc { k with allocs := k.allocs + 1 } env ∅).1

def entered (k : Kernel) (n m : Nat) (path : List Char) (fs : Option FileSystem) (data : Nat) :
    Kernel :=
  { k.asMount n fs data with
    allocs := k.allocs + 2
    mounts := k.mounts.alloc m ⟨path, fs, data⟩
    mountTable := m :: k.mountTable }

/-- With a node there is memory and the callback agrees, or there is none for the mount, and the node
is there already and a mount of the same kind. Without memory for the node its directory is empty. -/
def SafeAt (env : Env) (hook : InitHook) (k : Kernel) (path : List Char) (fs : Option FileSystem)
    (data : Nat) (q : Kernel) : Option Nat → Prop
  | none => Full.Untouched env k path
  | some n => match recordAt env q with
    | none => Full.Untouched env k path ∧ k.role n = (.mount, fs, data)
    | some m => (copyAt env q).isSome ∧ ∀ f, fs = some f →
        ∃ k', hook.run f (entered q n m path fs data) = some (true, k')

def MountSafe (env : Env) (hook : InitHook) (k : Kernel) (path : List Char)
    (fs : Option FileSystem) (data : Nat) : Prop :=
  path = [] ∨ ∃ node q, Full.findOrCreateDir env k path = some (node, q) ∧
    SafeAt env hook k path fs data q node

theorem findOrCreateDir_some {k q : Kernel} {node : Option Nat} (hne : path ≠ [])
    (h : k.findOrCreateDir env path = some (node, q)) : ∃ n, node = some n := by
  obtain ⟨⟨dir, k1⟩, -, h⟩ := Option.bind_eq_some_iff.mp h
  cases dir with
  | some dir =>
    cases h
    exact ⟨dir, rfl⟩
  | none =>
    dsimp only at h
    rw [Kernel.createDirPath, if_neg hne] at h
    obtain ⟨x, -, hx⟩ := Option.bind_eq_some_iff.mp h
    cases hx
    exact ⟨x.1, rfl⟩

theorem mount_cases (hne : path ≠ []) (h : s.mount env hook path fs data = some (r, s')) :
    ∃ node q, Full.findOrCreateDir env s.kernel path = some (node, q) ∧
      ((node = none ∧ r = false ∧ s' = ⟨q, s.pathless⟩) ∨ ∃ n, node = some n ∧
      ((recordAt env q = none ∧ r = false ∧
          s' = ⟨{ q.asMount n fs data with allocs := q.allocs + 1 }, s.pathless⟩) ∨
        ∃ m, recordAt env q = some m ∧
          s'.pathless = (if (copyAt env q).isSome then s.pathless.erase m
            else insert m s.pathless) ∧
          ((fs = none ∧ r = true ∧ s'.kernel = entered q n m path fs data) ∨
            ∃ f, fs = some f ∧
              hook.run f (entered q n m path fs data) = some (r, s'.kernel)))) := by
  rw [mount, if_neg hne] at h
  obtain ⟨⟨node, q⟩, hq, h⟩ := Option.bind_eq_some_iff.mp h
  refine ⟨node, q, hq, ?_⟩
  cases node with
  | none =>
    cases h
    exact Or.inl ⟨rfl, rfl, rfl⟩
  | some n =>
  refine Or.inr ⟨n, rfl, ?_⟩
  replace h : mountAt env hook ⟨q, s.pathless⟩ n path fs data = some (r, s') := h
  have halloc : (q.setNode n { q.node n with
        type := .mount, filesystem := fs, mountData := data }).kmalloc env
      (q.setNode n { q.node n with
        type := .mount, filesystem := fs, mountData := data }).mounts.used =
      (recordAt env q, { q.asMount n fs data with allocs := q.allocs + 1 }) := rfl
  rw [mountAt] at h
  dsimp only at h
  rw [halloc] at h
  cases hrec : recordAt env q with
  | none =>
    rw [hrec] at h
    cases h
    exact Or.inl ⟨rfl, rfl, rfl⟩
  | some m =>
    rw [hrec] at h
    refine Or.inr ⟨m, rfl, ?_⟩
    cases fs with
    | none =>
      cases h
      exact ⟨rfl, Or.inl ⟨rfl, rfl, rfl⟩⟩
    | some f =>
      obtain ⟨⟨ok, k'⟩, hrun, heq⟩ := Option.map_eq_some_iff.mp h
      cases heq
      exact ⟨rfl, Or.inr ⟨f, rfl, hrun⟩⟩

/-- A node that is made a mount is as it was when it was that mount already. -/
theorem asMount_nodes_iff {k q : Kernel} (hq : Full.Sought k q) :
    (q.asMount n fs data).nodes = k.nodes ↔ q.nodes = k.nodes ∧ k.role n = (.mount, fs, data) := by
  have hnode : ∀ m, (q.asMount n fs data).node m = if m = n then
      { q.node n with type := .mount, filesystem := fs, mountData := data } else q.node m :=
    fun m => Kernel.setNode_node ..
  constructor
  · intro hnodes
    have hcell : ∀ m, (q.asMount n fs data).node m = k.node m := by
      intro m
      rw [Kernel.node, hnodes]
      rfl
    have hrole : k.role n = (.mount, fs, data) := by
      rw [Kernel.role, ← hcell n, hnode, if_pos rfl]
    have hused : q.nodes.used = k.nodes.used := by
      rw [← hnodes]
      rfl
    refine ⟨Full.Sought.nodes_ext hused fun m => ?_, hrole⟩
    have hm := hcell m
    rw [hnode] at hm
    split at hm
    · rename_i he
      subst he
      -- the search has at most emptied the node, and then it was empty
      obtain h1 | h1 := hq.node hused m
      · exact h1
      · rw [h1, ← hm, h1]
    · exact hm
  · rintro ⟨hsame, hrole⟩
    rw [← hsame]
    have hcell : q.node n = k.node n := by
      rw [Kernel.node, hsame]
      rfl
    rw [Kernel.role, Prod.mk.injEq, Prod.mk.injEq, ← hcell] at hrole
    obtain ⟨htype, hfs, hdata⟩ := hrole
    refine Full.Sought.nodes_ext rfl fun m => ?_
    rw [hnode, ← htype, ← hfs, ← hdata]
    split
    · rename_i he
      rw [he]
    · rfl

/-- The new mount has the path when the copy has been made. -/
theorem kept_true_iff {q : Kernel} {m : Nat} (htable : q.mountTable = s.kernel.mountTable)
    (hpathless : s'.pathless = if (copyAt env q).isSome then s.pathless.erase m
      else insert m s.pathless)
    (hnew : s'.kernel.mountTable = (entered q n m path fs data).mountTable)
    (hmounts : s'.kernel.mounts = (entered q n m path fs data).mounts) :
    MountKept s s' path true ↔ (copyAt env q).isSome := by
  have hhead : s'.kernel.mountTable = m :: s.kernel.mountTable := by
    rw [hnew, ← htable]
    rfl
  have hcell : (s'.kernel.mounts.cell m).path = path := by
    rw [hmounts, entered]
    simp
  constructor
  · rintro ⟨m', hm', hpath⟩
    rw [hhead] at hm'
    obtain rfl : m = m' := (List.cons.inj hm').1
    by_contra hcopy
    rw [pathOf, hpathless, if_neg hcopy, if_pos (Finset.mem_insert_self _ _)] at hpath
    cases hpath
  · intro hcopy
    refine ⟨m, hhead, ?_⟩
    rw [pathOf, hpathless, if_pos hcopy, if_neg (Finset.notMem_erase _ _), hcell]

theorem not_kept_false {q : Kernel} {m : Nat} (htable : q.mountTable = s.kernel.mountTable)
    (hnew : s'.kernel.mountTable = (entered q n m path fs data).mountTable) :
    ¬MountKept s s' path false := by
  rintro ⟨-, hsame, -⟩
  have hhead : m :: q.mountTable = q.mountTable := hnew.symm.trans (hsame.trans htable.symm)
  have hlength := congrArg List.length hhead
  rw [List.length_cons] at hlength
  omega

/-- A mount keeps its promise exactly when it is safe. -/
theorem mount_kept_iff (h : s.mount env hook path fs data = some (r, s')) :
    MountKept s s' path r ↔ MountSafe env hook s.kernel path fs data := by
  by_cases hne : path = []
  · rw [mount, if_pos hne] at h
    cases h
    exact ⟨fun _ => Or.inl hne, fun _ => ⟨rfl, rfl, rfl, rfl⟩⟩
  · obtain ⟨node, q, hq, hend⟩ := mount_cases hne h
    have hsearch := Full.findOrCreateDir_sought hq
    have huntouched := Full.untouched_iff hq
    have hsafe : MountSafe env hook s.kernel path fs data ↔
        SafeAt env hook s.kernel path fs data q node := by
      constructor
      · rintro (hnil | ⟨n', q', hq', hs⟩)
        · exact absurd hnil hne
        · cases hq.symm.trans hq'
          exact hs
      · exact fun hs => Or.inr ⟨node, q, hq, hs⟩
    rw [hsafe]
    rcases hend with ⟨rfl, rfl, rfl⟩ | ⟨n, rfl, ⟨hrec, rfl, rfl⟩ | ⟨m, hrec, hpathless, hend⟩⟩
    · rw [SafeAt, ← huntouched]
      exact ⟨And.left, fun hnodes => ⟨hnodes, hsearch.table, hsearch.mounts, rfl⟩⟩
    · rw [SafeAt, hrec]
      dsimp only
      rw [← huntouched, ← asMount_nodes_iff hsearch]
      exact ⟨And.left, fun hnodes => ⟨hnodes, hsearch.table, hsearch.mounts, rfl⟩⟩
    · rw [SafeAt, hrec]
      dsimp only
      rcases hend with ⟨rfl, rfl, hkernel⟩ | ⟨f, rfl, hrun⟩
      · rw [kept_true_iff hsearch.table hpathless (congrArg _ hkernel) (congrArg _ hkernel)]
        exact ⟨fun hcopy => ⟨hcopy, nofun⟩, And.left⟩
      · cases r with
        | false =>
          refine ⟨fun hkept => absurd hkept (not_kept_false hsearch.table (hook.table hrun)), ?_⟩
          rintro ⟨-, hyes⟩
          obtain ⟨k', hk'⟩ := hyes f rfl
          cases hrun.symm.trans hk'
        | true =>
          rw [kept_true_iff hsearch.table hpathless (hook.table hrun) (hook.mounts hrun)]
          refine ⟨fun hcopy => ⟨hcopy, fun g hg => ?_⟩, And.left⟩
          cases hg
          exact ⟨_, hrun⟩

theorem kernelInits_accept {f : FileSystem} {k k' : Kernel} {ok : Bool}
    (h : (kernelInits env).run f k = some (ok, k')) : ok = true := by
  cases f with
  | procfs =>
    obtain ⟨⟨dir, q⟩, -, h⟩ := Option.bind_eq_some_iff.mp h
    cases dir with
    | none =>
      cases h
      rfl
    | some dir =>
      obtain ⟨x, -, hx⟩ := Option.bind_eq_some_iff.mp h
      cases hx
      rfl
  | sysfs =>
    obtain ⟨⟨dir, q⟩, hdir, h⟩ := Option.bind_eq_some_iff.mp h
    obtain ⟨n, rfl⟩ := findOrCreateDir_some (by decide) hdir
    simp only [Kernel.sysfsNodes, Option.bind_eq_bind, Option.bind_eq_some_iff, Option.some.injEq,
      Prod.mk.injEq] at h
    obtain ⟨_, _, _, _, _, _, _, _, _, _, _, _, _, _, _, _, hok, _⟩ := h
    exact hok.symm
  | devfs =>
    obtain ⟨x, -, hx⟩ := Option.bind_eq_some_iff.mp h
    cases hx
    rfl
  | fat32 =>
    cases h
    rfl
  | isofs =>
    cases h
    rfl
  | tarfs =>
    cases h
    rfl
  | tmpfs =>
    cases h
    rfl

/-- With memory a mount is kept, without it a mount on a file that is missing is not. -/
theorem mount_kept_iff_memory : ∃ s' q', mount freshEnv (kernelInits freshEnv) ⟨Kernel.boot, ∅⟩
      "/m".toList (some .tmpfs) 0 = some (true, s') ∧
    MountKept ⟨Kernel.boot, ∅⟩ s' "/m".toList true ∧
    mount quietEnv (kernelInits quietEnv) s' "/n".toList (some .tmpfs) 0 = some (false, q') ∧
    ¬MountKept s' q' "/n".toList false := by
  have hrun : (mount freshEnv (kernelInits freshEnv) ⟨Kernel.boot, ∅⟩ "/m".toList
      (some .tmpfs) 0).any (fun x => x.1 = true ∧ (x.2.kernel.node 0).children ≠ [] ∧
        (mount quietEnv (kernelInits quietEnv) x.2 "/n".toList (some .tmpfs) 0).any (fun y =>
          y.1 = false) ∧
        (Full.findOrCreateDir quietEnv x.2.kernel "/n".toList).any (fun y => y.1 = none ∧
          (y.2.node 0).children = [])) = true := by decide +kernel
  obtain ⟨⟨r, s'⟩, hs, h⟩ := any_exists hrun
  obtain ⟨rfl, hfull, hmount, hgone⟩ := of_decide_eq_true h
  obtain ⟨⟨r, q'⟩, hq', h⟩ := any_exists hmount
  obtain rfl : r = false := of_decide_eq_true h
  obtain ⟨⟨node', q''⟩, hgone, h⟩ := any_exists hgone
  obtain ⟨rfl, hempty⟩ := of_decide_eq_true h
  have hnode : (Full.findOrCreateDir freshEnv Kernel.boot "/m".toList).any (fun x =>
      x.1 = some 1 ∧ recordAt freshEnv x.2 = some 2 ∧ (copyAt freshEnv x.2).isSome) = true := by
    decide +kernel
  obtain ⟨⟨node, q⟩, hq, h⟩ := any_exists hnode
  obtain ⟨rfl, hrec, hcopy⟩ := of_decide_eq_true h
  refine ⟨s', q', hs, (mount_kept_iff hs).mpr (Or.inr ⟨some 1, q, hq, ?_⟩), hq', fun hkept => ?_⟩
  · rw [SafeAt, hrec]
    refine ⟨hcopy, fun f hf => ?_⟩
    cases hf
    exact ⟨_, rfl⟩
  · obtain hnil | ⟨node, q1, hq1, hsafe⟩ := (mount_kept_iff hq').mp hkept
    · cases hnil
    · cases hgone.symm.trans hq1
      have hsame := (Full.untouched_iff hgone).mpr hsafe
      have hcell : q''.node 0 = s'.kernel.node 0 := by
        rw [Kernel.node, hsame]
        rfl
      exact hfull (hcell ▸ hempty)

/-- Without memory for the mount the root has become a mount point all the same. -/
theorem mount_fails_retyped : ¬ ∀ (env : Env) (k : Kernel) (path : List Char)
    (fs : Option FileSystem) (data : Nat) (r : Bool) (s' : MountState),
    Reached (fun _ _ _ => True) k →
    mount env (kernelInits env) ⟨k, ∅⟩ path fs data = some (r, s') →
    MountKept ⟨k, ∅⟩ s' path r := by
  intro hall
  have hrun : (mount quietEnv (kernelInits quietEnv) ⟨Kernel.boot, ∅⟩ "/".toList
      (some .tmpfs) 0).any (fun x => x.1 = false ∧
        (x.2.kernel.node 0).type ≠ (Kernel.boot.node 0).type) = true := by decide +kernel
  obtain ⟨⟨r, s'⟩, hs, h⟩ := any_exists hrun
  obtain ⟨rfl, htype⟩ := of_decide_eq_true h
  have hkept := hall quietEnv Kernel.boot _ _ _ _ s' Reached.boot hs
  apply htype
  rw [Kernel.node, hkept.1]
  rfl

end MountState

end LosTacOS.Os
