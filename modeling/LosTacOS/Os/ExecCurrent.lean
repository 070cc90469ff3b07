import LosTacOS.Os.Misses
import LosTacOS.Os.Parents
import Mathlib

/-! `sched::exec_current` and the blocks of the kernel heap it takes: copies of the argument and
environment strings, an address space with its page table, and whatever the lookup of the program
leaves behind. -/
namespace LosTacOS.Os

/-- The kernel, and of each process the fields that only `exec_current` and the memory system use.
An address space is its own record and that of its table. -/
structure Exec where
  kernel : Kernel
  strings : Finset Nat
  spaces : Finset Nat
  tables : Finset Nat
  space : Nat → Option (Nat × Nat)
  name : Nat → List Char
  mmapNext : Nat → Nat

structure Live where
  strings : Finset Nat
  spaces : Finset Nat
  tables : Finset Nat
  tasks : Finset Nat
  procs : Finset Nat
  nodes : Finset Nat
  files : Finset Nat
  mounts : Finset Nat
  blocks : Finset Nat
  devices : List (List Char × Option DevOps)
  handles : Int

namespace Kernel

def opening : FsCall → Int
  | .opened _ _ (some _) => 1
  | .closed _ _ => -1
  | _ => 0

def liveHandles (k : Kernel) : Int := (k.fsLog.map opening).sum

end Kernel

namespace Exec

variable (env : Env)

def live (s : Exec) : Live :=
  ⟨s.strings, s.spaces, s.tables, s.kernel.tasks.used, s.kernel.procs.used, s.kernel.nodes.used,
    s.kernel.files.used, s.kernel.mounts.used, s.kernel.blocks.used, s.kernel.devices,
    s.kernel.liveHandles⟩

/-- `kstrdup`; null when there is no memory. -/
def kstrdup (s : Exec) : Option Nat × Exec :=
  match s.kernel.kmalloc env s.strings with
  | (none, k) => (none, { s with kernel := k })
  | (some a, k) => (some a, { s with kernel := k, strings := insert a s.strings })

def copyVector : List (List Char) → Exec → List (Option Nat) × Exec
  | [], s => ([], s)
  | _ :: vec, s =>
    let (p, s) := s.kstrdup env
    let (ps, s) := copyVector vec s
    (p :: ps, s)

def freeCopies (s : Exec) (copies : List (Option Nat)) : Exec :=
  let blocks := (copies.takeWhile Option.isSome).filterMap id
  { s with strings := s.strings \ blocks.toFinset }

/-- `AddressSpace::destroy`, as far as the heap goes. -/
def destroy (s : Exec) (x : Nat × Nat) : Exec :=
  { s with spaces := s.spaces.erase x.1, tables := s.tables.erase x.2 }

def createSpace (s : Exec) : Option (Nat × Nat) × Exec :=
  match s.kernel.kmalloc env s.spaces with
  | (none, k) => (none, { s with kernel := k })
  | (some a, k) =>
    let s := { s with kernel := k, spaces := insert a s.spaces }
    match s.kernel.kmalloc env s.tables with
    | (none, k) => (none, { s with kernel := k, spaces := s.spaces.erase a })
    | (some t, k) =>
      let s := { s with kernel := k, tables := insert t s.tables }
      if env.pages then (some (a, t), s) else (none, s.destroy (a, t))

/-- The part of `exec_current` after the program is loaded. It does not return, but enters the
program. -/
def enter (s : Exec) (p : Nat) (path : List Char) (x : Nat × Nat)
    (argvCopy envpCopy : List (Option Nat)) : Exec :=
  let old := s.space p
  let s := { s with
    space := Function.update s.space p (some x)
    mmapNext := Function.update s.mmapNext p 0
    name := Function.update s.name p (path.take 31) }
  let s := match old with
    | some y => s.destroy y
    | none => s
  (s.freeCopies argvCopy).freeCopies envpCopy

/-- `exec_current`; a null vector is an empty one. What the loader does after the lookup is about
memory pages. -/
def execCurrent (s : Exec) (path : List Char) (argv envp : List (List Char)) :
    Option (Bool × Exec) :=
  match s.kernel.currentProc with
  | none => some (false, s)
  | some p =>
    let (argvCopy, s) := copyVector env (argv.take 63) s
    let (envpCopy, s) := copyVector env (envp.take 63) s
    match s.createSpace env with
    | (none, s) => some (false, s)
    | (some x, s) => do
      let (node, k) ← s.kernel.find env path
      let s := { s with kernel := k }
      if node.isSome && env.elf then some (true, s.enter p path x argvCopy envpCopy)
      else some (false, s.destroy x)

structure Kept (s s' : Exec) : Prop where
  space : s'.space = s.space
  name : s'.name = s.name
  mmapNext : s'.mmapNext = s.mmapNext
  procs : s'.kernel.procs = s.kernel.procs
  live : s'.live = s.live

def copied (argv envp : List (List Char)) : Nat := (argv.take 63).length + (envp.take 63).length

def NoCopy (s : Exec) (argv envp : List (List Char)) : Prop :=
  ∀ i < copied argv envp, (env.malloc (s.kernel.allocs + i)).filter (· ∉ s.strings) = none

/-- If there is a space, no component that the lookup of the path misses is the name of a new device. -/
def NoDevice (s : Exec) (path : List Char) (argv envp : List (List Char)) : Prop :=
  ∀ x s2, ({ s with kernel := { s.kernel with allocs := s.kernel.allocs + copied argv envp } } :
      Exec).createSpace env = (some x, s2) →
    ∀ m ∈ s2.kernel.misses env path, Kernel.makes env m = false

end Exec

namespace Exec

variable {env : Env} {s s' : Exec} {path : List Char} {argv envp : List (List Char)}

section copies

theorem kstrdup_cases (s : Exec) :
    (env.malloc s.kernel.allocs).filter (· ∉ s.strings) = none ∧
      s.kstrdup env = (none, { s with kernel := { s.kernel with allocs := s.kernel.allocs + 1 } }) ∨
    ∃ a, a ∉ s.strings ∧ (env.malloc s.kernel.allocs).filter (· ∉ s.strings) = some a ∧
      s.kstrdup env = (some a, { s with
        kernel := { s.kernel with allocs := s.kernel.allocs + 1 }
        strings := insert a s.strings }) := by
  cases hf : (env.malloc s.kernel.allocs).filter (· ∉ s.strings) with
  | none =>
    refine Or.inl ⟨rfl, ?_⟩
    simp only [kstrdup, Kernel.kmalloc, hf]
  | some a =>
    have ha : a ∉ s.strings := by simpa using (Option.filter_eq_some_iff.mp hf).2
    refine Or.inr ⟨a, ha, rfl, ?_⟩
    simp only [kstrdup, Kernel.kmalloc, hf]

/-- The copying leaves everything but the strings and the number of allocations. -/
theorem copyVector_eq (vec : List (List Char)) (s : Exec) : (copyVector env vec s).2 =
    { s with
      strings := (copyVector env vec s).2.strings
      kernel := { s.kernel with allocs := s.kernel.allocs + vec.length } } := by
  induction vec generalizing s with
  | nil => rfl
  | cons c vec ih =>
    have hone : (s.kstrdup env).2 = { s with
        strings := (s.kstrdup env).2.strings
        kernel := { s.kernel with allocs := s.kernel.allocs + 1 } } := by
      rcases @kstrdup_cases env s with ⟨-, he⟩ | ⟨a, -, -, he⟩
      · rw [he]
      · rw [he]
    rw [copyVector]
    dsimp only
    rw [ih, hone]
    simp only [List.length_cons, Nat.add_assoc, Nat.add_comm 1]

theorem kstrdup_strings (s : Exec) : s.strings ⊆ (s.kstrdup env).2.strings ∧
    ((s.kstrdup env).2.strings = s.strings ↔
      (env.malloc s.kernel.allocs).filter (· ∉ s.strings) = none) := by
  rcases @kstrdup_cases env s with ⟨hnone, he⟩ | ⟨a, ha, hsome, he⟩
  · rw [he]
    exact ⟨subset_rfl, fun _ => hnone, fun _ => rfl⟩
  · rw [he, hsome]
    refine ⟨Finset.subset_insert _ _, fun heq => ?_, fun hn => by cases hn⟩
    exact absurd (heq ▸ Finset.mem_insert_self a s.strings) ha

/-- Strings are only added; none is when no call gets a block. -/
theorem copyVector_strings (vec : List (List Char)) (s : Exec) :
    s.strings ⊆ (copyVector env vec s).2.strings ∧
      ((copyVector env vec s).2.strings = s.strings ↔
        ∀ i < vec.length, (env.malloc (s.kernel.allocs + i)).filter (· ∉ s.strings) = none) := by
  induction vec generalizing s with
  | nil => exact ⟨subset_rfl, fun _ i hi => absurd hi (Nat.not_lt_zero i), fun _ => rfl⟩
  | cons c vec ih =>
    obtain ⟨hsub, hiff⟩ := @kstrdup_strings env s
    obtain ⟨hsub', hiff'⟩ := ih (s.kstrdup env).2
    have hallocs : (s.kstrdup env).2.kernel.allocs = s.kernel.allocs + 1 := by
      rcases @kstrdup_cases env s with ⟨-, he⟩ | ⟨a, -, -, he⟩
      · rw [he]
      · rw [he]
    rw [copyVector]
    dsimp only
    refine ⟨hsub.trans hsub', fun he i hi => ?_, fun hall => ?_⟩
    · have hfirst : (s.kstrdup env).2.strings = s.strings :=
        Finset.Subset.antisymm (he ▸ hsub') hsub
      cases i with
      | zero => exact hiff.mp hfirst
      | succ i =>
        have hrest := hiff'.mp (he.trans hfirst.symm) i (Nat.lt_of_succ_lt_succ hi)
        rw [hallocs, hfirst] at hrest
        rwa [Nat.add_assoc, Nat.add_comm 1] at hrest
    · have hfirst := hiff.mpr (hall 0 (Nat.succ_pos _))
      rw [← hfirst]
      refine hiff'.mpr fun i hi => ?_
      rw [hallocs, hfirst, Nat.add_assoc, Nat.add_comm 1]
      exact hall (i + 1) (Nat.succ_lt_succ hi)

def copyBoth (env : Env) (s : Exec) (argv envp : List (List Char)) : Exec :=
  (copyVector env (envp.take 63) (copyVector env (argv.take 63) s).2).2

theorem copyBoth_eq (s : Exec) : copyBoth env s argv envp =
    { s with
      strings := (copyBoth env s argv envp).strings
      kernel := { s.kernel with allocs := s.kernel.allocs + copied argv envp } } := by
  rw [copyBoth, copyVector_eq, copyVector_eq]
  simp only [copied, Nat.add_assoc]

theorem copyBoth_strings (s : Exec) :
    (copyBoth env s argv envp).strings = s.strings ↔ NoCopy env s argv envp := by
  obtain ⟨hsub, hiff⟩ := @copyVector_strings env (argv.take 63) s
  obtain ⟨hsub', hiff'⟩ := @copyVector_strings env (envp.take 63) (copyVector env (argv.take 63) s).2
  have hallocs : (copyVector env (argv.take 63) s).2.kernel.allocs =
      s.kernel.allocs + (argv.take 63).length := by rw [copyVector_eq]
  rw [hallocs] at hiff'
  constructor
  · intro he i hi
    have hfirst : (copyVector env (argv.take 63) s).2.strings = s.strings :=
      Finset.Subset.antisymm (he ▸ hsub') hsub
    by_cases hlt : i < (argv.take 63).length
    · exact hiff.mp hfirst i hlt
    · have hrest := hiff'.mp (he.trans hfirst.symm) (i - (argv.take 63).length) (by
        rw [copied] at hi
        omega)
      rwa [hfirst, Nat.add_assoc, Nat.add_sub_cancel' (Nat.not_lt.mp hlt)] at hrest
  · intro hno
    have hfirst := hiff.mpr fun i hi => hno i (by rw [copied]; omega)
    rw [copyBoth, ← hfirst]
    refine hiff'.mpr fun i hi => ?_
    rw [hfirst, Nat.add_assoc]
    exact hno _ (by rw [copied]; omega)

end copies

section space

/-- A space that cannot be created leaves no block; one that is created adds its two records. -/
theorem createSpace_cases (s : Exec) :
    (∃ n, s.createSpace env = (none, { s with kernel := { s.kernel with allocs := n } })) ∨
    ∃ x, x.1 ∉ s.spaces ∧ x.2 ∉ s.tables ∧ s.createSpace env = (some x, { s with
      kernel := { s.kernel with allocs := s.kernel.allocs + 2 }
      spaces := insert x.1 s.spaces
      tables := insert x.2 s.tables }) := by
  cases hf : (env.malloc s.kernel.allocs).filter (· ∉ s.spaces) with
  | none =>
    refine Or.inl ⟨s.kernel.allocs + 1, ?_⟩
    simp only [createSpace, Kernel.kmalloc, hf]
  | some a =>
    have ha : a ∉ s.spaces := by simpa using (Option.filter_eq_some_iff.mp hf).2
    cases ht : (env.malloc (s.kernel.allocs + 1)).filter (· ∉ s.tables) with
    | none =>
      refine Or.inl ⟨s.kernel.allocs + 2, ?_⟩
      simp only [createSpace, Kernel.kmalloc, hf, ht, Finset.erase_insert ha]
    | some t =>
      have hb : t ∉ s.tables := by simpa using (Option.filter_eq_some_iff.mp ht).2
      cases hp : env.pages with
      | true =>
        refine Or.inr ⟨(a, t), ha, hb, ?_⟩
        simp only [createSpace, Kernel.kmalloc, hf, ht, hp, if_true]
      | false =>
        refine Or.inl ⟨s.kernel.allocs + 2, ?_⟩
        simp only [createSpace, Kernel.kmalloc, hf, ht, hp, destroy, Bool.false_eq_true, if_false,
          Finset.erase_insert ha, Finset.erase_insert hb]

/-- What a lookup leaves alone: it closes the handles it opens. -/
theorem find_rest {k k' : Kernel} {r : Option Nat} (h : k.find env path = some (r, k')) :
    (k'.tasks, k'.procs, k'.files, k'.mounts, k'.blocks, k'.liveHandles) =
      (k.tasks, k.procs, k.files, k.mounts, k.blocks, k.liveHandles) := by
  generalize hx : (k.tasks, k.procs, k.files, k.mounts, k.blocks, k.liveHandles) = x
  have rule : Kernel.SearchRule env (fun _ _ _ => True)
      (fun q => (q.tasks, q.procs, q.files, q.mounts, q.blocks, q.liveHandles) = x)
      (fun _ _ => True) (fun _ _ => True) := by
    refine ⟨fun _ => trivial, fun _ _ => trivial, fun _ _ => trivial, fun _ => trivial,
      fun _ => trivial, fun _ _ _ => trivial, fun _ _ _ => trivial, fun hk => ⟨hk, trivial⟩,
      fun _ hk => ⟨hk, trivial⟩, ?_, ?_⟩
    · intro q name dir n q' dev hq _ _ hc
      obtain ⟨-, rfl⟩ := Kernel.createNode_eq env hc
      exact ⟨hq, trivial⟩
    · intro q q' n fs found _ _ _ _ _ hq _
      refine ⟨?_, trivial⟩
      rw [← hq]
      cases found with
      | false =>
        simp only [Kernel.asked, Kernel.opened, Kernel.liveHandles, List.map_cons, List.sum_cons,
          Kernel.opening, Bool.false_eq_true, if_false, zero_add]
      | true =>
        simp only [Kernel.asked, Kernel.opened, Kernel.fsClose, Kernel.liveHandles, List.map_cons,
          List.sum_cons, Kernel.opening, if_true, neg_add_cancel_left]
  exact (rule.find hx (Kernel.findToOk_true (fun _ _ _ => trivial) _ _ _) h).1

end space

section failure

theorem execCurrent_cases (h : s.execCurrent env path argv envp = some (false, s')) :
    s.kernel.currentProc = none ∧ s' = s ∨ s.kernel.currentProc ≠ none ∧
    ((∃ n, (copyBoth env s argv envp).createSpace env = (none, { copyBoth env s argv envp with
        kernel := { (copyBoth env s argv envp).kernel with allocs := n } }) ∧
      s' = { copyBoth env s argv envp with
        kernel := { (copyBoth env s argv envp).kernel with allocs := n } }) ∨
    ∃ x s2 r k', (copyBoth env s argv envp).createSpace env = (some x, s2) ∧
      s2.kernel.find env path = some (r, k') ∧
      s' = { copyBoth env s argv envp with kernel := k' }) := by
  unfold execCurrent at h
  cases hp : s.kernel.currentProc with
  | none =>
    simp only [hp, Option.some.injEq, Prod.mk.injEq, true_and] at h
    exact Or.inl ⟨rfl, h.symm⟩
  | some p =>
    simp only [hp] at h
    refine Or.inr ⟨Option.some_ne_none p, ?_⟩
    change (match (copyBoth env s argv envp).createSpace env with
      | (none, s) => some (false, s)
      | (some x, s) => _) = _ at h
    rcases @createSpace_cases env (copyBoth env s argv envp) with ⟨n, he⟩ | ⟨x, hx, hy, he⟩
    · rw [he] at h
      simp only [Option.some.injEq, Prod.mk.injEq, true_and] at h
      exact Or.inl ⟨n, he, h.symm⟩
    · rw [he] at h
      simp only [Option.bind_eq_bind, Option.bind_eq_some_iff] at h
      obtain ⟨⟨r, k'⟩, hf, h⟩ := h
      refine Or.inr ⟨x, _, r, k', he, hf, ?_⟩
      split at h
      · cases h
      · simp only [Option.some.injEq, Prod.mk.injEq, true_and] at h
        rw [← h]
        simp only [destroy, Finset.erase_insert hx, Finset.erase_insert hy]

/-- The copies are all that differs before the space is created. -/
theorem NoCopy.copyBoth (h : NoCopy env s argv envp) : copyBoth env s argv envp =
    { s with kernel := { s.kernel with allocs := s.kernel.allocs + copied argv envp } } := by
  rw [copyBoth_eq, (copyBoth_strings s).mpr h]

theorem Kept.noCopy {k : Kernel} (h : Kept s { copyBoth env s argv envp with kernel := k }) :
    NoCopy env s argv envp :=
  (copyBoth_strings s).mp (congrArg Live.strings h.live)

/-- A failed call leaves processes and heap as they were exactly when it made no copy and the lookup
made no device: the copies are never freed. -/
theorem kept_iff (h : s.execCurrent env path argv envp = some (false, s')) :
    Kept s s' ↔ s.kernel.currentProc = none ∨
      NoCopy env s argv envp ∧ NoDevice env s path argv envp := by
  rcases execCurrent_cases h with ⟨hp, rfl⟩ | ⟨hp, ⟨n, he, rfl⟩ | ⟨x, s2, r, k', he, hf, rfl⟩⟩
  · exact ⟨fun _ => Or.inl hp, fun _ => ⟨rfl, rfl, rfl, rfl, rfl⟩⟩
  · constructor
    · intro hk
      have hno := hk.noCopy
      refine Or.inr ⟨hno, fun x s2 hc => ?_⟩
      rw [← hno.copyBoth, he] at hc
      cases hc
    · rintro (hnone | ⟨hno, -⟩)
      · exact absurd hnone hp
      · rw [hno.copyBoth]
        exact ⟨rfl, rfl, rfl, rfl, rfl⟩
  · have hs2 : s2.kernel = { s.kernel with allocs := s.kernel.allocs + copied argv envp + 2 } := by
      rcases @createSpace_cases env (Exec.copyBoth env s argv envp) with ⟨n, he'⟩ | ⟨y, -, -, he'⟩
      · rw [he] at he'
        cases he'
      · rw [he] at he'
        rw [(Prod.mk.inj he').2, copyBoth_eq]
    have hrest := find_rest hf
    rw [hs2] at hrest
    simp only [Prod.mk.injEq] at hrest
    obtain ⟨htasks, hprocs, hfiles, hmounts, hblocks, hhandles⟩ := hrest
    constructor
    · intro hk
      have hno := hk.noCopy
      refine Or.inr ⟨hno, fun y s3 hc => ?_⟩
      rw [← hno.copyBoth, he] at hc
      cases hc
      rw [← Kernel.find_unmade_iff hf, hs2]
      exact ⟨congrArg Live.nodes hk.live, congrArg Live.devices hk.live⟩
    · rintro (hnone | ⟨hno, hdev⟩)
      · exact absurd hnone hp
      · rw [hno.copyBoth] at he ⊢
        have hmade : Kernel.Unmade s2.kernel k' := (Kernel.find_unmade_iff hf).mpr (hdev x s2 he)
        rw [hs2] at hmade
        obtain ⟨hnodes, hdevices⟩ := hmade
        refine ⟨rfl, rfl, rfl, hprocs, ?_⟩
        simp only [live, htasks, hprocs, hnodes, hfiles, hmounts, hblocks, hdevices, hhandles]
        rfl

def initial : Exec := ⟨.boot, ∅, ∅, ∅, fun _ => none, fun _ => [], fun _ => 0⟩

/-- A program that is not there, without arguments. -/
theorem kept_iff_no_arguments : ∃ s', initial.execCurrent Kernel.freshEnv "/ls".toList [] [] =
    some (false, s') ∧ Kept initial s' := by
  have hrun : (initial.execCurrent Kernel.freshEnv "/ls".toList [] []).any (fun r => !r.1) = true := by
    decide +kernel
  obtain ⟨⟨b, s'⟩, he, hb⟩ := Kernel.any_exists hrun
  have hfalse : b = false := by simpa using hb
  subst hfalse
  refine ⟨s', he, (kept_iff he).mpr (Or.inr ⟨fun i hi => absurd hi (Nat.not_lt_zero i), ?_⟩)⟩
  intro x s2 hc
  have hs2 : s2.kernel = { Kernel.boot with allocs := 2 } := by
    cases hc
    rfl
  rw [hs2]
  decide +kernel

/-- With one argument, which is copied and stays. -/
theorem copy_leaked : ¬ ∀ (env : Env) (s s' : Exec) (path : List Char) (argv envp : List (List Char)),
    s.execCurrent env path argv envp = some (false, s') → Kept s s' := by
  intro hall
  have hrun : (initial.execCurrent Kernel.freshEnv "/ls".toList ["ls".toList] []).any
      (fun r => !r.1 && r.2.strings == {1}) = true := by decide +kernel
  obtain ⟨⟨b, s'⟩, he, hb⟩ := Kernel.any_exists hrun
  simp only [Bool.and_eq_true, Bool.not_eq_true', beq_iff_eq] at hb
  obtain ⟨rfl, hstr⟩ := hb
  have hlive := (hall _ _ _ _ _ _ he).live
  have hsame : s'.strings = ∅ := congrArg Live.strings hlive
  rw [hsame] at hstr
  exact absurd hstr (by decide)

end failure

end Exec

end LosTacOS.Os
