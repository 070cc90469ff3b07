import LosTacOS.Lib.Drain
import LosTacOS.Os.Existence
import Mathlib

/-! Listing a directory. `sys_readdir` keeps its place in the descriptor and gives one child a call,
`sys_getdents64` packs as many children as fit into the buffer and keeps no place. -/
namespace LosTacOS.Os

structure Dirent where
  ino : Nat
  off : Nat
  reclen : Nat
  type : Nat
  name : List Char
deriving DecidableEq

def dtChr : Nat := 2

def dtDir : Nat := 4

def dtBlk : Nat := 6

def dtReg : Nat := 8

def dtLnk : Nat := 10

def direntSize : Nat := 280

/-- `rec_len` of a name: the fields before it, its terminator, rounded up to eight. -/
def recLen (name : List Char) : Nat := (16 + 2 + 1 + name.length + 1 + 7) / 8 * 8

namespace Kernel

variable (env : Env)

def childDirent (k : Kernel) (offset c : Nat) : Dirent :=
  ⟨0, offset + 1, direntSize, if (k.node c).directory then dtDir else dtReg,
    (k.node c).name.take 255⟩

def taskDirent (k : Kernel) (offset t : Nat) : Dirent :=
  ⟨(k.task t).pid, offset + 1, direntSize, dtDir, ((k.task t).pid.repr.toList).take 255⟩

def listsTasks (k : Kernel) (dir : Nat) : Bool :=
  (k.node dir).filesystem = some .procfs || (k.node dir).name = "proc".toList

def taskAt (k : Kernel) : Nat → Nat → Option Nat → Option (Option Nat)
  | _, _, none => some none
  | 0, _, some _ => none
  | _ + 1, 0, some t => some (some t)
  | n + 1, i + 1, some t => k.taskAt n i (k.task t).next

def direntAt (k : Kernel) (dir offset : Nat) : Option (Option Dirent) :=
  match (k.node dir).children[offset]? with
  | some c => some (some (k.childDirent offset c))
  | none =>
    if k.listsTasks dir then
      (k.taskAt env.fuel (offset - (k.node dir).children.length) k.head).map fun t =>
        t.map (k.taskDirent offset)
    else some none

/-- `sys_readdir` on a directory node: the result, the entry that is filled in and the kernel
after. -/
def readdirNode (k : Kernel) (fd : Int) : Option (Int × Option Dirent × Kernel) :=
  match k.openFd fd with
  | none => some (-1, none, k)
  | some (p, i) =>
    let e := k.entry p i
    match e.node with
    | none => some (-1, none, k)
    | some n =>
      if (k.node n).directory then do
        match ← k.direntAt env n e.offset with
        | some d => some (1, some d, k.setEntry p i { e with offset := e.offset + 1 })
        | none => some (0, none, k)
      else some (-1, none, k)

/-- The records that the loop of `sys_getdents64` writes, each with its place in the buffer. -/
def packDents (k : Kernel) (count : Nat) : List Nat → Nat → Nat → List (Nat × Dirent)
  | [], _, _ => []
  | c :: cs, offset, ino =>
    let name := (k.node c).name
    if count < offset + recLen name then []
    else
      (offset, ⟨ino, offset + recLen name, recLen name % 2^16,
        if (k.node c).directory then dtDir else dtReg, name⟩) ::
        k.packDents count cs (offset + recLen name) (ino + 1)

/-- `sys_getdents64` with a buffer: the result and the records. -/
def sysGetdents64 (k : Kernel) (fd : Int) (count : Nat) : Int × List (Nat × Dirent) :=
  match k.openFd fd with
  | none => (-1, [])
  | some (p, i) =>
    match (k.entry p i).node with
    | none => (-1, [])
    | some n =>
      if (k.node n).directory then
        let dents := if count = 0 then [] else k.packDents count (k.node n).children 0 1
        (((dents.map fun x => recLen x.2.name).sum : Nat), dents)
      else (-1, [])

/-- `readdir` of the library, which takes a result that is not positive for the end. -/
def readdirStep (fd : Int) (k : Kernel) : Option (Option (Dirent × Kernel)) :=
  (k.readdirNode env fd).map fun x => x.2.1.map fun d => (d, x.2.2)

def getdentsStep (fd : Int) (count : Nat) (k : Kernel) :
    Option (Option ((Int × List (Nat × Dirent)) × Kernel)) :=
  let x := k.sysGetdents64 fd count
  if x.1 = 0 then some none else some (some (x, k))

/-- The values of `d_type` that are right for a node. -/
def TypeRight (n : Node) (type : Nat) : Prop :=
  match n.type with
  | .symlink => type = dtLnk
  | .dev => type = dtChr ∨ type = dtBlk
  | _ => type = if n.directory then dtDir else dtReg

def Delivers (k : Kernel) (children : List Nat) (dents : List Dirent) : Prop :=
  List.Forall₂ (fun c d => d.name = (k.node c).name.take 255 ∧ TypeRight (k.node c) d.type)
    children dents

def Packed : Nat → List (Nat × Dirent) → Nat → Prop
  | start, [], stop => start = stop
  | start, x :: xs, stop =>
    x.1 = start ∧ start % 8 = 0 ∧ x.2.reclen % 8 = 0 ∧ Packed (start + x.2.reclen) xs stop

def ReaddirRight (k : Kernel) (fd : Int) (dir : Nat) : Prop :=
  ∃ n dents, drain (readdirStep env fd) n k = some dents ∧
    k.Delivers (k.node dir).children dents

def GetdentsRight (k : Kernel) (fd : Int) (count dir : Nat) : Prop :=
  ∃ n answers, drain (getdentsStep fd count) n k = some answers ∧
    k.Delivers (k.node dir).children (answers.flatMap fun x => x.2.map Prod.snd) ∧
    ∀ x ∈ answers, ∃ stop : Nat, x.1 = stop ∧ Packed 0 x.2 stop

variable {env} {k : Kernel} {fd : Int} {p dir : Nat} {i : Fin maxFds}

structure DirFd (k : Kernel) (fd : Int) (p : Nat) (i : Fin maxFds) (dir : Nat) : Prop where
  opened : k.openFd fd = some (p, i)
  node : (k.entry p i).node = some dir
  directory : (k.node dir).directory = true

def seekTo (k : Kernel) (p : Nat) (i : Fin maxFds) (offset : Nat) : Kernel :=
  k.setEntry p i { k.entry p i with offset }

theorem setEntry_same (k : Kernel) (p : Nat) (i : Fin maxFds) :
    k.setEntry p i (k.entry p i) = k := by
  simp [setEntry, setProc, proc, entry, Arena.set]

theorem seekTo_entry (k : Kernel) (p : Nat) (i : Fin maxFds) (offset : Nat) :
    (k.seekTo p i offset).entry p i = { k.entry p i with offset } := by
  rw [seekTo, setEntry_entry, if_pos ⟨rfl, rfl⟩]

theorem seekTo_seekTo (k : Kernel) (p : Nat) (i : Fin maxFds) (a b : Nat) :
    (k.seekTo p i a).setEntry p i { (k.seekTo p i a).entry p i with offset := b } =
      k.seekTo p i b := by
  rw [seekTo_entry, seekTo, setEntry_setEntry]
  rfl

theorem DirFd.seekTo (hd : k.DirFd fd p i dir) (offset : Nat) :
    (k.seekTo p i offset).DirFd fd p i dir where
  opened := by
    obtain ⟨hp, ht⟩ := openFd_current hd.opened
    rw [fdIndex_val (openFd_index hd.opened)]
    exact openFd_setEntry hp ht
  node := by
    rw [seekTo_entry]
    exact hd.node
  directory := hd.directory

theorem taskAt_seekTo (offset n : Nat) (j : Nat) (t : Option Nat) :
    (k.seekTo p i offset).taskAt n j t = k.taskAt n j t := by
  induction n generalizing j t with
  | zero => cases t <;> rfl
  | succ n ih =>
    cases t with
    | none => rfl
    | some t =>
      cases j with
      | zero => rfl
      | succ j => exact ih j _

/-- The entries of a directory do not depend on a descriptor. -/
theorem direntAt_seekTo (offset place : Nat) :
    (k.seekTo p i offset).direntAt env dir place = k.direntAt env dir place := by
  unfold direntAt
  rw [taskAt_seekTo]
  rfl

theorem DirFd.readdirNode_eq (hd : k.DirFd fd p i dir) :
    k.readdirNode env fd = (k.direntAt env dir (k.entry p i).offset).map fun d =>
      match d with
      | some d => (1, some d, k.setEntry p i { k.entry p i with
          offset := (k.entry p i).offset + 1 })
      | none => (0, none, k) := by
  rw [readdirNode, hd.opened]
  dsimp only
  rw [hd.node]
  dsimp only
  rw [if_pos hd.directory]
  cases k.direntAt env dir (k.entry p i).offset with
  | none => rfl
  | some d =>
    cases d with
    | none => rfl
    | some d => rfl

/-- With its result for the answer, `sysReaddir` leaves the same kernel. -/
theorem DirFd.sysReaddir_eq (hd : k.DirFd fd p i dir) {r : Int} {d : Option Dirent} {k' : Kernel}
    (h : k.readdirNode env fd = some (r, d, k')) :
    k.sysReaddir { env with answer := r } fd = (r, k') := by
  rw [hd.readdirNode_eq] at h
  obtain ⟨found, -, heq⟩ := Option.map_eq_some_iff.mp h
  rw [sysReaddir, hd.opened]
  dsimp only
  rw [hd.node]
  dsimp only
  rw [if_pos hd.directory]
  cases found with
  | none =>
    cases heq
    rfl
  | some found =>
    cases heq
    simp [hd.node]

/-- A call of `sys_readdir` gives the entry at its offset and moves on. -/
theorem DirFd.readdirStep_eq (hd : k.DirFd fd p i dir) (offset : Nat) :
    readdirStep env fd (k.seekTo p i offset) = (k.direntAt env dir offset).map fun d =>
      d.map fun d => (d, k.seekTo p i (offset + 1)) := by
  have hoffset : ((k.seekTo p i offset).entry p i).offset = offset := by rw [seekTo_entry]
  rw [readdirStep, (hd.seekTo offset).readdirNode_eq, hoffset, direntAt_seekTo, seekTo_seekTo]
  cases k.direntAt env dir offset with
  | none => rfl
  | some d =>
    cases d with
    | none => rfl
    | some d => rfl

def childDirents (k : Kernel) (dir : Nat) : List Dirent :=
  (k.node dir).children.mapIdx k.childDirent

theorem childDirents_length (k : Kernel) (dir : Nat) :
    (k.childDirents dir).length = (k.node dir).children.length := List.length_mapIdx

theorem DirFd.gives (hd : k.DirFd fd p i dir) :
    Drain.Gives (readdirStep env fd) (k.seekTo p i) (k.childDirents dir) := by
  intro j hj
  have hchild : j < (k.node dir).children.length := by
    rw [← childDirents_length]
    exact hj
  have hat : k.direntAt env dir j = some (some (k.childDirent j (k.node dir).children[j])) := by
    rw [direntAt, List.getElem?_eq_getElem hchild]
  rw [hd.readdirStep_eq, hat]
  simp [childDirents]

/-- Behind the children is the end, or else the processes. -/
theorem direntAt_length (k : Kernel) (dir : Nat) :
    k.direntAt env dir (k.node dir).children.length = some none ↔
      k.listsTasks dir = false ∨ k.head = none := by
  rw [direntAt, List.getElem?_eq_none (Nat.le_refl _)]
  dsimp only
  cases hl : k.listsTasks dir with
  | false => simp
  | true =>
    rw [if_pos rfl, Nat.sub_self]
    cases hh : k.head with
    | none => cases env.fuel <;> simp [taskAt]
    | some t => cases env.fuel <;> simp [taskAt]

/-- A type by the directory flag is right for a plain file or directory. -/
theorem typeRight_iff (n : Node) : TypeRight n (if n.directory then dtDir else dtReg) ↔
    n.type ≠ .symlink ∧ n.type ≠ .dev := by
  unfold TypeRight
  cases n.type <;> cases n.directory <;> simp [dtDir, dtReg, dtLnk, dtChr, dtBlk]

theorem delivers_iff (k : Kernel) (dir : Nat) :
    k.Delivers (k.node dir).children (k.childDirents dir) ↔
      ∀ c ∈ (k.node dir).children, (k.node c).type ≠ .symlink ∧ (k.node c).type ≠ .dev := by
  rw [Delivers, List.forall₂_iff_get]
  constructor
  · rintro ⟨-, h⟩ c hc
    obtain ⟨j, hj, rfl⟩ := List.mem_iff_getElem.mp hc
    have hright := (h j hj (by rw [childDirents_length]; exact hj)).2
    apply (typeRight_iff _).mp
    simpa [childDirents, childDirent] using hright
  · intro h
    refine ⟨(childDirents_length k dir).symm, fun j hj _ => ?_⟩
    have hright := (typeRight_iff _).mpr (h _ (List.getElem_mem hj))
    simpa [childDirents, childDirent] using hright

/-- `sys_readdir` lists a directory as it should exactly when the directory does not list the
processes too and no child is a link or a device. -/
theorem DirFd.readdir_right_iff (hd : k.DirFd fd p i dir) (hfresh : (k.entry p i).offset = 0) :
    k.ReaddirRight env fd dir ↔ (k.listsTasks dir = false ∨ k.head = none) ∧
      ∀ c ∈ (k.node dir).children, (k.node c).type ≠ .symlink ∧ (k.node c).type ≠ .dev := by
  have hstart : k.seekTo p i 0 = k := by
    rw [Kernel.seekTo, ← hfresh]
    exact setEntry_same k p i
  have hend : readdirStep env fd (k.seekTo p i (k.childDirents dir).length) = some none ↔
      k.listsTasks dir = false ∨ k.head = none := by
    have hlast : k.direntAt env dir (k.node dir).children.length = some none ↔
        k.listsTasks dir = false ∨ k.head = none := direntAt_length k dir
    rw [← hlast, hd.readdirStep_eq, childDirents_length]
    cases k.direntAt env dir (k.node dir).children.length with
    | none => simp
    | some d => cases d <;> simp
  rw [← delivers_iff, ← hend]
  constructor
  · rintro ⟨n, dents, hdrain, hdelivers⟩
    rw [← hstart] at hdrain
    obtain ⟨m, rest, hm, rfl⟩ := Drain.prefix_of_gives hd.gives hdrain
    have hrest : rest = [] := by
      have hlength := hdelivers.length_eq
      rw [List.length_append, childDirents_length] at hlength
      exact List.eq_nil_of_length_eq_zero (by omega)
    subst hrest
    rw [List.append_nil] at hdelivers
    exact ⟨Drain.end_of_nil hm, hdelivers⟩
  · rintro ⟨hnone, hdelivers⟩
    have hall := Drain.of_gives hd.gives hnone
    rw [hstart] at hall
    exact ⟨_, _, hall, hdelivers⟩

section records

theorem recLen_pos (name : List Char) : 0 < recLen name := by
  rw [recLen]
  omega

/-- The records lie one behind the other, each from a multiple of eight. -/
theorem packDents_packed (k : Kernel) (count : Nat) (cs : List Nat) (start ino : Nat)
    (hshort : ∀ c ∈ cs, recLen (k.node c).name < 2^16) (hstart : start % 8 = 0) :
    Packed start (k.packDents count cs start ino)
      (start + ((k.packDents count cs start ino).map fun x => recLen x.2.name).sum) := by
  induction cs generalizing start ino with
  | nil => rfl
  | cons c cs ih =>
    have hlen : recLen (k.node c).name % 2^16 = recLen (k.node c).name :=
      Nat.mod_eq_of_lt (hshort c List.mem_cons_self)
    have height : recLen (k.node c).name % 8 = 0 := by
      rw [recLen]
      omega
    rw [packDents]
    by_cases hfull : count < start + recLen (k.node c).name
    · rw [if_pos hfull]
      rfl
    · rw [if_neg hfull]
      have hrest := ih (start + recLen (k.node c).name) (ino + 1)
        (fun x hx => hshort x (List.mem_cons_of_mem c hx)) (by omega)
      rw [List.map_cons, List.sum_cons, ← Nat.add_assoc]
      refine ⟨rfl, hstart, ?_, ?_⟩
      · rw [hlen]
        exact height
      · rw [hlen]
        exact hrest

theorem DirFd.sysGetdents64_eq (hd : k.DirFd fd p i dir) (count : Nat) :
    k.sysGetdents64 fd count =
      let dents := if count = 0 then [] else k.packDents count (k.node dir).children 0 1
      ((((dents.map fun x => recLen x.2.name).sum : Nat) : Int), dents) := by
  rw [sysGetdents64, hd.opened]
  dsimp only
  rw [hd.node]
  dsimp only
  rw [if_pos hd.directory]

/-- What a call of `sys_getdents64` gives is a sequence of aligned records that fills its result,
for names of up to 255 bytes. -/
theorem DirFd.getdents_packed (hd : k.DirFd fd p i dir) (count : Nat)
    (hnames : ∀ c ∈ (k.node dir).children, (k.node c).name.length ≤ 255) :
    ∃ stop : Nat, (k.sysGetdents64 fd count).1 = stop ∧
      Packed 0 (k.sysGetdents64 fd count).2 stop := by
  have hshort : ∀ c ∈ (k.node dir).children, recLen (k.node c).name < 2^16 := by
    intro c hc
    have hname := hnames c hc
    rw [recLen]
    omega
  rw [hd.sysGetdents64_eq]
  dsimp only
  split_ifs with hcount
  · exact ⟨0, rfl, rfl⟩
  · have hpacked := packDents_packed k count _ 0 1 hshort rfl
    rw [Nat.zero_add] at hpacked
    exact ⟨_, rfl, hpacked⟩

/-- `sys_getdents64` keeps no place: with a child that fits it never comes to the end. -/
theorem DirFd.getdents_right_iff (hd : k.DirFd fd p i dir) {count : Nat}
    (hfits : ∀ c ∈ (k.node dir).children, recLen (k.node c).name ≤ count) :
    k.GetdentsRight fd count dir ↔ (k.node dir).children = [] := by
  cases hc : (k.node dir).children with
  | nil =>
    have hstep : getdentsStep fd count k = some none := by
      rw [getdentsStep, hd.sysGetdents64_eq, hc]
      simp [packDents]
    simp only [GetdentsRight, hc, iff_true]
    exact ⟨1, [], Drain.at_end hstep, List.Forall₂.nil, by simp⟩
  | cons c cs =>
    rw [hc] at hfits
    have hroom := hfits c List.mem_cons_self
    have hpos := recLen_pos (k.node c).name
    have hstep : getdentsStep fd count k = some (some (k.sysGetdents64 fd count, k)) := by
      rw [getdentsStep, if_neg]
      rw [hd.sysGetdents64_eq, hc, if_neg (by omega), packDents]
      rw [if_neg (by omega)]
      simp only [List.map_cons, List.sum_cons]
      omega
    simp only [reduceCtorEq, iff_false]
    rintro ⟨n, answers, hdrain, -⟩
    rw [Drain.never_ends hstep] at hdrain
    cases hdrain

end records

/-- When the two ways to list a directory keep their promise. -/
theorem listing_right_iff (hd : k.DirFd fd p i dir) (hfresh : (k.entry p i).offset = 0)
    {count : Nat} (hfits : ∀ c ∈ (k.node dir).children, recLen (k.node c).name ≤ count) :
    (k.ReaddirRight env fd dir ↔ (k.listsTasks dir = false ∨ k.head = none) ∧
        ∀ c ∈ (k.node dir).children, (k.node c).type ≠ .symlink ∧ (k.node c).type ≠ .dev) ∧
      (k.GetdentsRight fd count dir ↔ (k.node dir).children = []) :=
  ⟨hd.readdir_right_iff hfresh, hd.getdents_right_iff hfits⟩

theorem descriptors_neZero : NeZero maxFds := ⟨by decide⟩

attribute [local instance] descriptors_neZero in
def listedRoot : Kernel :=
  ((boot.linkNew 1 "a".toList false 0).setEntry 0 3
    { FdEntry.zero with type := .file, node := some 0 })

theorem listedRoot_fd : listedRoot.DirFd 3 0 3 0 := ⟨by decide, by decide, by decide⟩

theorem listing_right_root :
    listedRoot.ReaddirRight quietEnv 3 0 ∧ ¬ listedRoot.GetdentsRight 3 32 0 := by
  have hright := @listing_right_iff quietEnv _ _ _ _ _ listedRoot_fd (by decide) 32 (by decide)
  exact ⟨hright.1.mpr (by decide), fun h => absurd (hright.2.mp h) (by decide)⟩

/-- The root with one file: `sys_getdents64` gives it again and again. -/
theorem getdents_never_ends : ¬ ∀ (k : Kernel) (fd : Int) (p dir : Nat) (i : Fin maxFds)
    (count : Nat), k.DirFd fd p i dir → (k.entry p i).offset = 0 → k.listsTasks dir = false →
    (∀ c ∈ (k.node dir).children, recLen (k.node c).name ≤ count) →
    k.GetdentsRight fd count dir := by
  intro h
  have hright := h listedRoot 3 0 0 3 32 listedRoot_fd (by decide) (by decide) (by decide)
  rw [listedRoot_fd.getdents_right_iff (by decide)] at hright
  revert hright
  decide

end Kernel

end LosTacOS.Os
