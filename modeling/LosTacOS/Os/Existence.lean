import LosTacOS.Os.Redirect

/-! `sys_open` asks the mount that covers a path first and then does not come back to the tree. -/
namespace LosTacOS.Os.Kernel

variable {env : Env} {k k' ka ko ks : Kernel} {path : List Char} {p : Nat} {i : Fin maxFds}

/-- The mount, its file system and the rest of the path, when `sys_open` leaves the path to it. -/
def answering (k : Kernel) (path : List Char) : Option (Nat × FileSystem × List Char) := do
  let m ← k.findMount path
  let fs ← (k.mounts.cell m).fs
  let sub := (path.drop (k.mounts.cell m).path.length).dropWhile (· = '/')
  if fs.has .open ∧ sub ≠ [] then some (m, fs, sub) else none

theorem sysOpen_eq_openNode {flags : Nat} {a : List Char} (ha : k.absPath env path = some a)
    (h : k.answering a = none) : k.sysOpen env path flags = k.openNode env a flags := by
  unfold sysOpen
  rw [ha]
  unfold answering at h
  simp only [Option.bind_eq_bind, Option.bind_some] at h ⊢
  cases hm : k.findMount a with
  | none => rfl
  | some m =>
    rw [hm, Option.bind_some] at h
    cases hfs : (k.mounts.cell m).fs with
    | none => simp only [hfs]
    | some fs =>
      rw [hfs, Option.bind_some] at h
      simp only [hfs]
      apply if_neg
      intro hc
      rw [if_pos hc] at h
      cases h

theorem sysOpen_eq_openMounted {flags m : Nat} {a sub : List Char} {fs : FileSystem}
    (ha : k.absPath env path = some a) (h : k.answering a = some (m, fs, sub)) :
    k.sysOpen env path flags = k.openMounted env m fs sub := by
  unfold sysOpen
  rw [ha]
  unfold answering at h
  simp only [Option.bind_eq_bind, Option.bind_some] at h ⊢
  cases hm : k.findMount a with
  | none =>
    rw [hm] at h
    cases h
  | some m' =>
    rw [hm, Option.bind_some] at h
    cases hfs : (k.mounts.cell m').fs with
    | none =>
      rw [hfs] at h
      cases h
    | some fs' =>
      rw [hfs, Option.bind_some] at h
      by_cases hc : fs'.has .open ∧
          (a.drop (k.mounts.cell m').path.length).dropWhile (· = '/') ≠ []
      · rw [if_pos hc] at h
        cases h
        simp only [hfs]
        exact if_pos hc
      · rw [if_neg hc] at h
        cases h

theorem firstFree_of_procSide (h : k'.procSide = k.procSide) (p start : Nat) :
    k'.firstFree p start = k.firstFree p start := by
  unfold firstFree
  simp only [entry_of_procSide h]

theorem openFd_setEntry {e : FdEntry} (hp : k.currentProc = some p) (ht : e.type ≠ .none) :
    (k.setEntry p i e).openFd i.val = some (p, i) := by
  have hcur : (k.setEntry p i e).currentProc = some p := hp
  have hentry : (k.setEntry p i e).entry p i = e := by
    rw [setEntry_entry, if_pos ⟨rfl, rfl⟩]
  unfold openFd getFdEntry
  rw [fdIndex_coe, hcur]
  apply Option.filter_eq_some_iff.mpr
  constructor
  · rfl
  · simpa [hentry] using ht

theorem allocFd_free {node : Option Nat} (hp : k.currentProc = some p)
    (hi : k.firstFree p 3 = some i) : k.allocFd node = (some (p, i), k.setEntry p i
      { FdEntry.zero with node, type := if node.isSome then .file else .none }) := by
  unfold allocFd
  rw [hp]
  simp only [hi]

/-- A program with devfs on `/dev` and a directory made below it. -/
def devRun : List (Env × Event) :=
  [(freshEnv, .createDirPath "/dev".toList), (freshEnv, .mount "/dev".toList (some .devfs)),
    (freshEnv, .createDirPath "/dev/a".toList), (freshEnv, .spawn []), (freshEnv, .schedule 0)]

end LosTacOS.Os.Kernel
