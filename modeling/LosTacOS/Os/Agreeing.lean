import LosTacOS.Os.Dispatch

/-! Whether a path exists. `sys_access` and `sys_stat` search the tree; `sys_open` asks the mount that
covers the path first and then does not come back to the tree. -/
namespace LosTacOS.Os.Kernel

variable {env : Env} {k ka ko ks q : Kernel} {path a text : List Char} {p : Nat} {i : Fin maxFds}

section seen

/-- What the tree makes of a path: a node in the state then, a component that is missing, or a link
that leads nowhere. -/
inductive Seen where
  | node (n : Nat) (k : Kernel)
  | miss (m : Miss)
  | lost

def seenIn (env : Env) (find : Finder) : List (List Char × Option (List Char)) → Nat → Kernel → Seen
  | [], n, k => .node n k
  | (part, rest) :: ps, n, k =>
    if cut part = [] ∨ cut part = ['.'] then seenIn env find ps n k
    else if cut part = ['.', '.'] then seenIn env find ps ((k.node n).parent.getD n) k
    else
      match k.findIn n (cut part) with
      | none => .miss ⟨k, n, part, rest⟩
      | some c =>
        match followLinks env find 8 c k with
        | some (some c, k) => seenIn env find ps c k
        | _ => .lost

def seen (env : Env) (k : Kernel) (path : List Char) : Seen :=
  match path with
  | [] => .node k.root k
  | '/' :: rest =>
    seenIn env (findTo env (env.fuel - 1)) (parts (rest.length + 1) rest) k.root k
  | _ => seenIn env (findTo env (env.fuel - 1)) (parts (path.length + 1) path) k.getProcessCwd k

def Seen.Leads (env : Env) (find : Finder) (node : Option Nat) (q : Kernel) : Seen → Prop
  | .node n k => node = some n ∧ q = k
  | .miss m => m.kernel.findMounted env find m.node (cut m.part) m.rest = some (node, q)
  | .lost => node = none

theorem seenIn_leads {find : Finder} {ps : List (List Char × Option (List Char))} {n : Nat}
    {node : Option Nat} (h : walkParts env find ps n k = some (node, q)) :
    (seenIn env find ps n k).Leads env find node q := by
  induction ps generalizing n k with
  | nil =>
    cases h
    exact ⟨rfl, rfl⟩
  | cons x ps ih =>
    obtain ⟨part, rest⟩ := x
    rw [walkParts] at h
    rw [seenIn]
    dsimp only at h
    split at h
    · rename_i hskip
      rw [if_pos hskip]
      exact ih h
    · rename_i hskip
      rw [if_neg hskip]
      split at h
      · rename_i hup
        rw [if_pos hup]
        exact ih h
      · rename_i hup
        rw [if_neg hup]
        cases hc : k.findIn n (cut part) with
        | none =>
          rw [hc] at h
          exact h
        | some c =>
          rw [hc] at h
          obtain ⟨⟨next, k1⟩, hl, h⟩ := Option.bind_eq_some_iff.mp h
          dsimp only
          rw [hl]
          cases next with
          | none =>
            cases h
            rfl
          | some d => exact ih h

theorem seen_leads {node : Option Nat} (h : k.find env path = some (node, q)) :
    (k.seen env path).Leads env (findTo env (env.fuel - 1)) node q := by
  unfold Kernel.find at h
  cases hf : env.fuel with
  | zero =>
    rw [hf] at h
    cases h
  | succ j =>
    rw [hf] at h
    cases path with
    | nil =>
      cases h
      exact ⟨rfl, rfl⟩
    | cons c text =>
      by_cases hc : c = '/'
      · subst hc
        rw [seen, hf]
        exact seenIn_leads h
      · rw [findTo_names hc] at h
        rw [seen, hf]
        · exact seenIn_leads h
        · exact nofun
        · exact fun _ he => hc (List.cons.inj he).1

end seen

section opens

def hasDevice (env : Env) (k : Kernel) (name : List Char) : Bool :=
  (k.findDevice name).isSome ||
    (isNumbered "tty" name || isNumbered "fb" name) && (k.kmalloc env ∅).1.isSome

def opensText (env : Env) (k : Kernel) (fs : FileSystem) (data : Nat) (text : List Char) : Bool :=
  if fs = .devfs then k.hasDevice env text else env.opens k.handles fs data text

theorem makeDevice_found {find : Finder} {name : List Char} {ops : Option DevOps} {r : Bool}
    (h : k.makeDevice env find name ops = some (r, q)) : r = (k.kmalloc env ∅).1.isSome := by
  unfold makeDevice at h
  cases hk : k.kmalloc env ∅ with
  | mk x k1 =>
    rw [hk] at h
    cases x with
    | none =>
      cases h
      rfl
    | some x =>
      cases ops with
      | none =>
        cases h
        rfl
      | some dev =>
        obtain ⟨_, _, h⟩ := Option.bind_eq_some_iff.mp h
        cases h
        rfl

theorem openDevice_found {find : Finder} {name : List Char} {r : Bool}
    (h : k.openDevice env find name = some (r, q)) : r = k.hasDevice env name := by
  unfold openDevice at h
  unfold hasDevice
  split at h
  · rename_i hthere
    cases h
    rw [hthere]
    rfl
  · rename_i hthere
    rw [Bool.eq_false_iff.mpr hthere, Bool.false_or]
    split at h
    · rename_i htty
      rw [makeDevice_found h, htty]
      rfl
    · rename_i htty
      rw [Bool.eq_false_iff.mpr htty, Bool.false_or]
      split at h
      · rename_i hfb
        obtain ⟨base, -, h⟩ := Option.bind_eq_some_iff.mp h
        rw [makeDevice_found h, hfb]
        rfl
      · rename_i hfb
        cases h
        rw [Bool.eq_false_iff.mpr hfb]
        rfl

theorem fsOpen_found {find : Finder} {fs : FileSystem} {data : Nat} {handle : Option Nat}
    (h : k.fsOpen env find fs data text = some (handle, q)) :
    handle.isSome = k.opensText env fs data text := by
  unfold fsOpen at h
  unfold opensText
  by_cases hdev : fs = .devfs
  · rw [if_pos hdev] at h ⊢
    obtain ⟨⟨found, k1⟩, hf, h⟩ := Option.bind_eq_some_iff.mp h
    cases h
    rw [← openDevice_found hf]
    cases found with
    | false => rfl
    | true => rfl
  · rw [if_neg hdev] at h ⊢
    cases h
    cases env.opens k.handles fs data text with
    | false => rfl
    | true => rfl

/-- The file system of the node that misses a component has what `find` hands over. -/
def asks (env : Env) (m : Miss) : Bool :=
  match (m.kernel.node m.node).type, (m.kernel.node m.node).filesystem with
  | .mount, some fs => fs.has .open && (m.handed env.beyond).any
      (m.kernel.opensText env fs (m.kernel.node m.node).mountData)
  | _, _ => false

theorem asks_mount {m : Miss} {fs : FileSystem} (ht : (m.kernel.node m.node).type = .mount)
    (hf : (m.kernel.node m.node).filesystem = some fs) :
    asks env m = (fs.has .open && (m.handed env.beyond).any
      (m.kernel.opensText env fs (m.kernel.node m.node).mountData)) := by
  unfold asks
  rw [ht, hf]

theorem asks_other {m : Miss} (h : ∀ fs, (m.kernel.node m.node).type = .mount →
    (m.kernel.node m.node).filesystem = some fs → False) : asks env m = false := by
  unfold asks
  split
  · rename_i fs ht hf
    exact absurd hf (h fs ht)
  · rfl

/-- `find` then comes back with the node itself. -/
theorem findMounted_found {find : Finder} {m : Miss} {node : Option Nat}
    (h : m.kernel.findMounted env find m.node (cut m.part) m.rest = some (node, q)) :
    node = if asks env m then some m.node else none := by
  by_cases hm : ∃ fs, (m.kernel.node m.node).type = .mount ∧
      (m.kernel.node m.node).filesystem = some fs
  · obtain ⟨fs, ht, hf⟩ := hm
    by_cases ho : fs.has .open = true
    · rw [findMounted_handed ht hf ho] at h
      obtain ⟨text, htext, h⟩ := Option.bind_eq_some_iff.mp h
      obtain ⟨⟨handle, k1⟩, hopen, h⟩ := Option.bind_eq_some_iff.mp h
      cases h
      have hasks : asks env m = handle.isSome := by
        rw [asks_mount ht hf, ho, htext, Bool.true_and, Option.any_some, fsOpen_found hopen]
      rw [hasks]
      cases handle with
      | none => rfl
      | some x => rfl
    · have hasks : asks env m = false := by
        rw [asks_mount ht hf, Bool.eq_false_iff.mpr ho, Bool.false_and]
      unfold findMounted at h
      rw [ht, hf] at h
      dsimp only at h
      rw [if_neg ho] at h
      cases h
      rw [hasks]
      rfl
  · have hno : ∀ fs, (m.kernel.node m.node).type = .mount →
        (m.kernel.node m.node).filesystem = some fs → False := fun fs ht hf => hm ⟨fs, ht, hf⟩
    rw [asks_other hno]
    unfold findMounted at h
    split at h
    · rename_i fs ht hf
      exact absurd hf (hno fs ht)
    · cases h
      rfl

end opens

section agreement

abbrev Kinds := FileSystem → Nat → List Char → Bool

/-- Whether the descriptor that `sys_open` returned for a path stands for a directory. -/
def openedDirectory (dirs : Kinds) (k ko : Kernel) (a : List Char) (fd : Int) : Bool :=
  (ko.openFd fd).any fun (p, i) =>
    match (ko.entry p i).node with
    | some n => (ko.node n).directory
    | none => (k.answering a).any fun (x, fs, sub) => dirs fs (k.mounts.cell x).data sub

/-- The answers of `sys_access`, of `sys_open` and of `sys_stat` to one path. -/
structure Agree (env : Env) (dirs : Kinds) (k ko : Kernel) (path : List Char) (r fd : Int)
    (st : Option Stat) : Prop where
  exists_iff : r = 0 ↔ 0 ≤ fd
  directory_iff : ∀ a, k.absPath env path = some a →
    (st.any Stat.directory = true ↔ openedDirectory dirs k ko a fd = true)

theorem openedDirectory_node {dirs : Kinds} {k' : Kernel} {e : FdEntry} {n : Nat}
    (hp : k'.currentProc = some p) (ht : e.type ≠ .none) (hn : e.node = some n) :
    openedDirectory dirs k (k'.setEntry p i e) a i.val = (k'.node n).directory := by
  have hentry : (k'.setEntry p i e).entry p i = e := by
    rw [setEntry_entry, if_pos ⟨rfl, rfl⟩]
  unfold openedDirectory
  rw [openFd_setEntry hp ht]
  simp only [Option.any_some, hentry, hn]
  rfl

theorem openedDirectory_handle {dirs : Kinds} {k' : Kernel} {e : FdEntry} {x : Nat}
    {fs : FileSystem} {sub : List Char} (hp : k'.currentProc = some p) (ht : e.type ≠ .none)
    (hn : e.node = none) (hans : k.answering a = some (x, fs, sub)) :
    openedDirectory dirs k (k'.setEntry p i e) a i.val = dirs fs (k.mounts.cell x).data sub := by
  have hentry : (k'.setEntry p i e).entry p i = e := by
    rw [setEntry_entry, if_pos ⟨rfl, rfl⟩]
  unfold openedDirectory
  rw [openFd_setEntry hp ht]
  simp only [Option.any_some, hentry, hn, hans]

/-- `sys_open` of an existing path that no mount answers. -/
theorem openNode_answer (dirs : Kinds) {fd : Int} (hp : k.currentProc = some p)
    (hi : k.firstFree p 3 = some i) (h : k.openNode env a 0 = some (fd, ko)) :
    ∃ node q, k.find env a = some (node, q) ∧ (0 ≤ fd ↔ node.isSome = true) ∧
      openedDirectory dirs k ko a fd = node.any fun n => (q.node n).directory := by
  unfold openNode at h
  obtain ⟨⟨node, q⟩, hf, h⟩ := Option.bind_eq_some_iff.mp h
  have hside := find_procSide k a node q hf
  have hp' : q.currentProc = some p := (currentProc_of_procSide hside).trans hp
  have hi' : q.firstFree p 3 = some i := (firstFree_of_procSide hside p 3).trans hi
  refine ⟨node, q, hf, ?_⟩
  have hbit : ∀ b, (0 : Nat).testBit b = false := Nat.zero_testBit
  simp only [hbit, Bool.false_eq_true, and_false, if_false] at h
  cases node with
  | none =>
    cases h
    exact ⟨by decide, rfl⟩
  | some n =>
    unfold openFound at h
    simp only [allocFd_free hp' hi', hbit, Bool.false_eq_true, if_false] at h
    cases h
    constructor
    · simp
    · exact openedDirectory_node hp' (by simp) rfl

/-- `sys_open` of a path that a mount answers. -/
theorem openMounted_answer (dirs : Kinds) {fd : Int} {x : Nat} {fs : FileSystem} {sub : List Char}
    (hp : k.currentProc = some p) (hi : k.firstFree p 3 = some i)
    (hans : k.answering a = some (x, fs, sub)) (h : k.openMounted env x fs sub = some (fd, ko)) :
    (0 ≤ fd ↔ k.opensText env fs (k.mounts.cell x).data sub = true) ∧
      openedDirectory dirs k ko a fd = (k.opensText env fs (k.mounts.cell x).data sub &&
        dirs fs (k.mounts.cell x).data sub) := by
  unfold openMounted at h
  obtain ⟨⟨handle, q⟩, hf, h⟩ := Option.bind_eq_some_iff.mp h
  have hside := fsOpen_procSide k _ _ _ handle q hf
  have hp' : q.currentProc = some p := (currentProc_of_procSide hside).trans hp
  have hi' : q.firstFree p 3 = some i := (firstFree_of_procSide hside p 3).trans hi
  rw [← fsOpen_found hf]
  cases handle with
  | none =>
    cases h
    exact ⟨by decide, rfl⟩
  | some y =>
    simp only [allocFd_free hp' hi'] at h
    cases h
    constructor
    · simp
    · rw [Option.isSome_some, Bool.true_and]
      refine openedDirectory_handle ?_ ?_ ?_ hans
      · exact hp'
      · simp
      · simp [setEntry_entry, FdEntry.zero]

theorem sysAccess_answer {r : Int} {node : Option Nat}
    (ha : k.absPath env path = some a) (hf : k.find env a = some (node, q))
    (h : k.sysAccess env path = some (r, ka)) : r = 0 ↔ node.isSome = true := by
  unfold sysAccess at h
  rw [ha, Option.bind_eq_bind, Option.bind_some, hf] at h
  cases node with
  | none =>
    cases h
    decide
  | some n =>
    cases h
    simp

theorem sysStat_answer {st : Option Stat} {node : Option Nat}
    (ha : k.absPath env path = some a) (hf : k.find env a = some (node, q))
    (h : k.sysStat env path = some (st, ks)) :
    st.any Stat.directory = node.any fun n => (q.node n).directory := by
  unfold sysStat at h
  rw [ha, Option.bind_eq_bind, Option.bind_some, hf] at h
  cases h
  cases node with
  | none => rfl
  | some n => rfl

def Leaves (env : Env) (m : Miss) (q : Kernel) : Prop :=
  ∃ node, m.kernel.findMounted env (findTo env (env.fuel - 1)) m.node (cut m.part) m.rest =
    some (node, q)

/-- What a file system has at a text, `yes`, and whether it is a directory there, beside what the
tree makes of the path: a node for a node of that kind; nothing for a link that leads nowhere; and for
a component that is missing what the file system asked by `find` has, as the kind that its mount point
is of. -/
def Seen.Matches (env : Env) (yes dir : Bool) : Seen → Prop
  | .node n q => yes = true ∧ dir = (q.node n).directory
  | .miss m => asks env m = yes ∧
      ∀ q, Leaves env m q → yes = true → dir = (q.node m.node).directory
  | .lost => yes = false

/-- The mount that `sys_open` asks has at the rest of the path what the tree makes of the path. -/
def TreeMatches (env : Env) (dirs : Kinds) (k : Kernel) (path : List Char) : Prop :=
  ∀ a x fs sub, k.absPath env path = some a → k.answering a = some (x, fs, sub) →
    (k.seen env a).Matches env (k.opensText env fs (k.mounts.cell x).data sub)
      (dirs fs (k.mounts.cell x).data sub)

theorem matches_iff {yes dir : Bool} {node : Option Nat} (h : k.find env a = some (node, q)) :
    (k.seen env a).Matches env yes dir ↔ (node.isSome = true ↔ yes = true) ∧
      ((node.any fun n => (q.node n).directory) = true ↔ (yes && dir) = true) := by
  have hleads := seen_leads h
  cases hs : k.seen env a with
  | node n q' =>
    rw [hs] at hleads
    obtain ⟨rfl, rfl⟩ := hleads
    cases yes with
    | false => simp [Seen.Matches]
    | true =>
      rw [Seen.Matches, Bool.eq_iff_iff]
      simp [Iff.comm]
  | miss m =>
    rw [hs] at hleads
    have hnode := findMounted_found hleads
    have hq : ∀ q', Leaves env m q' ↔ q' = q := by
      intro q'
      constructor
      · rintro ⟨node', h'⟩
        cases hleads.symm.trans h'
        rfl
      · rintro rfl
        exact ⟨node, hleads⟩
    rw [Seen.Matches, hnode]
    simp only [hq, forall_eq]
    cases asks env m with
    | false =>
      cases yes with
      | false => simp
      | true => simp
    | true =>
      cases yes with
      | false => simp
      | true =>
        cases dir with
        | false => simp
        | true => simp
  | lost =>
    rw [hs] at hleads
    obtain rfl : node = none := hleads
    cases yes with
    | false => simp [Seen.Matches]
    | true => simp [Seen.Matches]

/-- The three calls agree exactly when no mount answers the path, or the one that does has what the
tree makes of it. -/
theorem existence_agrees_iff {dirs : Kinds} {r fd : Int} {st : Option Stat}
    (hp : k.currentProc = some p) (hi : k.firstFree p 3 = some i)
    (ha : k.sysAccess env path = some (r, ka)) (ho : k.sysOpen env path 0 = some (fd, ko))
    (hs : k.sysStat env path = some (st, ks)) :
    Agree env dirs k ko path r fd st ↔ TreeMatches env dirs k path := by
  obtain ⟨a, hpath, hrest⟩ := Option.bind_eq_some_iff.mp ha
  obtain ⟨⟨node, q⟩, hf, _⟩ := Option.bind_eq_some_iff.mp hrest
  have hr := sysAccess_answer hpath hf ha
  have hst := sysStat_answer hpath hf hs
  cases hans : k.answering a with
  | none =>
    rw [sysOpen_eq_openNode hpath hans] at ho
    obtain ⟨node', q', hf', hfd, hdir⟩ := openNode_answer dirs hp hi ho
    cases hf.symm.trans hf'
    constructor
    · intro _ a' x fs sub ha' hans'
      cases hpath.symm.trans ha'
      cases hans.symm.trans hans'
    · intro _
      refine ⟨hr.trans hfd.symm, fun a' ha' => ?_⟩
      cases hpath.symm.trans ha'
      rw [hst, hdir]
  | some y =>
    obtain ⟨x, fs, sub⟩ := y
    rw [sysOpen_eq_openMounted hpath hans] at ho
    obtain ⟨hfd, hdir⟩ := openMounted_answer dirs hp hi hans ho
    have hmatch := @matches_iff _ _ _ _ (k.opensText env fs (k.mounts.cell x).data sub)
      (dirs fs (k.mounts.cell x).data sub) _ hf
    rw [← hr, ← hfd, ← hst, ← hdir] at hmatch
    constructor
    · intro h a' x' fs' sub' ha' hans'
      cases hpath.symm.trans ha'
      cases hans.symm.trans hans'
      exact hmatch.mpr ⟨h.exists_iff, h.directory_iff a hpath⟩
    · intro h
      obtain ⟨h1, h2⟩ := hmatch.mp (h a x fs sub hpath hans)
      refine ⟨h1, fun a' ha' => ?_⟩
      cases hpath.symm.trans ha'
      exact h2

/-- The mount point itself is not left to devfs. The directory made below it is, and is not there. -/
theorem existence_agrees_iff_mount_point : ∃ k ka ko ks ko' r fd st fd',
    boot.runAll devRun = some k ∧ k.sysAccess freshEnv "/dev".toList = some (r, ka) ∧
    k.sysOpen freshEnv "/dev".toList 0 = some (fd, ko) ∧
    k.sysStat freshEnv "/dev".toList = some (st, ks) ∧
    Agree freshEnv (fun _ _ _ => false) k ko "/dev".toList r fd st ∧
    k.sysOpen freshEnv "/dev/a".toList 0 = some (fd', ko') ∧
    ∀ r ka st ks, k.sysAccess freshEnv "/dev/a".toList = some (r, ka) →
      k.sysStat freshEnv "/dev/a".toList = some (st, ks) →
      ¬Agree freshEnv (fun _ _ _ => false) k ko' "/dev/a".toList r fd' st := by
  have hrun : (boot.runAll devRun).any (fun k => k.currentProc = some 6 ∧
      k.firstFree 6 3 = some 3 ∧ k.answering "/dev".toList = none ∧
      (k.sysAccess freshEnv "/dev".toList).any (fun _ => true) ∧
      (k.sysOpen freshEnv "/dev".toList 0).any (fun _ => true) ∧
      (k.sysStat freshEnv "/dev".toList).any (fun _ => true) ∧
      (k.sysOpen freshEnv "/dev/a".toList 0).any (fun _ => true) ∧
      (k.find freshEnv "/dev/a".toList).any (fun x => x.1.isSome) ∧
      (k.answering "/dev/a".toList).any (fun x =>
        k.opensText freshEnv x.2.1 (k.mounts.cell x.1).data x.2.2 = false)) = true := by
    decide +kernel
  obtain ⟨k, hk, h⟩ := any_exists hrun
  obtain ⟨hp, hi, hans, ha, ho, hs, ho', hf, hno⟩ := of_decide_eq_true h
  obtain ⟨⟨r, ka⟩, ha, _⟩ := any_exists ha
  obtain ⟨⟨fd, ko⟩, ho, _⟩ := any_exists ho
  obtain ⟨⟨st, ks⟩, hs, _⟩ := any_exists hs
  obtain ⟨⟨fd', ko'⟩, ho', _⟩ := any_exists ho'
  obtain ⟨⟨node, q⟩, hf, hnode⟩ := any_exists hf
  obtain ⟨⟨x, fs, sub⟩, hans', hno⟩ := any_exists hno
  refine ⟨k, ka, ko, ks, ko', r, fd, st, fd', hk, ha, ho, hs, ?_, ho', ?_⟩
  · refine (existence_agrees_iff hp hi ha ho hs).mpr fun a x fs sub hpath hans' => ?_
    have hpath' : k.absPath freshEnv "/dev".toList = some "/dev".toList := rfl
    cases hpath'.symm.trans hpath
    cases hans.symm.trans hans'
  · intro r ka st ks ha hs hagree
    have hmatch := (existence_agrees_iff hp hi ha ho' hs).mp hagree _ x fs sub rfl hans'
    have hiff := ((matches_iff hf).mp hmatch).1
    rw [of_decide_eq_true hno] at hiff
    exact Bool.noConfusion (hiff.mp hnode)

/-- The directory is there for `sys_access` and for `sys_stat`, and devfs has no such device. -/
theorem directory_below_mount_unopened : ¬ ∀ (env : Env) (dirs : Kinds)
    (k ka ko ks : Kernel) (path : List Char) (p : Nat) (i : Fin maxFds) (r fd : Int)
    (st : Option Stat), Reached (fun _ _ _ => True) k → k.currentProc = some p →
    k.firstFree p 3 = some i → k.sysAccess env path = some (r, ka) →
    k.sysOpen env path 0 = some (fd, ko) → k.sysStat env path = some (st, ks) →
    Agree env dirs k ko path r fd st := by
  intro hall
  have hrun : (boot.runAll devRun).any (fun k => k.currentProc = some 6 ∧
      k.firstFree 6 3 = some 3 ∧
      (k.sysAccess freshEnv "/dev/a".toList).any (fun s => s.1 = 0) ∧
      (k.sysOpen freshEnv "/dev/a".toList 0).any (fun s => s.1 = -1) ∧
      (k.sysStat freshEnv "/dev/a".toList).any fun _ => true) = true := by decide +kernel
  obtain ⟨k, hk, h⟩ := any_exists hrun
  obtain ⟨hp, hi, ha, ho, hs⟩ := of_decide_eq_true h
  obtain ⟨⟨r, ka⟩, ha, hr⟩ := any_exists ha
  obtain ⟨⟨fd, ko⟩, ho, hfd⟩ := any_exists ho
  obtain ⟨⟨st, ks⟩, hs, _⟩ := any_exists hs
  obtain rfl : r = 0 := of_decide_eq_true hr
  obtain rfl : fd = -1 := of_decide_eq_true hfd
  have hagree := hall freshEnv (fun _ _ _ => false) k ka ko ks _ 6 3 0 (-1) st
    (Reached.boot.runAll (fun _ _ _ => trivial) hk) hp hi ha ho hs
  exact absurd (hagree.exists_iff.mp rfl) (by decide)

end agreement

end LosTacOS.Os.Kernel
