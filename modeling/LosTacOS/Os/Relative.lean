import LosTacOS.Os.Lookup
import LosTacOS.Os.Existence

/-! Relative paths are resolved twice: as text behind the path of the current directory, and from
its node. -/
namespace LosTacOS.Os

theorem parts_fuel {n : Nat} {path : List Char} (hn : path.length < n) :
    parts n path = parts (path.length + 1) path := by
  induction n using Nat.strong_induction_on generalizing path with
  | _ n ih =>
    obtain ⟨n, rfl⟩ : ∃ m, n = m + 1 := ⟨n - 1, by omega⟩
    rw [parts, parts]
    cases hd : path.dropWhile (· ≠ '/') with
    | nil => rfl
    | cons c rest =>
      have hlen : rest.length < path.length := by
        have := (List.dropWhile_suffix (l := path) (· ≠ '/')).length_le
        rw [hd, List.length_cons] at this
        omega
      dsimp only
      rw [ih n (Nat.lt_succ_self n) (by omega)]
      by_cases hp : path.length < n
      · rw [ih path.length (by omega) hlen]
      · rw [show path.length = n by omega, ih n (Nat.lt_succ_self n) (by omega)]

theorem parts_cons {n : Nat} {s t : List Char} (hs : '/' ∉ s) :
    parts (n + 1) (s ++ '/' :: t) = (s, some t) :: parts n t := by
  have hall : ∀ c ∈ s, (decide (c ≠ '/')) = true := by
    intro c hc
    exact decide_eq_true fun he => hs (he ▸ hc)
  have hdrop : (s ++ '/' :: t).dropWhile (· ≠ '/') = '/' :: t := by
    rw [List.dropWhile_append_of_pos hall]
    rfl
  have htake : (s ++ '/' :: t).takeWhile (· ≠ '/') = s := by
    rw [List.takeWhile_append_of_pos hall]
    simp
  rw [parts, hdrop]
  dsimp only
  rw [htake]

/-- A path below the directory with the names `ns`, without the first slash. -/
def under (ns : List (List Char)) (path : List Char) : List Char :=
  ns.flatMap (fun s => s ++ ['/']) ++ path

theorem under_snoc (ns : List (List Char)) (s path : List Char) :
    under (ns ++ [s]) path = under ns (s ++ '/' :: path) := by
  simp [under]

theorem slash_under (ns : List (List Char)) (path : List Char) :
    '/' :: under ns path = ns.flatMap (fun s => '/' :: s) ++ '/' :: path := by
  induction ns with
  | nil => rfl
  | cons s ns ih =>
    have hcons : under (s :: ns) path = s ++ '/' :: under ns path := by simp [under]
    rw [hcons, ih]
    simp

namespace Kernel

variable {env : Env} {k q : Kernel} {d c : Nat} {ns : List (List Char)} {path a : List Char}

/-- The directory is found under the path that `get_path` writes for it. -/
inductive Placed (k : Kernel) : Nat → List (List Char) → Prop
  | root : Placed k k.root []
  | child {d c : Nat} {ns : List (List Char)} : Placed k d ns →
      k.findIn d (k.node c).name = some c → (k.node c).parent = some d → c ≠ k.root →
      GoodName (k.node c).name → (k.node c).name.length ≤ 127 → (k.node c).type ≠ .symlink →
      (k.node c).directory = true → Placed k c (ns ++ [(k.node c).name])

theorem Placed.walk {find : Finder} (h : Placed k d ns) (n : Nat)
    (hn : (under ns path).length < n) : walkParts env find (parts n (under ns path)) k.root k =
      walkParts env find (parts (path.length + 1) path) d k := by
  induction h generalizing path with
  | root => rw [parts_fuel hn]; rfl
  | child h hfind hp hroot hgood hlen htype hdir ih =>
    rename_i d c ns
    rw [under_snoc] at hn ⊢
    rw [ih hn, List.length_append, List.length_cons, parts_cons hgood.2.2.2]
    rw [walkParts_child hlen ⟨hgood.1, hgood.2.1, hgood.2.2.1⟩ hfind htype]
    rw [parts_fuel (by omega)]

theorem Placed.pathFrom (h : Placed k d ns) {fuel : Nat} {acc base : List Char}
    (hb : k.pathFrom fuel (some d) acc = some base) :
    base = ns.flatMap (fun s => '/' :: s) ++ acc := by
  induction h generalizing fuel acc with
  | root =>
    cases fuel with
    | zero => cases hb
    | succ fuel =>
      rw [Kernel.pathFrom, if_pos rfl] at hb
      cases hb
      rfl
  | child h hfind hp hroot hgood hlen htype hdir ih =>
    cases fuel with
    | zero => cases hb
    | succ fuel =>
      rw [Kernel.pathFrom, if_neg hroot, hp] at hb
      rw [ih hb]
      simp

theorem Placed.getPath {base : List Char} (h : Placed k d ns) (hb : k.getPath env d = some base) :
    (if base.getLast? = some '/' then base else base ++ ['/']) = '/' :: under ns [] := by
  rw [slash_under]
  unfold Kernel.getPath at hb
  by_cases hroot : d = k.root
  · rw [if_pos hroot] at hb
    cases hb
    cases h with
    | root => rfl
    | child _ _ _ hne => exact absurd hroot hne
  · rw [if_neg hroot] at hb
    have hbase := h.pathFrom (Option.filter_eq_some_iff.mp hb).1
    rw [List.append_nil] at hbase
    rw [hbase, if_neg]
    cases h with
    | root => exact absurd rfl hroot
    | child h hfind hp hne hgood hlen htype hdir =>
      intro hlast
      rw [List.flatMap_append, List.flatMap_singleton, List.getLast?_append,
        List.getLast?_cons] at hlast
      cases hname : (k.node d).name.getLast? with
      | none => exact hgood.1 (List.getLast?_eq_none_iff.mp hname)
      | some c =>
        rw [hname] at hlast
        cases hlast
        exact hgood.2.2.2 (List.mem_of_getLast? hname)

theorem Placed.absPath (h : Placed k k.getProcessCwd ns) (hrel : path.head? ≠ some '/')
    (ha : k.absPath env path = some a) : a = ('/' :: under ns path).take 255 := by
  have hunder : '/' :: under ns path = '/' :: under ns [] ++ path := by simp [under]
  have hroot : k.getProcessCwd = k.root → '/' :: under ns [] = ['/'] := by
    intro he
    rw [he] at h
    cases h with
    | root => rfl
    | child _ _ _ hne => exact absurd rfl hne
  unfold Kernel.absPath at ha
  rw [if_neg hrel] at ha
  unfold getProcessCwd at h hroot
  rw [hunder]
  cases hp : k.currentProc with
  | none =>
    simp only [hp, Option.bind_eq_bind, Option.bind_some] at ha hroot
    cases ha
    rw [hroot trivial]
    rfl
  | some p =>
    simp only [hp] at ha h hroot
    cases hc : (k.proc p).cwd with
    | none =>
      simp only [hc, Option.bind_eq_bind, Option.bind_some, Option.getD_none] at ha hroot
      cases ha
      rw [hroot trivial]
      rfl
    | some n =>
      simp only [hc, Option.getD_some] at ha h
      obtain ⟨base, hb, ha⟩ := Option.bind_eq_some_iff.mp ha
      cases ha
      rw [h.getPath hb]

/-- The search for a path below a directory goes on from its node. -/
theorem Placed.find (h : Placed k k.getProcessCwd ns) (hrel : path.head? ≠ some '/')
    (hne : path ≠ []) : k.find env ('/' :: under ns path) = k.find env path := by
  unfold Kernel.find
  cases env.fuel with
  | zero => rfl
  | succ j =>
    rw [findTo_slash, h.walk _ (Nat.lt_succ_self _)]
    cases path with
    | nil => exact absurd rfl hne
    | cons c rest =>
      rw [findTo]
      · intro he
        cases he
      · intro r he
        exact hrel (by rw [he]; rfl)

theorem Placed.good (h : Placed k d ns) : ∀ s ∈ ns, GoodName s ∧ s.length ≤ 127 := by
  induction h with
  | root => exact nofun
  | child h hfind hp hroot hgood hlen htype hdir ih =>
    intro s hs
    cases List.mem_append.mp hs with
    | inl hs => exact ih s hs
    | inr hs =>
      rw [List.mem_singleton.mp hs]
      exact ⟨hgood, hlen⟩

theorem components_slash (path : List Char) : components ('/' :: path) = components path := by
  unfold components
  rw [List.length_cons]
  have h := parts_cons (n := path.length + 1) (s := []) (t := path) (by simp)
  rw [List.nil_append] at h
  rw [h]
  rfl

theorem components_cons {s : List Char} (hs : GoodName s) (hlen : s.length ≤ 127)
    (path : List Char) : components (s ++ '/' :: path) = s :: components path := by
  unfold components
  have hfuel : (s ++ '/' :: path).length = s.length + path.length + 1 := by
    rw [List.length_append, List.length_cons]
    rfl
  rw [hfuel, parts_cons hs.2.2.2, parts_fuel (by omega), List.map_cons, cut_short hlen,
    List.filter_cons_of_pos (by simpa using hs.1)]

theorem Placed.components (h : Placed k d ns) :
    components ('/' :: under ns path) = ns ++ components path := by
  have hgood := h.good
  clear h
  rw [components_slash]
  induction ns with
  | nil => rfl
  | cons s ns ih =>
    obtain ⟨hs, hlen⟩ := hgood s List.mem_cons_self
    have hcons : under (s :: ns) path = s ++ '/' :: under ns path := by simp [under]
    rw [hcons, components_cons hs hlen, ih fun s hs => hgood s (List.mem_cons_of_mem _ hs)]
    rfl

theorem components_ne_nil (hrel : path.head? ≠ some '/') (hne : path ≠ []) :
    Os.components path ≠ [] := by
  cases path with
  | nil => exact absurd rfl hne
  | cons c rest =>
    have hc : c ≠ '/' := fun he => hrel (by rw [he]; rfl)
    have hfirst : ∀ n, ∃ t ps, parts (n + 1) (c :: rest) = (c :: rest.takeWhile (· ≠ '/'), t) :: ps := by
      intro n
      rw [parts]
      have htake : (c :: rest).takeWhile (· ≠ '/') = c :: rest.takeWhile (· ≠ '/') :=
        List.takeWhile_cons_of_pos (decide_eq_true hc)
      split
      · rename_i hd
        have hall := List.takeWhile_append_dropWhile (p := fun c => decide (c ≠ '/')) (l := c :: rest)
        rw [hd, List.append_nil, htake] at hall
        exact ⟨none, [], by rw [hall]⟩
      · rw [htake]
        exact ⟨_, _, rfl⟩
    obtain ⟨t, ps, hps⟩ := hfirst rest.length.succ
    intro hnil
    unfold Os.components at hnil
    rw [List.length_cons, hps, List.map_cons, List.filter_cons_of_pos] at hnil
    · cases hnil
    · exact decide_eq_true (List.cons_ne_nil _ _)

theorem Placed.createFileIn (h : Placed k d ns) {cs : List (List Char)} (hcs : cs ≠ []) :
    createFileIn env (ns ++ cs) k.root k = createFileIn env cs d k := by
  induction h generalizing cs with
  | root => rfl
  | child h hfind hp hroot hgood hlen htype hdir ih =>
    rw [List.append_assoc, ih (List.append_ne_nil_of_right_ne_nil _ hcs)]
    cases cs with
    | nil => exact absurd rfl hcs
    | cons c cs =>
      rw [List.singleton_append, Kernel.createFileIn, hfind]
      dsimp only
      rw [if_pos hdir]

theorem Placed.createDirIn (h : Placed k d ns) {cs : List (List Char)} :
    createDirIn env (ns ++ cs) k.root k = createDirIn env cs d k := by
  induction h generalizing cs with
  | root => rfl
  | child h hfind hp hroot hgood hlen htype hdir ih =>
    rw [List.append_assoc, ih, List.singleton_append, Kernel.createDirIn, hfind]

end Kernel

inductive Resolver where
  | find | createFile | createDir

inductive PathCall where
  | open (flags : Nat)
  | stat
  | access
  | mount
  | umount
  | linkOld
  | linkNew
  | symlink
  | readlink

namespace Kernel

variable {env : Env} {k q : Kernel} {d : Nat} {ns : List (List Char)} {path a : List Char}
  {call : PathCall}

def sysReadlink (env : Env) (k : Kernel) (path : List Char) (bufsize : Nat) :
    Option (Option (List Char) × Kernel) :=
  if bufsize = 0 then some (none, k)
  else do
    let path ← k.absPath env path
    let (node, k) ← k.find env path
    -- the null pointer of a node that never was a link is the empty text here
    let node := node.filter fun n => (k.node n).type = .symlink ∨ (k.node n).symlink ≠ []
    some (node.map fun n => (k.node n).symlink.take bufsize, k)

def sysLink (env : Env) (k : Kernel) (oldpath newpath : List Char) : Option (Int × Kernel) := do
  let oldpath ← k.absPath env oldpath
  let newpath ← k.absPath env newpath
  let (node, k) ← k.find env oldpath
  if node.isNone then some (-1, k)
  else do
    let (node, k) ← k.createSymlinkPath env newpath oldpath
    some (if node.isSome then 0 else -1, k)

def resolve (env : Env) (k : Kernel) : Resolver → List Char → Option (Option Nat × Kernel)
  | .find, text => k.find env text
  | .createFile, text => k.createFilePath env text
  | .createDir, text => k.createDirPath env text

theorem Placed.resolve (h : Placed k k.getProcessCwd ns) (hrel : path.head? ≠ some '/')
    (hne : path ≠ []) (r : Resolver) :
    k.resolve env r ('/' :: under ns path) = k.resolve env r path := by
  have hstart : k.startDir path = k.getProcessCwd := if_neg hrel
  cases r with
  | find => exact h.find hrel hne
  | createFile =>
    unfold Kernel.resolve
    dsimp only
    unfold createFilePath
    rw [if_neg (List.cons_ne_nil _ _), if_neg hne, h.components, hstart,
      ← h.createFileIn (components_ne_nil hrel hne)]
    rfl
  | createDir =>
    unfold Kernel.resolve
    dsimp only
    unfold createDirPath
    rw [if_neg (List.cons_ne_nil _ _), if_neg hne, h.components, hstart, ← h.createDirIn]
    rfl

/-- How and in which state a call resolves the text of its path. What it creates, it creates after
the search, and `sys_umount` searches after it has taken the mount out of the table. -/
inductive Resolving (env : Env) (k : Kernel) (text : List Char) :
    PathCall → Kernel → Resolver → Prop
  | open {flags : Nat} : k.answering text = none → Resolving env k text (.open flags) k .find
  | openNew {flags : Nat} {q : Kernel} : k.answering text = none →
      k.find env text = some (none, q) → flags.testBit 6 = true →
      Resolving env k text (.open flags) q .createFile
  | stat : Resolving env k text .stat k .find
  | access : Resolving env k text .access k .find
  | mount : Resolving env k text .mount k .find
  | mountNew {q : Kernel} : k.find env text = some (none, q) →
      Resolving env k text .mount q .createDir
  | umount {m : Nat} : (k.mountTable.find? fun m => (k.mounts.cell m).path = text) = some m →
      Resolving env k text .umount { k with mountTable := k.mountTable.erase m } .find
  | linkOld : Resolving env k text .linkOld k .find
  | linkNew {q : Kernel} {old : List Char} {n : Nat} : k.find env old = some (some n, q) →
      Resolving env k text .linkNew q .createFile
  | symlink : Resolving env k text .symlink k .createFile
  | readlink : Resolving env k text .readlink k .find

def Acts (env : Env) (k : Kernel) (call : PathCall) (path : List Char) (n : Nat) (q' : Kernel) :
    Prop :=
  ∃ a q r, k.absPath env path = some a ∧ Resolving env k a call q r ∧
    q.resolve env r a = some (some n, q')

section acts

variable {k' : Kernel}

theorem sysStat_acts {st : Stat} (h : k.sysStat env path = some (some st, k')) :
    ∃ n, Acts env k .stat path n k' ∧ st.ino = .inl n := by
  obtain ⟨a, ha, h⟩ := Option.bind_eq_some_iff.mp h
  obtain ⟨⟨node, q⟩, hf, h⟩ := Option.bind_eq_some_iff.mp h
  cases node with
  | none => cases h
  | some n =>
    cases h
    exact ⟨n, ⟨a, k, .find, ha, .stat, hf⟩, rfl⟩

theorem sysAccess_acts (h : k.sysAccess env path = some (0, k')) :
    ∃ n, Acts env k .access path n k' := by
  obtain ⟨a, ha, h⟩ := Option.bind_eq_some_iff.mp h
  obtain ⟨⟨node, q⟩, hf, h⟩ := Option.bind_eq_some_iff.mp h
  cases node with
  | none => cases h
  | some n =>
    cases h
    exact ⟨n, a, k, .find, ha, .access, hf⟩

theorem sysReadlink_acts {bufsize : Nat} {text : List Char}
    (h : k.sysReadlink env path bufsize = some (some text, k')) :
    ∃ n, Acts env k .readlink path n k' ∧ text = (k'.node n).symlink.take bufsize := by
  unfold sysReadlink at h
  split at h
  · cases h
  · obtain ⟨a, ha, h⟩ := Option.bind_eq_some_iff.mp h
    obtain ⟨⟨node, q⟩, hf, h⟩ := Option.bind_eq_some_iff.mp h
    obtain ⟨ht, rfl⟩ := Prod.mk.inj (Option.some.inj h)
    obtain ⟨n, hn, rfl⟩ := Option.map_eq_some_iff.mp ht
    obtain ⟨rfl, _⟩ := Option.filter_eq_some_iff.mp hn
    exact ⟨n, ⟨a, k, .find, ha, .readlink, hf⟩, rfl⟩

theorem sysMount_acts {fstype : Option (List Char)} {data : Nat}
    (h : k.sysMount env path fstype data = some (0, k')) : ∃ a n q', k.absPath env path = some a ∧
      Acts env k .mount path n q' ∧ q'.mountOn env n a (fstype.bind fsByName) data = some (true, k') := by
  unfold sysMount at h
  split at h
  · cases h
  · obtain ⟨a, ha, h⟩ := Option.bind_eq_some_iff.mp h
    obtain ⟨⟨ok, q⟩, hm, h⟩ := Option.bind_eq_some_iff.mp h
    cases ok with
    | false => cases h
    | true =>
      cases h
      unfold Kernel.mount at hm
      split at hm
      · cases hm
      · obtain ⟨⟨node, q'⟩, hd, hm⟩ := Option.bind_eq_some_iff.mp hm
        cases node with
        | none => cases hm
        | some n =>
          refine ⟨a, n, q', ha, ?_, hm⟩
          unfold findOrCreateDir at hd
          obtain ⟨⟨dir, q1⟩, hf, hd⟩ := Option.bind_eq_some_iff.mp hd
          cases dir with
          | none => exact ⟨a, q1, .createDir, ha, .mountNew hf, hd⟩
          | some dir =>
            cases hd
            exact ⟨a, k, .find, ha, .mount, hf⟩

theorem sysUmount_acts (h : k.sysUmount env path = some (0, k')) :
    (∃ n q', Acts env k .umount path n q' ∧ ∀ x, x ≠ n → k'.node x = q'.node x) ∨
      ∃ a q q', k.absPath env path = some a ∧ Resolving env k a .umount q .find ∧
        q.resolve env .find a = some (none, q') ∧ k'.nodes = q'.nodes := by
  unfold sysUmount at h
  split at h
  · cases h
  · obtain ⟨a, ha, h⟩ := Option.bind_eq_some_iff.mp h
    obtain ⟨⟨ok, q⟩, hm, h⟩ := Option.bind_eq_some_iff.mp h
    cases ok with
    | false => cases h
    | true =>
      cases h
      unfold Kernel.umount at hm
      split at hm
      · cases hm
      · rename_i m hfound
        obtain ⟨⟨node, q'⟩, hf, hm⟩ := Option.bind_eq_some_iff.mp hm
        obtain ⟨-, hm⟩ := Option.ite_none_right_eq_some.mp hm
        cases hm
        cases node with
        | none => exact Or.inr ⟨a, _, q', ha, .umount hfound, hf, rfl⟩
        | some n =>
          refine Or.inl ⟨n, q', ⟨a, _, .find, ha, .umount hfound, hf⟩, fun x hx => ?_⟩
          dsimp only
          split
          · exact Arena.set_cell_ne _ _ hx
          · rfl

theorem sysSymlink_acts {target : List Char} (h : k.sysSymlink env target path = some (0, k')) :
    ∃ n q', Acts env k .symlink path n q' ∧
      k' = q'.setNode n { q'.node n with type := .symlink, symlink := target } := by
  obtain ⟨a, ha, h⟩ := Option.bind_eq_some_iff.mp h
  obtain ⟨⟨node, q⟩, hs, h⟩ := Option.bind_eq_some_iff.mp h
  obtain ⟨⟨made, q'⟩, hc, hs⟩ := Option.bind_eq_some_iff.mp hs
  cases made with
  | none =>
    cases hs
    cases h
  | some n =>
    obtain ⟨-, hs⟩ := Option.ite_none_right_eq_some.mp hs
    cases hs
    cases h
    exact ⟨n, q', ⟨a, k, .createFile, ha, .symlink, hc⟩, rfl⟩

theorem sysLink_acts {newpath : List Char} (h : k.sysLink env path newpath = some (0, k')) :
    ∃ n q m q' old, Acts env k .linkOld path n q ∧ Acts env k .linkNew newpath m q' ∧
      k' = q'.setNode m { q'.node m with type := .symlink, symlink := old } := by
  obtain ⟨a, ha, h⟩ := Option.bind_eq_some_iff.mp h
  obtain ⟨b, hb, h⟩ := Option.bind_eq_some_iff.mp h
  obtain ⟨⟨node, q⟩, hf, h⟩ := Option.bind_eq_some_iff.mp h
  cases node with
  | none => cases h
  | some n =>
    obtain ⟨⟨node, q1⟩, hs, h⟩ := Option.bind_eq_some_iff.mp h
    obtain ⟨⟨made, q'⟩, hc, hs⟩ := Option.bind_eq_some_iff.mp hs
    cases made with
    | none =>
      cases hs
      cases h
    | some m =>
      obtain ⟨-, hs⟩ := Option.ite_none_right_eq_some.mp hs
      cases hs
      cases h
      exact ⟨n, q, m, q', a, ⟨a, k, .find, ha, .linkOld, hf⟩,
        ⟨b, q, .createFile, hb, .linkNew hf, hc⟩, rfl⟩

theorem sysOpen_acts {flags : Nat} {fd : Int} (h : k.sysOpen env path flags = some (fd, k'))
    (hfd : 0 ≤ fd) : (∃ a n q', k.absPath env path = some a ∧ Acts env k (.open flags) path n q' ∧
        q'.openFound env a flags (some n) = some (fd, k')) ∨
      ∃ a m fs sub x q', k.absPath env path = some a ∧ k.answering a = some (m, fs, sub) ∧
        k.fsOpen env (Kernel.find env) fs (k.mounts.cell m).data sub = some (some x, q') := by
  obtain ⟨a, ha, _⟩ := Option.bind_eq_some_iff.mp h
  cases hans : k.answering a with
  | some x =>
    obtain ⟨m, fs, sub⟩ := x
    rw [sysOpen_eq_openMounted ha hans] at h
    obtain ⟨⟨handle, q'⟩, ho, h⟩ := Option.bind_eq_some_iff.mp h
    cases handle with
    | none =>
      cases h
      exact absurd hfd (by decide)
    | some x => exact Or.inr ⟨a, m, fs, sub, x, q', ha, hans, ho⟩
  | none =>
    rw [sysOpen_eq_openNode ha hans] at h
    obtain ⟨⟨node, q⟩, hf, h⟩ := Option.bind_eq_some_iff.mp h
    have hfail : ∀ q' : Kernel, q'.openFound env a flags none = some (fd, k') → False := by
      intro q' hq
      cases hq
      exact absurd hfd (by decide)
    cases node with
    | some n => exact Or.inl ⟨a, n, q, ha, ⟨a, k, .find, ha, .open hans, hf⟩, h⟩
    | none =>
      dsimp only at h
      split at h
      · rename_i hc
        obtain ⟨⟨node, q'⟩, hcreate, h⟩ := Option.bind_eq_some_iff.mp h
        cases node with
        | none => exact (hfail q' h).elim
        | some n =>
          exact Or.inl ⟨a, n, q', ha, ⟨a, q, .createFile, ha, .openNew hans hf hc.2, hcreate⟩, h⟩
      · exact (hfail q h).elim

end acts

def SameNode (x y : Option (Option Nat × Kernel)) : Prop :=
  x.map Prod.fst = some none ∨ x.map Prod.fst = y.map Prod.fst

structure ActsAlike (env : Env) (k : Kernel) (call : PathCall) (path a : List Char) : Prop where
  node : ∀ q r, Resolving env k a call q r → SameNode (q.resolve env r a) (q.resolve env r path)
  mounted : ∀ flags m fs sub h q, call = .open flags → k.answering a = some (m, fs, sub) →
    k.fsOpen env (Kernel.find env) fs (k.mounts.cell m).data sub ≠ some (some h, q)

/-- What fits of the path behind the directory stands for nothing, or for what the path does; and
no mounted file system opens it. -/
structure CutAlike (env : Env) (k : Kernel) (call : PathCall) (path a fit : List Char) : Prop where
  node : ∀ q r, Resolving env k a call q r → SameNode (q.resolve env r fit) (q.resolve env r path)
  mounted : ∀ flags m fs sub h q, call = .open flags → k.answering a = some (m, fs, sub) →
    k.fsOpen env (Kernel.find env) fs (k.mounts.cell m).data sub ≠ some (some h, q)

/-- The text that a call resolves is what fits, from the directory on. -/
theorem Placed.text (h : Placed k k.getProcessCwd ns) (hrel : path.head? ≠ some '/')
    (hroom : ('/' :: under ns []).length < 255) (ha : k.absPath env path = some a) :
    a = '/' :: under ns (path.take (255 - ('/' :: under ns []).length)) := by
  have hunder : ∀ p, '/' :: under ns p = '/' :: under ns [] ++ p := by simp [under]
  rw [h.absPath hrel ha, hunder path, List.take_append, List.take_of_length_le hroom.le]
  exact (hunder _).symm

theorem acts_alike_iff (hplaced : Placed k k.getProcessCwd ns)
    (hafter : ∀ q r, Resolving env k a call q r → Placed q q.getProcessCwd ns)
    (hroom : ('/' :: under ns []).length < 255) (hrel : path.head? ≠ some '/') (hne : path ≠ [])
    (ha : k.absPath env path = some a) : ActsAlike env k call path a ↔
      CutAlike env k call path a (path.take (255 - ('/' :: under ns []).length)) := by
  have htext := hplaced.text hrel hroom ha
  cases path with
  | nil => exact absurd rfl hne
  | cons c rest =>
    obtain ⟨room, hr⟩ : ∃ m, 255 - ('/' :: under ns []).length = m + 1 :=
      ⟨255 - ('/' :: under ns []).length - 1, by omega⟩
    rw [hr, List.take_succ_cons] at htext ⊢
    have hfit : (c :: rest.take room).head? ≠ some '/' := hrel
    have hsame : ∀ q r, Resolving env k a call q r →
        q.resolve env r a = q.resolve env r (c :: rest.take room) := by
      intro q r hq
      rw [htext]
      rw [htext] at hafter hq
      exact (hafter q r hq).resolve hfit (List.cons_ne_nil _ _) r
    constructor
    · intro h
      refine ⟨fun q r hq => ?_, h.mounted⟩
      rw [← hsame q r hq]
      exact h.node q r hq
    · intro h
      refine ⟨fun q r hq => ?_, h.mounted⟩
      rw [hsame q r hq]
      exact h.node q r hq

theorem cutAlike_of_fits (hroom : ('/' :: under ns path).length ≤ 255)
    (hmount : k.answering a = none) :
    CutAlike env k call path a (path.take (255 - ('/' :: under ns []).length)) := by
  have hunder : '/' :: under ns path = '/' :: under ns [] ++ path := by simp [under]
  rw [hunder, List.length_append] at hroom
  rw [List.take_of_length_le (by omega)]
  refine ⟨fun q r _ => Or.inr rfl, fun flags m fs sub h q _ hm => ?_⟩
  rw [hmount] at hm
  cases hm

def rootRun : List (Env × Event) :=
  [(freshEnv, .createFilePath "/x".toList), (freshEnv, .spawn []), (freshEnv, .schedule 0)]

def dotted : List Char := (List.replicate 127 ['.', '/']).flatten ++ ['x']

theorem acts_alike_iff_short : ∃ k a, boot.runAll rootRun = some k ∧
    k.absPath freshEnv "x".toList = some a ∧ ActsAlike freshEnv k .stat "x".toList a := by
  have hrun : (boot.runAll rootRun).any (fun k => k.getProcessCwd = k.root ∧
      (k.absPath freshEnv "x".toList).any fun a => k.answering a = none) = true := by
    decide +kernel
  obtain ⟨k, hk, h⟩ := any_exists hrun
  obtain ⟨hcwd, ha⟩ := of_decide_eq_true h
  obtain ⟨a, ha, hans⟩ := any_exists ha
  have hplaced : Placed k k.getProcessCwd [] := by
    rw [hcwd]
    exact .root
  refine ⟨k, a, hk, ha, (acts_alike_iff hplaced ?_ (by decide) (by decide) (by decide) ha).mpr
    (cutAlike_of_fits (by decide) (of_decide_eq_true hans))⟩
  intro q r hq
  cases hq
  exact hplaced

/-- `sys_stat` reports the root, where `SYS_UNLINK` would remove the file. -/
theorem cut_path_stands_for_root : ¬ ∀ (env : Env) (k : Kernel) (call : PathCall)
    (path a : List Char), Reached (fun _ _ _ => True) k → path.head? ≠ some '/' →
    k.absPath env path = some a → ActsAlike env k call path a := by
  intro hall
  have hrun : (boot.runAll rootRun).any (fun k => (k.absPath freshEnv dotted).any fun a =>
      (k.find freshEnv a).any (fun s => s.1 = some 0) ∧
        (k.find freshEnv dotted).any fun s => s.1 = some 1) = true := by
    decide +kernel
  obtain ⟨k, hk, h⟩ := any_exists hrun
  obtain ⟨a, ha, h⟩ := any_exists h
  obtain ⟨hf, hd⟩ := of_decide_eq_true h
  obtain ⟨⟨n, q⟩, hf, hn⟩ := any_exists hf
  obtain ⟨⟨m, q'⟩, hd, hm⟩ := any_exists hd
  obtain rfl : n = some 0 := of_decide_eq_true hn
  obtain rfl : m = some 1 := of_decide_eq_true hm
  have hsame := (hall freshEnv k .stat dotted a (Reached.boot.runAll (fun _ _ _ => trivial) hk)
    (by decide) ha).node k .find .stat
  unfold SameNode resolve at hsame
  dsimp only at hsame
  rw [hf, hd] at hsame
  cases hsame with
  | inl h => cases h
  | inr h => cases h

end Kernel

end LosTacOS.Os
