import LosTacOS.Os.WellFormed
import LosTacOS.Os.Parents

/-! The calls that build the tree: by path, for devices, for mounts and their hooks. -/
namespace LosTacOS.Os

namespace Kernel

variable {env : Env} {k k' : Kernel} {n m d c dir : Nat} {name : List Char} {x : Bool}

section rooms

variable {names : List (List Char)}

structure Room (k : Kernel) (dir : Nat) (names : List (List Char)) : Prop where
  directory : (k.node dir).directory = true
  free : ∀ s ∈ names, k.findIn dir s = none

theorem createNode_ne (hr : Rooted k) (hm : k.Linked m)
    (hc : k.createNode env name x dir = some (n, k')) : n ≠ m :=
  fun he => (createNode_eq env hc).1 (he ▸ hr.used hm)

theorem Room.fresh (hd : k.Linked dir) (hr : Rooted k)
    (hc : k.createNode env name true dir = some (n, k')) (names : List (List Char)) :
    Room k' n names := by
  obtain ⟨h1, h2⟩ := createNode_fresh hd hr hc
  exact ⟨h1, fun s _ => findIn_empty h2 s⟩

/-- A new node takes room in its own directory, and there only its own name. -/
theorem Room.createNode (h : Room k m names) (hr : Rooted k) (hm : k.Linked m) (hd : k.Linked dir)
    (hc : k.createNode env name x dir = some (n, k')) (hne : m = dir → name ∉ names) :
    Room k' m names := by
  have hnm := createNode_ne hr hm hc
  have hnd := createNode_ne hr hd hc
  obtain ⟨hn, rfl⟩ := createNode_eq env hc
  have hname : ∀ c, ((linkNew { k with allocs := k.allocs + 1 } n name x dir).node c).name =
      if c = n then name else (k.node c).name :=
    fun c => linkNew_field Node.name (fun _ _ => rfl) hnd c
  have hdir : ((linkNew { k with allocs := k.allocs + 1 } n name x dir).node m).directory =
      if m = n then x else (k.node m).directory :=
    linkNew_field Node.directory (fun _ _ => rfl) hnd m
  refine ⟨?_, fun s hs => List.find?_eq_none.mpr fun c hcm => ?_⟩
  · rw [hdir, if_neg (Ne.symm hnm)]
    exact h.directory
  · have hold : ∀ d ∈ (k.node m).children, ¬ (decide ((k.node d).name = s)) = true :=
      List.find?_eq_none.mp (h.free s hs)
    have hkeep : c ∈ (k.node m).children → c ≠ n :=
      fun hcm he => hn (he ▸ hr.used (Under.child hm hcm))
    rw [linkNew_children hnd, if_neg (Ne.symm hnm)] at hcm
    rw [hname]
    split at hcm
    · rename_i hmd
      cases List.mem_cons.mp hcm with
      | inl hcn =>
        rw [if_pos hcn, decide_eq_true_iff]
        exact fun he => hne hmd (he ▸ hs)
      | inr hcm =>
        have hcm : c ∈ (k.node m).children := by
          rw [hmd]
          exact hcm
        rw [if_neg (hkeep hcm)]
        exact hold c hcm
    · have hcm : c ∈ (k.node m).children := hcm
      rw [if_neg (hkeep hcm)]
      exact hold c hcm

theorem Planted.createNodes {files : List (String × Bool)} (h : Planted k) (hd : k.Linked dir)
    (hgood : ∀ f ∈ files, GoodName f.1.toList) (hnd : (files.map fun f => f.1.toList).Nodup)
    (hroom : Room k dir (files.map fun f => f.1.toList))
    (hc : k.createNodes env dir files = some k') : Planted k' ∧ KeepsLinked k k' ∧
      ∀ m names, k.Linked m → m ≠ dir → Room k m names → Room k' m names := by
  induction files generalizing k with
  | nil =>
    cases hc
    exact ⟨h, fun _ hl => hl, fun _ _ _ _ hm => hm⟩
  | cons f files ih =>
    obtain ⟨⟨n, k1⟩, h1, h2⟩ := Option.bind_eq_some_iff.mp hc
    rw [List.map_cons, List.nodup_cons] at hnd
    have hfit : k.Fits f.1.toList dir := ⟨hroom.directory, hgood f List.mem_cons_self,
      hroom.free _ List.mem_cons_self⟩
    obtain ⟨h3, h4, _⟩ := h.createNode hd hfit h1
    have hrest : Room k dir (files.map fun f => f.1.toList) :=
      ⟨hroom.directory, fun s hs => hroom.free s (List.mem_cons_of_mem _ hs)⟩
    have hroom1 := hrest.createNode h.toRooted hd hd h1 fun _ => hnd.1
    obtain ⟨h5, h6, h7⟩ := ih h3 (h4 dir hd) (fun g hg => hgood g (List.mem_cons_of_mem f hg))
      hnd.2 hroom1 h2
    refine ⟨h5, fun m hm => h6 m (h4 m hm), fun m names hm hmd hrm => ?_⟩
    exact h7 m names (h4 m hm) hmd (hrm.createNode h.toRooted hm hd h1 fun he => absurd he hmd)

end rooms

section calls

variable {path : List Char} {fs : FileSystem} {r : Option Nat}

def createFileOk (k : Kernel) (path : List Char) : Prop :=
  path ≠ [] → k.FileWalk (k.startDir path) (components path)

instance (k : Kernel) (path : List Char) : Decidable (k.createFileOk path) :=
  inferInstanceAs (Decidable (_ → _))

def createDirOk (k : Kernel) (path : List Char) : Prop :=
  path ≠ [] → k.DirWalk (k.startDir path) (components path)

instance (k : Kernel) (path : List Char) : Decidable (k.createDirOk path) :=
  inferInstanceAs (Decidable (_ → _))

variable (env) in
def findOrCreateDirOk (k : Kernel) (path : List Char) : Prop :=
  findOk env Fits k path ∧ ∀ q, k.find env path = some (none, q) → q.createDirOk path

def names (files : List (String × Bool)) : List (List Char) := files.map fun f => f.1.toList

def sysDirs : List (List Char) :=
  ["kernel".toList, "firmware".toList, "memory".toList, "cpu".toList]

variable (env) in
def fsInitOk (k : Kernel) : FileSystem → Prop
  | .procfs => findOk env Fits k "/proc".toList ∧
      ∀ dir q, k.find env "/proc".toList = some (some dir, q) → q.Room dir (names procEntries)
  | .sysfs => k.findOrCreateDirOk env "/sys".toList ∧
      ∀ dir q, k.findOrCreateDir env "/sys".toList = some (some dir, q) → q.Room dir sysDirs
  | .devfs => k.makeDeviceOk env Fits (find env) (findOk env Fits) "kmsg".toList (some kmsgOps)
  | _ => True

variable (env) in
def mountOk (k : Kernel) (path : List Char) (fs : Option FileSystem) (data : Nat) : Prop :=
  path ≠ [] → k.findOrCreateDirOk env path ∧
    ∀ n q, k.findOrCreateDir env path = some (some n, q) →
      ∀ m q', (q.asMount n fs data).kmalloc env q.mounts.used = (some m, q') →
        ∀ f, fs = some f → (q'.enter m ⟨path, fs, data⟩).fsInitOk env f

theorem Planted.startDir (h : Planted k) (path : List Char) : k.Linked (k.startDir path) := by
  unfold Kernel.startDir
  split
  · exact .refl
  · rw [h.home]
    exact .refl

theorem Planted.createFilePath (h : Planted k) (hok : k.createFileOk path)
    (hc : k.createFilePath env path = some (r, k')) :
    Planted k' ∧ KeepsLinked k k' ∧ ∀ n, r = some n → k'.Linked n := by
  unfold Kernel.createFilePath at hc
  split at hc
  · cases hc
    exact ⟨h, fun _ hl => hl, nofun⟩
  · rename_i hne
    exact h.createFileIn (h.startDir path) (fun s => components_good) (hok hne) hc

theorem Planted.createDirPath (h : Planted k) (hok : k.createDirOk path)
    (hc : k.createDirPath env path = some (r, k')) :
    Planted k' ∧ KeepsLinked k k' ∧ ∀ n, r = some n → k'.Linked n := by
  unfold Kernel.createDirPath at hc
  split at hc
  · cases hc
    exact ⟨h, fun _ hl => hl, nofun⟩
  · rename_i hne
    obtain ⟨⟨n, k1⟩, h1, h2⟩ := Option.bind_eq_some_iff.mp hc
    cases h2
    obtain ⟨h3, h4, h5⟩ := h.createDirIn (h.startDir path) (fun s => components_good) (hok hne) h1
    refine ⟨h3, h4, fun m hm => ?_⟩
    cases hm
    exact h5

theorem Planted.createSymlinkPath {target : List Char} (h : Planted k) (hok : k.createFileOk path)
    (hc : k.createSymlinkPath env path target = some (r, k')) : Planted k' := by
  obtain ⟨⟨node, k1⟩, h1, h2⟩ := Option.bind_eq_some_iff.mp hc
  obtain ⟨h3, _, _⟩ := h.createFilePath hok h1
  cases node with
  | none =>
    cases h2
    exact h3
  | some n =>
    obtain ⟨-, h2⟩ := Option.ite_none_right_eq_some.mp h2
    cases h2
    exact h3.setNode rfl rfl rfl rfl

theorem Planted.findOrCreateDir (h : Planted k) (hok : k.findOrCreateDirOk env path)
    (hf : k.findOrCreateDir env path = some (r, k')) :
    Planted k' ∧ KeepsLinked k k' ∧ ∀ n, r = some n → k'.Linked n := by
  obtain ⟨⟨dir, k1⟩, h1, h2⟩ := Option.bind_eq_some_iff.mp hf
  obtain ⟨h3, h4, h5⟩ := planted_search.find h hok.1 h1
  cases dir with
  | none =>
    obtain ⟨h6, h7, h8⟩ := h3.createDirPath (hok.2 k1 h1) h2
    exact ⟨h6, fun m hm => h7 m (h4 m hm), h8⟩
  | some n =>
    cases h2
    exact ⟨h3, h4, h5⟩

theorem Planted.procfsInit {b : Bool} (h : Planted k) (hok : k.fsInitOk env .procfs)
    (hp : k.procfsInit env = some (b, k')) : Planted k' := by
  obtain ⟨⟨dir, k1⟩, h1, h2⟩ := Option.bind_eq_some_iff.mp hp
  obtain ⟨h3, _, h5⟩ := planted_search.find h hok.1 h1
  cases dir with
  | none =>
    cases h2
    exact h3
  | some n =>
    obtain ⟨k2, h6, h7⟩ := Option.bind_eq_some_iff.mp h2
    cases h7
    exact (h3.createNodes (h5 n rfl) (by decide) (by decide) (hok.2 n k1 h1) h6).1

/-- One directory more below `sys`, in which there is still room for `names`. -/
structure MadeDir (k : Kernel) (sys n : Nat) (names : List (List Char)) (k' : Kernel) : Prop where
  planted : Planted k'
  keeps : KeepsLinked k k'
  linked : k'.Linked n
  apart : ∀ m, k.Linked m → n ≠ m
  rest : Room k' sys names
  fresh : ∀ ns, Room k' n ns
  other : ∀ m ns, k.Linked m → m ≠ sys → Room k m ns → Room k' m ns

theorem Planted.madeDir {sys : Nat} {names : List (List Char)} (h : Planted k)
    (hv : k.Linked sys) (hroom : k.Room sys (name :: names)) (hgood : GoodName name)
    (hnew : name ∉ names) (hc : k.createNode env name true sys = some (n, k')) :
    MadeDir k sys n names k' := by
  have hrest : Room k sys names :=
    ⟨hroom.directory, fun s hs => hroom.free s (List.mem_cons_of_mem name hs)⟩
  obtain ⟨h1, h2, h3⟩ := h.createNode hv
    ⟨hroom.directory, hgood, hroom.free name List.mem_cons_self⟩ hc
  refine ⟨h1, h2, h3, fun m hm => createNode_ne h.toRooted hm hc,
    hrest.createNode h.toRooted hv hv hc fun _ => hnew, Room.fresh hv h.toRooted hc,
    fun m ns hm hne hr => ?_⟩
  exact hr.createNode h.toRooted hm hv hc fun he => absurd he hne

theorem Planted.sysfsNodes {sys : Nat} {b : Bool} (h : Planted k) (hv : k.Linked sys)
    (hroom : k.Room sys sysDirs) (hs : k.sysfsNodes env sys = some (b, k')) : Planted k' := by
  obtain ⟨⟨kernel, k1⟩, h1, hs⟩ := Option.bind_eq_some_iff.mp hs
  have d1 := h.madeDir hv hroom (by decide) (by decide) h1
  obtain ⟨⟨firmware, k2⟩, h2, hs⟩ := Option.bind_eq_some_iff.mp hs
  have v1 := d1.keeps sys hv
  have d2 := d1.planted.madeDir v1 d1.rest (by decide) (by decide) h2
  obtain ⟨⟨memory, k3⟩, h3, hs⟩ := Option.bind_eq_some_iff.mp hs
  have v2 := d2.keeps sys v1
  have d3 := d2.planted.madeDir v2 d2.rest (by decide) (by decide) h3
  obtain ⟨⟨cpu, k4⟩, h4, hs⟩ := Option.bind_eq_some_iff.mp hs
  have v3 := d3.keeps sys v2
  have d4 := d3.planted.madeDir v3 d3.rest (by decide) (by decide) h4
  -- the four directories stay empty until their files are made
  have kernel2 := d2.keeps kernel d1.linked
  have kernel3 := d3.keeps kernel kernel2
  have kernelRoom := fun ns => d4.other kernel ns kernel3 (d1.apart sys hv)
    (d3.other kernel ns kernel2 (d1.apart sys hv)
      (d2.other kernel ns d1.linked (d1.apart sys hv) (d1.fresh ns)))
  have firmware3 := d3.keeps firmware d2.linked
  have firmwareRoom := fun ns => d4.other firmware ns firmware3 (d2.apart sys v1)
    (d3.other firmware ns d2.linked (d2.apart sys v1) (d2.fresh ns))
  have memoryRoom := fun ns => d4.other memory ns d3.linked (d3.apart sys v2) (d3.fresh ns)
  obtain ⟨k5, h5, hs⟩ := Option.bind_eq_some_iff.mp hs
  obtain ⟨i5, l5, o5⟩ := d4.planted.createNodes (d4.keeps kernel kernel3) (by decide) (by decide)
    (kernelRoom _) h5
  obtain ⟨k6, h6, hs⟩ := Option.bind_eq_some_iff.mp hs
  have firmware4 := d4.keeps firmware firmware3
  have memory4 := d4.keeps memory d3.linked
  obtain ⟨i6, l6, o6⟩ := i5.createNodes (l5 firmware firmware4) (by decide) (by decide)
    (o5 firmware _ firmware4 (d2.apart kernel d1.linked) (firmwareRoom _)) h6
  obtain ⟨k7, h7, hs⟩ := Option.bind_eq_some_iff.mp hs
  have memory5 := l5 memory memory4
  obtain ⟨i7, l7, o7⟩ := i6.createNodes (l6 memory memory5) (by decide) (by decide)
    (o6 memory _ memory5 (d3.apart firmware d2.linked)
      (o5 memory _ memory4 (d3.apart kernel kernel2) (memoryRoom _))) h7
  obtain ⟨k8, h8, hs⟩ := Option.bind_eq_some_iff.mp hs
  have cpu5 := l5 cpu d4.linked
  have cpu6 := l6 cpu cpu5
  obtain ⟨i8, _, _⟩ := i7.createNodes (l7 cpu cpu6) (by decide) (by decide)
    (o7 cpu _ cpu6 (d4.apart memory d3.linked) (o6 cpu _ cpu5 (d4.apart firmware firmware3)
      (o5 cpu _ d4.linked (d4.apart kernel kernel3) (d4.fresh _)))) h8
  cases hs
  exact i8

theorem Planted.sysfsInit {b : Bool} (h : Planted k) (hok : k.fsInitOk env .sysfs)
    (hs : k.sysfsInit env = some (b, k')) : Planted k' := by
  obtain ⟨⟨dir, k1⟩, h1, h2⟩ := Option.bind_eq_some_iff.mp hs
  obtain ⟨h3, _, h5⟩ := h.findOrCreateDir hok.1 h1
  cases dir with
  | none =>
    cases h2
    exact h3
  | some n => exact h3.sysfsNodes (h5 n rfl) (hok.2 n k1 h1) h2

theorem Planted.fsInit {b : Bool} (h : Planted k) (hok : k.fsInitOk env fs)
    (hf : k.fsInit env fs = some (b, k')) : Planted k' := by
  cases fs with
  | procfs => exact h.procfsInit hok hf
  | sysfs => exact h.sysfsInit hok hf
  | devfs =>
    obtain ⟨k1, h1, h2⟩ := Option.bind_eq_some_iff.mp hf
    cases h2
    exact (planted_search.registerDevice planted_search.find h hok h1).1
  | tarfs =>
    cases hf
    exact h
  | fat32 =>
    cases hf
    exact h
  | isofs =>
    cases hf
    exact h
  | tmpfs =>
    cases hf
    exact h

theorem Planted.mount {fs : Option FileSystem} {data : Nat} {b : Bool} (h : Planted k)
    (hok : k.mountOk env path fs data) (hm : k.mount env path fs data = some (b, k')) :
    Planted k' := by
  unfold Kernel.mount at hm
  split at hm
  · cases hm
    exact h
  · rename_i hne
    obtain ⟨hok1, hok2⟩ := hok hne
    obtain ⟨⟨node, k1⟩, h1, h2⟩ := Option.bind_eq_some_iff.mp hm
    obtain ⟨h3, _, _⟩ := h.findOrCreateDir hok1 h1
    cases node with
    | none =>
      cases h2
      exact h3
    | some n =>
      have h4 : Planted (k1.asMount n fs data) := h3.setNode rfl rfl rfl rfl
      unfold mountOn at h2
      dsimp only at h2
      split at h2
      · rename_i k2 hk
        cases h2
        rw [(kmalloc_eq hk).1]
        exact h4.same rfl rfl rfl
      · rename_i m k2 hk
        have h5 : Planted (k2.enter m ⟨path, fs, data⟩) := by
          rw [(kmalloc_eq hk).1]
          exact h4.same rfl rfl rfl
        obtain ⟨-, h2⟩ := Option.ite_none_right_eq_some.mp h2
        cases fs with
        | none =>
          cases h2
          exact h5
        | some fs => exact h5.fsInit (hok2 n k1 h1 m k2 hk fs rfl) h2

theorem Planted.umount {b : Bool} (h : Planted k)
    (hok : ∀ m, k.mountTable.find? (fun m => (k.mounts.cell m).path = path) = some m →
      findOk env Fits { k with mountTable := k.mountTable.erase m } path)
    (hu : k.umount env path = some (b, k')) : Planted k' := by
  cases umount_cases hu with
  | inl hk' =>
    rw [hk']
    exact h
  | inr hu =>
    obtain ⟨m, node, q, q', hm, h1, hnode, rfl⟩ := hu
    have h2 : Planted { k with mountTable := k.mountTable.erase m } := h.same rfl rfl rfl
    obtain ⟨h3, _, _⟩ := planted_search.find h2 (hok m hm) h1
    cases hnode with
    | inl hq =>
      rw [hq]
      exact h3.same rfl rfl rfl
    | inr hq =>
      obtain ⟨n, _, rfl⟩ := hq
      have h4 : Planted (q.asDir n) := h3.setNode rfl rfl rfl rfl
      exact h4.same rfl rfl rfl

theorem Planted.remove {b : Bool} (h : Planted k) (hok : findOk env Fits k path)
    (hr : k.remove env path = some (b, k')) : Planted k' := by
  obtain ⟨node, q, h1, hr⟩ := remove_cases hr
  obtain ⟨h3, _, h5⟩ := planted_search.find h hok h1
  cases hr with
  | inl hk' =>
    rw [hk']
    exact h3
  | inr hr =>
    obtain ⟨n, parent, rfl, hroot, hempty, hp, rfl⟩ := hr
    have h6 := h3.takeOut hroot hempty (h5 n rfl) hp
    obtain ⟨files, blocks, freed, hdrop⟩ := dropFile_rest q n
    rw [hdrop]
    exact h6.same rfl rfl rfl

end calls

section noDevfs

variable {P : Guard}

def NoDevfs (k : Kernel) : Prop := ∀ n, (k.node n).filesystem ≠ some .devfs

theorem NoDevfs.setNode {y : Node} (h : NoDevfs k) (hy : y.filesystem = (k.node n).filesystem) :
    NoDevfs (k.setNode n y) := by
  intro m
  rw [setNode_node]
  split
  · rw [hy]
    exact h n
  · exact h m

theorem noDevfs_search : SearchRule env P NoDevfs (fun _ _ => True) (fun _ _ => True) where
  refl _ := trivial
  trans _ _ := trivial
  keep _ _ := trivial
  root _ := trivial
  cwd _ := trivial
  parent _ _ _ := trivial
  child _ _ _ := trivial
  alloc h := ⟨h, trivial⟩
  device _ h := ⟨h, trivial⟩
  dev := by
    intro k name dir n k' dev h _ _ hc
    obtain ⟨_, rfl⟩ := createNode_eq env hc
    refine ⟨NoDevfs.setNode (fun m => ?_) rfl, trivial⟩
    have hold : ∀ y, (if y = n then newNode { k with allocs := k.allocs + 1 } name false dir
        else k.node y).filesystem ≠ some .devfs := by
      intro y
      split
      · exact h dir
      · exact h y
    rw [linkNew_node]
    dsimp only
    by_cases hm : m = dir
    · rw [if_pos hm]
      exact hold dir
    · rw [if_neg hm]
      exact hold m
  ask := by
    intro k k' n fs found _ _ _ _ _ h _
    refine ⟨?_, trivial⟩
    cases found with
    | false => exact h
    | true => exact h

theorem findToOk_of_noDevfs (n : Nat) {k : Kernel} (h : NoDevfs k) (path : List Char) :
    findToOk env P n k path := by
  induction n generalizing k path with
  | zero => trivial
  | succ n ih =>
    have rule : SearchRule env P NoDevfs (fun _ _ => True) (fun _ _ => True) := noDevfs_search
    have hlinks : ∀ depth c {q : Kernel}, NoDevfs q →
        followLinksOk env (findTo env n) (findToOk env P n) depth c q := by
      intro depth
      induction depth with
      | zero => exact fun _ _ _ => trivial
      | succ depth ihd =>
        intro c q hq _ target _
        refine ⟨ih hq target, fun m q' hf => ?_⟩
        exact ihd m (rule.findTo n hq (ih hq target) hf).1
    have hparts : ∀ ps c {q : Kernel}, NoDevfs q →
        walkPartsOk env P (findTo env n) (findToOk env P n) ps c q := by
      intro ps
      induction ps with
      | nil => exact fun _ _ _ => trivial
      | cons p ps ihp =>
        intro c q hq
        unfold walkPartsOk
        dsimp only
        split
        · exact ihp c hq
        · split
          · exact ihp _ hq
          · refine ⟨fun _ _ hfs => absurd hfs (hq c), fun d _ => ⟨hlinks 8 d hq, fun m q' hf => ?_⟩⟩
            exact ihp m (rule.followLinks (rule.findTo n) hq trivial (hlinks 8 d hq) hf).1
    unfold findToOk
    split
    · trivial
    · exact hparts _ _ h
    · exact hparts _ _ h

end noDevfs

section runs

def keepsTree (env : Env) (k : Kernel) : Event → Prop
  | .createFilePath path => k.createFileOk path
  | .createDirPath path => k.createDirOk path
  | .createSymlinkPath path _ => k.createFileOk path
  | .registerDevice name dev =>
      k.makeDeviceOk env Fits (find env) (findOk env Fits) name (some dev)
  | .mount path fs => k.mountOk env path fs 0
  | .mountVolume path fs => ∀ v q, k.kmalloc env ∅ = (some v, q) →
      { q with volumes := (fs, v + 1) :: q.volumes }.mountOk env path (some fs) (v + 1)
  | .umount path => ∀ m, k.mountTable.find? (fun m => (k.mounts.cell m).path = path) = some m →
      findOk env Fits { k with mountTable := k.mountTable.erase m } path
  | .remove path => findOk env Fits k path
  | _ => False

theorem Planted.step {ev : Event} {r : Reply} (h : Planted k) (hok : keepsTree env k ev)
    (hs : k.step env ev = some (r, k')) : Planted k' := by
  cases ev with
  | createFilePath path =>
    simp only [Kernel.step] at hs
    obtain ⟨a, hs⟩ := answer_some hs
    exact (h.createFilePath hok hs).1
  | createDirPath path =>
    simp only [Kernel.step] at hs
    obtain ⟨a, hs⟩ := answer_some hs
    exact (h.createDirPath hok hs).1
  | createSymlinkPath path target =>
    simp only [Kernel.step] at hs
    obtain ⟨a, hs⟩ := answer_some hs
    exact h.createSymlinkPath hok hs
  | registerDevice name dev =>
    exact (planted_search.registerDevice planted_search.find h hok (silent_some hs)).1
  | mount path fs =>
    obtain ⟨a, hs⟩ := answer_some hs
    exact h.mount hok hs
  | mountVolume path fs =>
    obtain ⟨a, hs⟩ := answer_some hs
    unfold Kernel.mountVolume at hs
    split at hs
    · rename_i k1 hk
      cases hs
      rw [(kmalloc_eq hk).1]
      exact h.same rfl rfl rfl
    · rename_i v k1 hk
      have h1 : Planted { k1 with volumes := (fs, v + 1) :: k1.volumes } := by
        rw [(kmalloc_eq hk).1]
        exact h.same rfl rfl rfl
      exact h1.mount (hok v k1 hk) hs
  | umount path =>
    obtain ⟨a, hs⟩ := answer_some hs
    exact h.umount hok hs
  | remove path =>
    obtain ⟨a, hs⟩ := answer_some hs
    exact h.remove hok hs
  | _ => cases hok

theorem Reached.planted (h : Reached keepsTree k) : Planted k :=
  h.invariant boot_planted (fun hi hok hs => hi.step hok hs)

/-- In every run of these calls in which each of them comes back and each new node gets a directory
for a parent and a good name that no sibling has, the tree stays well formed. -/
theorem tree_wellFormed
    (h : Reached (fun env k ev => keepsTree env k ev ∧ k.ComesBack env ev) k) : WellFormed k := by
  exact (h.mono fun _ _ _ hok => hok.1).planted.wellFormed

/-- A mount point and a file below it. -/
theorem tree_wellFormed_mount : ∃ k, boot.runAll [(freshEnv, .mount "/mnt".toList (some .tmpfs)),
    (freshEnv, .createFilePath "/mnt/a".toList)] = some k ∧ k.nodes.used = {0, 1, 3} ∧
      WellFormed k := by
  have hrun : (boot.runAll [(freshEnv, .mount "/mnt".toList (some .tmpfs)),
      (freshEnv, .createFilePath "/mnt/a".toList)]).any (fun k => k.nodes.used = {0, 1, 3}) = true := by
    decide +kernel
  have hdir : (boot.find freshEnv "/mnt".toList).all (fun r => r.2.createDirOk "/mnt".toList) =
      true := by decide +kernel
  have hfile : (boot.runAll [(freshEnv, .mount "/mnt".toList (some .tmpfs))]).any
      (fun k => k.createFileOk "/mnt/a".toList) = true := by decide +kernel
  have hnone : NoDevfs boot := fun _ h => by cases h
  have hmount : boot.mountOk freshEnv "/mnt".toList (some .tmpfs) 0 := by
    refine fun _ => ⟨⟨findToOk_of_noDevfs 8 hnone _, fun q hq => ?_⟩, fun n q _ m q' _ f hf => ?_⟩
    · rw [hq] at hdir
      exact of_decide_eq_true hdir
    · cases hf
      trivial
  obtain ⟨k, hk, hused⟩ := any_exists hrun
  obtain ⟨k1, hk1, hr1, hk⟩ :=
    Reached.first (Reached.boot : Reached keepsTree boot) hk hmount
  obtain ⟨k1', hk1', hok⟩ := any_exists hfile
  cases hk1.symm.trans hk1'
  have hok : k1.createFileOk "/mnt/a".toList := of_decide_eq_true hok
  obtain ⟨k2, _, hr2, hk⟩ := hr1.first hk hok
  cases hk
  exact ⟨k, by assumption, of_decide_eq_true hused, tree_wellFormed hr2.comesBack⟩

/-- `mkdir` makes a directory with the name `..`. -/
theorem dots_created : ¬ ∀ k, Reached (fun _ _ ev => ∃ path, ev = .createDirPath path) k →
    WellFormed k := by
  intro hall
  have hrun : (boot.runAll [(freshEnv, .createDirPath "/etc/..".toList)]).any (fun k =>
      2 ∈ k.nodes.used ∧ 2 ≠ k.root ∧ (k.node 2).name = "..".toList) = true := by decide +kernel
  obtain ⟨k, hk, h⟩ := any_exists hrun
  obtain ⟨hused, hroot, hname⟩ := of_decide_eq_true h
  have hreach : Reached (fun _ _ ev => ∃ path, ev = .createDirPath path) k := by
    refine Reached.boot.runAll (fun q s hs => ?_) hk
    rw [List.mem_singleton.mp hs]
    exact ⟨_, rfl⟩
  have hgood := (hall k hreach).names 2 hused hroot
  rw [hname] at hgood
  exact hgood.2.2.1 rfl

end runs

end Kernel

end LosTacOS.Os
