import LosTacOS.Os.Agreeing

/-! What a search by path makes. It comes to components that are missing, its own and those of the
links on its way; devfs makes a device of such a component when the text has the form of a name. -/
namespace LosTacOS.Os.Kernel

variable {env : Env} {k b q : Kernel} {path text : List Char} {r : Option Nat}

section misses

variable (env : Env) (find : Finder) (missed : Kernel → List Char → List Miss)

def linkMisses : Nat → Nat → Kernel → List Miss
  | 0, _, _ => []
  | depth + 1, n, k =>
    if (k.node n).type = .symlink then
      match k.linkTarget env n with
      | none => []
      | some target =>
        missed k target ++
          match find k target with
          | some (some m, k) => linkMisses depth m k
          | _ => []
    else []

def partMisses : List (List Char × Option (List Char)) → Nat → Kernel → List Miss
  | [], _, _ => []
  | (part, rest) :: ps, n, k =>
    if cut part = [] ∨ cut part = ['.'] then partMisses ps n k
    else if cut part = ['.', '.'] then partMisses ps ((k.node n).parent.getD n) k
    else
      match k.findIn n (cut part) with
      | none => [⟨k, n, part, rest⟩]
      | some c =>
        linkMisses env find missed 8 c k ++
          match followLinks env find 8 c k with
          | some (some m, k) => partMisses ps m k
          | _ => []

def missesTo : Nat → Kernel → List Char → List Miss
  | 0, _, _ => []
  | n + 1, k, path =>
    match path with
    | [] => []
    | '/' :: rest =>
      partMisses env (findTo env n) (missesTo n) (parts (rest.length + 1) rest) k.root k
    | _ =>
      partMisses env (findTo env n) (missesTo n) (parts (path.length + 1) path) k.getProcessCwd k

/-- The components that a search comes to and misses, each with the state then. -/
def misses (k : Kernel) (path : List Char) : List Miss := missesTo env env.fuel k path

end misses

def newDevice (env : Env) (k : Kernel) (name : List Char) : Bool :=
  (k.findDevice name).isNone && k.hasDevice env name

def makes (env : Env) (m : Miss) : Bool :=
  match (m.kernel.node m.node).type, (m.kernel.node m.node).filesystem with
  | .mount, some .devfs => (m.handed env.beyond).any (m.kernel.newDevice env)
  | _, _ => false

section longer

/-- Neither a node nor a device has been made. -/
def Unmade (k q : Kernel) : Prop := q.nodes.used = k.nodes.used ∧ q.devices = k.devices

structure Longer (k q : Kernel) : Prop where
  used : k.nodes.used ⊆ q.nodes.used
  devices : k.devices <:+ q.devices

theorem Longer.same (hn : q.nodes.used = k.nodes.used) (hd : q.devices = k.devices) : Longer k q :=
  ⟨hn.ge, hd ▸ List.suffix_refl _⟩

theorem Longer.unmade_trans (h : Longer k b) (h' : Longer b q) :
    Unmade k q ↔ Unmade k b ∧ Unmade b q := by
  constructor
  · rintro ⟨hn, hd⟩
    have hused : b.nodes.used = k.nodes.used := Finset.Subset.antisymm (hn ▸ h'.used) h.used
    have hlen : b.devices.length ≤ k.devices.length := hd ▸ h'.devices.length_le
    have hdev : k.devices = b.devices :=
      h.devices.eq_of_length (Nat.le_antisymm h.devices.length_le hlen)
    exact ⟨⟨hused, hdev.symm⟩, hn.trans hused.symm, hd.trans hdev⟩
  · rintro ⟨⟨hn, hd⟩, hn', hd'⟩
    exact ⟨hn'.trans hn, hd'.trans hd⟩

theorem longer_kept : GrowRule env (fun _ => True) Longer (fun _ _ => True) where
  refl _ := .same rfl rfl
  trans h h' := ⟨h.used.trans h'.used, h.devices.trans h'.devices⟩
  keep _ _ := trivial
  root _ := trivial
  cwd _ := trivial
  parent _ _ _ := trivial
  child _ _ _ := trivial
  alloc _ := ⟨trivial, .same rfl rfl⟩
  device d _ := ⟨trivial, fun _ hx => hx, List.suffix_cons d _⟩
  dev := by
    intro k name dir n k' dev _ _ _ hc
    obtain ⟨-, rfl⟩ := createNode_eq env hc
    exact ⟨trivial, Finset.subset_insert _ _, List.suffix_refl _⟩
  ask found _ _ _ _ _ _ _ := by
    cases found with
    | false => exact ⟨trivial, .same rfl rfl⟩
    | true => exact ⟨trivial, .same rfl rfl⟩
  create := by
    intro k name d dir n k' _ _ hc
    obtain ⟨-, rfl⟩ := createNode_eq env hc
    exact ⟨trivial, ⟨Finset.subset_insert _ _, List.suffix_refl _⟩, trivial⟩

end longer

section steps

/-- A search only adds, and what it misses tells whether it has added anything. -/
def Tells (env : Env) (find : Finder) (missed : Kernel → List Char → List Miss) : Prop :=
  ∀ {k path r q}, find k path = some (r, q) →
    Longer k q ∧ (Unmade k q ↔ ∀ m ∈ missed k path, makes env m = false)

variable {find : Finder} {missed : Kernel → List Char → List Miss}

theorem Tells.follows (h : Tells env find missed) :
    find.Follows (fun _ _ => True) (fun _ => True) Longer (fun _ _ => True) :=
  fun _ _ hf => ⟨trivial, (h hf).1, fun _ _ => trivial⟩

theorem Tells.makeDevice (h : Tells env find missed) {name : List Char} {ops : Option DevOps}
    {found : Bool} (hm : k.makeDevice env find name ops = some (found, q)) :
    Unmade k q ↔ (k.kmalloc env ∅).1.isSome = false := by
  unfold Kernel.makeDevice at hm
  cases hk : k.kmalloc env ∅ with
  | mk x k1 =>
    rw [hk] at hm
    obtain ⟨rfl, -⟩ := kmalloc_eq hk
    cases x with
    | none =>
      cases hm
      exact ⟨fun _ => rfl, fun _ => ⟨rfl, rfl⟩⟩
    | some x =>
      have hmore : ({ k with allocs := k.allocs + 1, devices := (name, ops) :: k.devices } :
          Kernel).devices <:+ q.devices := by
        cases ops with
        | none =>
          cases hm
          exact List.suffix_refl _
        | some dev =>
          obtain ⟨⟨_, k2⟩, hc, hm⟩ := Option.bind_eq_some_iff.mp hm
          cases hm
          exact (longer_kept.toSearchRule.createDev h.follows trivial
            ⟨trivial, fun _ _ _ => trivial⟩ hc).2.devices
      refine ⟨fun hsame => ?_, fun hno => Bool.noConfusion hno⟩
      have hlen := hmore.length_le
      rw [hsame.2] at hlen
      exact absurd hlen (Nat.not_succ_le_self _)

theorem Tells.openDevice (h : Tells env find missed) {name : List Char} {found : Bool}
    (ho : k.openDevice env find name = some (found, q)) :
    Unmade k q ↔ k.newDevice env name = false := by
  unfold Kernel.openDevice at ho
  unfold newDevice hasDevice
  by_cases hthere : (k.findDevice name).isSome = true
  · rw [if_pos hthere] at ho
    cases ho
    simp [Option.isNone_iff_eq_none, Option.isSome_iff_ne_none.mp hthere, Unmade]
  · rw [if_neg hthere] at ho
    have hnone : (k.findDevice name).isNone = true := by simpa using hthere
    rw [hnone, Bool.eq_false_iff.mpr hthere, Bool.true_and, Bool.false_or]
    by_cases htty : isNumbered "tty" name = true
    · rw [if_pos htty] at ho
      rw [htty, Bool.true_or, Bool.true_and]
      exact h.makeDevice ho
    · rw [if_neg htty] at ho
      rw [Bool.eq_false_iff.mpr htty, Bool.false_or]
      by_cases hfb : isNumbered "fb" name = true
      · rw [if_pos hfb] at ho
        obtain ⟨base, -, ho⟩ := Option.bind_eq_some_iff.mp ho
        rw [hfb, Bool.true_and]
        exact h.makeDevice ho
      · rw [if_neg hfb] at ho
        cases ho
        rw [Bool.eq_false_iff.mpr hfb, Bool.false_and]
        exact ⟨fun _ => rfl, fun _ => ⟨rfl, rfl⟩⟩

theorem Tells.fsOpen (h : Tells env find missed) {fs : FileSystem} {data : Nat}
    (ho : k.fsOpen env find fs data text = some (r, q)) :
    Unmade k q ↔ (fs = .devfs → k.newDevice env text = false) := by
  unfold Kernel.fsOpen at ho
  by_cases hdev : fs = .devfs
  · rw [if_pos hdev] at ho
    obtain ⟨⟨found, k1⟩, hf, ho⟩ := Option.bind_eq_some_iff.mp ho
    cases ho
    exact (h.openDevice hf).trans ⟨fun hno _ => hno, fun hno => hno hdev⟩
  · rw [if_neg hdev] at ho
    cases ho
    exact ⟨fun _ hd => absurd hd hdev, fun _ => ⟨rfl, rfl⟩⟩

theorem makes_mount {m : Miss} {fs : FileSystem} (ht : (m.kernel.node m.node).type = .mount)
    (hf : (m.kernel.node m.node).filesystem = some fs) :
    makes env m = (decide (fs = .devfs) && (m.handed env.beyond).any (m.kernel.newDevice env)) := by
  unfold makes
  rw [ht, hf]
  cases fs with
  | devfs => rfl
  | _ => rfl

theorem makes_other {m : Miss} (h : ∀ fs, (m.kernel.node m.node).type = .mount →
    (m.kernel.node m.node).filesystem = some fs → False) : makes env m = false := by
  unfold makes
  split
  · rename_i ht hf
    exact absurd hf (h _ ht)
  · rfl

theorem Tells.findMounted (h : Tells env find missed) {m : Miss}
    (hm : m.kernel.findMounted env find m.node (cut m.part) m.rest = some (r, q)) :
    Longer m.kernel q ∧ (Unmade m.kernel q ↔ makes env m = false) := by
  refine ⟨(longer_kept.toSearchRule.findMounted h.follows trivial trivial
    (fun _ _ => openDeviceOk_true (fun _ _ _ => trivial) (fun _ _ => trivial) _) hm).2.1, ?_⟩
  by_cases hmount : ∃ fs, (m.kernel.node m.node).type = .mount ∧
      (m.kernel.node m.node).filesystem = some fs
  · obtain ⟨fs, ht, hf⟩ := hmount
    rw [makes_mount ht hf]
    by_cases ho : fs.has .open = true
    · rw [findMounted_handed ht hf ho] at hm
      obtain ⟨text, htext, hm⟩ := Option.bind_eq_some_iff.mp hm
      obtain ⟨⟨handle, k1⟩, hopen, hm⟩ := Option.bind_eq_some_iff.mp hm
      have hclosed : Unmade m.kernel q ↔ Unmade m.kernel k1 := by
        cases handle with
        | none =>
          cases hm
          exact Iff.rfl
        | some x =>
          cases hm
          exact Iff.rfl
      rw [hclosed, h.fsOpen hopen, htext, Option.any_some, Bool.and_eq_false_imp, decide_eq_true_iff]
    · have hdev : fs ≠ .devfs := by
        rintro rfl
        exact ho rfl
      unfold Kernel.findMounted at hm
      rw [ht, hf] at hm
      dsimp only at hm
      rw [if_neg ho] at hm
      cases hm
      rw [decide_eq_false hdev, Bool.false_and]
      exact ⟨fun _ => rfl, fun _ => ⟨rfl, rfl⟩⟩
  · have hno : ∀ fs, (m.kernel.node m.node).type = .mount →
        (m.kernel.node m.node).filesystem = some fs → False := fun fs ht hf => hmount ⟨fs, ht, hf⟩
    rw [makes_other hno]
    unfold Kernel.findMounted at hm
    split at hm
    · rename_i fs ht hf
      exact absurd hf (hno fs ht)
    · cases hm
      exact ⟨fun _ => rfl, fun _ => ⟨rfl, rfl⟩⟩

theorem tells_nothing {P : Miss → Prop} : Longer k k ∧ (Unmade k k ↔ ∀ m ∈ ([] : List Miss), P m) :=
  ⟨.same rfl rfl, fun _ _ hm => absurd hm List.not_mem_nil, fun _ => ⟨rfl, rfl⟩⟩

theorem tells_both {P : Miss → Prop} {ms ms' : List Miss} (h : Longer k b ∧ (Unmade k b ↔ ∀ m ∈ ms, P m))
    (h' : Longer b q ∧ (Unmade b q ↔ ∀ m ∈ ms', P m)) :
    Longer k q ∧ (Unmade k q ↔ ∀ m ∈ ms ++ ms', P m) := by
  refine ⟨⟨h.1.used.trans h'.1.used, h.1.devices.trans h'.1.devices⟩, ?_⟩
  rw [h.1.unmade_trans h'.1, h.2, h'.2, List.forall_mem_append]

theorem Tells.followLinks (h : Tells env find missed) {depth n : Nat}
    (hl : Kernel.followLinks env find depth n k = some (r, q)) :
    Longer k q ∧ (Unmade k q ↔ ∀ m ∈ linkMisses env find missed depth n k, makes env m = false) := by
  induction depth generalizing n k with
  | zero =>
    have hsame : q = k := by
      unfold Kernel.followLinks at hl
      split at hl
      · cases hl
        rfl
      · cases hl
        rfl
    rw [hsame]
    exact tells_nothing
  | succ depth ih =>
    unfold Kernel.followLinks at hl
    unfold linkMisses
    by_cases hlink : (k.node n).type = .symlink
    · rw [if_pos hlink] at hl ⊢
      obtain ⟨target, ht, hl⟩ := Option.bind_eq_some_iff.mp hl
      obtain ⟨⟨next, k1⟩, hn, hl⟩ := Option.bind_eq_some_iff.mp hl
      rw [ht]
      dsimp only
      rw [hn]
      refine tells_both (h hn) ?_
      cases next with
      | none =>
        cases hl
        exact tells_nothing
      | some m => exact ih hl
    · rw [if_neg hlink] at hl ⊢
      cases hl
      exact tells_nothing

/-- One component after the other, the links in between first. -/
theorem Tells.walkParts (h : Tells env find missed) {ps : List (List Char × Option (List Char))}
    {n : Nat} (hw : Kernel.walkParts env find ps n k = some (r, q)) :
    Longer k q ∧ (Unmade k q ↔ ∀ m ∈ partMisses env find missed ps n k, makes env m = false) := by
  induction ps generalizing n k with
  | nil =>
    cases hw
    exact tells_nothing
  | cons p ps ih =>
    obtain ⟨part, rest⟩ := p
    rw [Kernel.walkParts] at hw
    rw [partMisses]
    dsimp only at hw
    by_cases hskip : cut part = [] ∨ cut part = ['.']
    · rw [if_pos hskip] at hw ⊢
      exact ih hw
    · rw [if_neg hskip] at hw ⊢
      by_cases hup : cut part = ['.', '.']
      · rw [if_pos hup] at hw ⊢
        exact ih hw
      · rw [if_neg hup] at hw ⊢
        cases hc : k.findIn n (cut part) with
        | none =>
          rw [hc] at hw
          rw [List.forall_mem_singleton]
          exact h.findMounted (m := ⟨k, n, part, rest⟩) hw
        | some c =>
          rw [hc] at hw
          obtain ⟨⟨next, k1⟩, hl, hw⟩ := Option.bind_eq_some_iff.mp hw
          dsimp only
          rw [hl]
          refine tells_both (h.followLinks hl) ?_
          cases next with
          | none =>
            cases hw
            exact tells_nothing
          | some m => exact ih hw

theorem findTo_tells (n : Nat) : Tells env (findTo env n) (missesTo env n) := by
  induction n with
  | zero =>
    intro k path r q hf
    cases hf
  | succ n ih =>
    intro k path r q hf
    cases path with
    | nil =>
      cases hf
      exact tells_nothing
    | cons c text =>
      by_cases hc : c = '/'
      · subst hc
        exact Tells.walkParts ih hf
      · rw [findTo_names hc] at hf
        rw [missesTo]
        · exact Tells.walkParts ih hf
        · exact nofun
        · exact fun _ he => hc (List.cons.inj he).1

end steps

/-- A search makes nothing exactly when none of the components that it misses is the name of a new
device below a mount point of devfs. -/
theorem find_unmade_iff (h : k.find env path = some (r, q)) :
    Unmade k q ↔ ∀ m ∈ k.misses env path, makes env m = false :=
  (findTo_tells env.fuel h).2

end LosTacOS.Os.Kernel
