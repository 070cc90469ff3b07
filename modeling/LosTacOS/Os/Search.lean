import LosTacOS.Os.Step

/-! What a search by path can do to the kernel: ask mounted file systems, and through devfs add
device nodes. One rule covers every property that these few steps keep. -/
namespace LosTacOS.Os.Kernel

variable {env : Env} {I : Kernel → Prop} {R : Kernel → Kernel → Prop} {V : Kernel → Nat → Prop}

def opened (k : Kernel) (fs : FileSystem) (data : Nat) (found : Bool) : Kernel :=
  { k with
    handles := k.handles + 1
    fsLog := .opened fs data (if found then some k.handles else none) :: k.fsLog }

theorem findTo_names {j : Nat} {k : Kernel} {c : Char} {text : List Char} (hc : c ≠ '/') :
    findTo env (j + 1) k (c :: text) = walkParts env (findTo env j)
      (parts ((c :: text).length + 1) (c :: text)) k.getProcessCwd k := by
  rw [findTo]
  · exact nofun
  · exact fun _ he => hc (List.cons.inj he).1

def asked (k : Kernel) (fs : FileSystem) (data : Nat) (found : Bool) : Kernel :=
  if found then (k.opened fs data true).fsClose fs k.handles else k.opened fs data false

def asDevice (k : Kernel) (n : Nat) (dev : DevOps) : Kernel :=
  k.setNode n { k.node n with dev := some dev, type := .dev }

section guard

/-- What is asked of the calls to `create_node`: their state, name and parent. -/
abbrev Guard := Kernel → List Char → Nat → Prop

variable (env) (P : Guard) (find : Finder) (ok : Kernel → List Char → Prop)

/-- `createDev` creates its node only where `P` allows it, `ok` being the same for the search that
it starts with. So for the functions that follow, one for each function of a search. -/
def createDevOk (k : Kernel) (name : List Char) : Prop :=
  ok k "/dev".toList ∧ ∀ dir q, find k "/dev".toList = some (some dir, q) → P q name dir

def makeDeviceOk (k : Kernel) (name : List Char) (ops : Option DevOps) : Prop :=
  ∀ a q dev, k.kmalloc env ∅ = (some a, q) → ops = some dev →
    createDevOk P find ok { q with devices := (name, some dev) :: q.devices } name

def openDeviceOk (k : Kernel) (name : List Char) : Prop :=
  k.findDevice name = none →
    if isNumbered "tty" name then
      k.makeDeviceOk env P find ok name ((k.findDevice "tty".toList).getD none)
    else if isNumbered "fb" name then ∀ base,
      ((k.findDevice "fb".toList).orElse fun _ => k.findDevice "fb0".toList) = some base →
        k.makeDeviceOk env P find ok name base
    else True

def findMountedOk (k : Kernel) (n : Nat) (part : List Char) (rest : Option (List Char)) : Prop :=
  (k.node n).type = .mount → (k.node n).filesystem = some .devfs →
    k.openDeviceOk env P find ok (relpath part (rest.getD env.beyond))

def followLinksOk : Nat → Nat → Kernel → Prop
  | 0, _, _ => True
  | depth + 1, n, k => (k.node n).type = .symlink → ∀ target, k.linkTarget env n = some target →
      ok k target ∧ ∀ m q, find k target = some (some m, q) → followLinksOk depth m q

def walkPartsOk : List (List Char × Option (List Char)) → Nat → Kernel → Prop
  | [], _, _ => True
  | (part, rest) :: ps, n, k =>
    let part := cut part
    if part = [] ∨ part = ['.'] then walkPartsOk ps n k
    else if part = ['.', '.'] then walkPartsOk ps ((k.node n).parent.getD n) k
    else
      (k.findIn n part = none → k.findMountedOk env P find ok n part rest) ∧
      ∀ c, k.findIn n part = some c → followLinksOk env find ok 8 c k ∧
        ∀ m q, followLinks env find 8 c k = some (some m, q) → walkPartsOk ps m q

def findToOk : Nat → Kernel → List Char → Prop
  | 0, _, _ => True
  | n + 1, k, path =>
    match path with
    | [] => True
    | '/' :: rest =>
      walkPartsOk env P (findTo env n) (findToOk n) (parts (rest.length + 1) rest) k.root k
    | _ =>
      walkPartsOk env P (findTo env n) (findToOk n) (parts (path.length + 1) path)
        k.getProcessCwd k

/-- Every device node that the search makes is one that `P` allows. -/
def findOk : Kernel → List Char → Prop := findToOk env P env.fuel

end guard

/-- `I` holds throughout a search, `R` relates its start to its end and `V` holds of the nodes it
comes to, provided that `P` allows the device nodes it makes. -/
structure SearchRule (env : Env) (P : Guard) (I : Kernel → Prop) (R : Kernel → Kernel → Prop)
    (V : Kernel → Nat → Prop) : Prop where
  refl : ∀ k, R k k
  trans : ∀ {a b c}, R a b → R b c → R a c
  keep : ∀ {k k' n}, R k k' → V k n → V k' n
  root : ∀ {k}, I k → V k k.root
  cwd : ∀ {k}, I k → V k k.getProcessCwd
  parent : ∀ {k n p}, I k → V k n → (k.node n).parent = some p → V k p
  child : ∀ {k n name c}, I k → V k n → k.findIn n name = some c → V k c
  alloc : ∀ {k}, I k → I { k with allocs := k.allocs + 1 } ∧ R k { k with allocs := k.allocs + 1 }
  device : ∀ {k} d, I k →
    I { k with devices := d :: k.devices } ∧ R k { k with devices := d :: k.devices }
  dev : ∀ {k name dir n k'} dev, I k → V k dir → P k name dir →
    k.createNode env name false dir = some (n, k') →
    I (k'.asDevice n dev) ∧ R k (k'.asDevice n dev)
  ask : ∀ {k k' n fs} found, I k → V k n → (k.node n).type = .mount →
    (k.node n).filesystem = some fs → fs.has .open = true → I k' → R k k' →
    I (k'.asked fs (k.node n).mountData found) ∧ R k' (k'.asked fs (k.node n).mountData found)

def Finder.Follows (find : Finder) (ok : Kernel → List Char → Prop) (I : Kernel → Prop)
    (R : Kernel → Kernel → Prop) (V : Kernel → Nat → Prop) : Prop :=
  ∀ {k path r k'}, I k → ok k path → find k path = some (r, k') →
    I k' ∧ R k k' ∧ ∀ n, r = some n → V k' n

namespace SearchRule

variable {search : Finder} {ok : Kernel → List Char → Prop} {P : Guard}
  (h : SearchRule env P I R V)
include h

theorem createDev (hf : search.Follows ok I R V) {k k' : Kernel} {name : List Char} {dev : DevOps}
    {r : Option Nat} (hi : I k) (hok : createDevOk P search ok k name)
    (hc : k.createDev env search name dev = some (r, k')) : I k' ∧ R k k' := by
  simp only [Kernel.createDev, Option.bind_eq_bind, Option.bind_eq_some_iff] at hc
  obtain ⟨⟨dir, k1⟩, hd, hc⟩ := hc
  have h1 := hf hi hok.1 hd
  cases dir with
  | none =>
    simp only [Option.some.injEq, Prod.mk.injEq] at hc
    rw [← hc.2]
    exact ⟨h1.1, h1.2.1⟩
  | some dir =>
    simp only [Option.bind_eq_some_iff, Option.some.injEq, Prod.mk.injEq] at hc
    obtain ⟨⟨n, k2⟩, hn, hc⟩ := hc
    have h2 := h.dev dev h1.1 (h1.2.2 dir rfl) (hok.2 dir k1 hd) hn
    rw [← hc.2]
    exact ⟨h2.1, h.trans h1.2.1 h2.2⟩

theorem kmalloc {k k' : Kernel} {used : Finset Nat} {a : Option Nat} (hi : I k)
    (ha : k.kmalloc env used = (a, k')) : I k' ∧ R k k' := by
  cases ha
  exact h.alloc hi

theorem registerDevice (hf : search.Follows ok I R V) {k k' : Kernel} {name : List Char} {dev : DevOps}
    (hi : I k) (hok : k.makeDeviceOk env P search ok name (some dev))
    (hr : k.registerDevice env search name dev = some k') : I k' ∧ R k k' := by
  unfold Kernel.registerDevice at hr
  split at hr
  · rename_i k1 hk
    cases hr
    exact h.kmalloc hi hk
  · rename_i a k1 hk
    have h1 := h.kmalloc hi hk
    have h2 := h.device (name, some dev) h1.1
    simp only [Option.bind_eq_bind, Option.bind_eq_some_iff, Option.some.injEq] at hr
    obtain ⟨⟨r, k2⟩, hc, rfl⟩ := hr
    have h3 := h.createDev hf h2.1 (hok a k1 dev hk rfl) hc
    exact ⟨h3.1, h.trans h1.2 (h.trans h2.2 h3.2)⟩

theorem makeDevice (hf : search.Follows ok I R V) {k k' : Kernel} {name : List Char}
    {ops : Option DevOps} {r : Bool} (hi : I k) (hok : k.makeDeviceOk env P search ok name ops)
    (hm : k.makeDevice env search name ops = some (r, k')) : I k' ∧ R k k' := by
  unfold Kernel.makeDevice at hm
  split at hm
  · rename_i k1 hk
    cases hm
    exact h.kmalloc hi hk
  · rename_i a k1 hk
    have h1 := h.kmalloc hi hk
    have h2 := h.device (name, ops) h1.1
    cases ops with
    | none =>
      cases hm
      exact ⟨h2.1, h.trans h1.2 h2.2⟩
    | some dev =>
      simp only [Option.bind_eq_bind, Option.bind_eq_some_iff, Option.some.injEq,
        Prod.mk.injEq] at hm
      obtain ⟨⟨r, k2⟩, hc, _, rfl⟩ := hm
      have h3 := h.createDev hf h2.1 (hok a k1 dev hk rfl) hc
      exact ⟨h3.1, h.trans h1.2 (h.trans h2.2 h3.2)⟩

theorem openDevice (hf : search.Follows ok I R V) {k k' : Kernel} {name : List Char} {r : Bool}
    (hi : I k) (hok : k.openDeviceOk env P search ok name)
    (ho : k.openDevice env search name = some (r, k')) : I k' ∧ R k k' := by
  unfold Kernel.openDevice at ho
  split at ho
  · cases ho
    exact ⟨hi, h.refl k⟩
  · rename_i hnew
    have hok := hok (Option.not_isSome_iff_eq_none.mp hnew)
    split at ho
    · rename_i htty
      rw [if_pos htty] at hok
      exact h.makeDevice hf hi hok ho
    · rename_i htty
      rw [if_neg htty] at hok
      split at ho
      · rename_i hfb
        rw [if_pos hfb] at hok
        simp only [Option.bind_eq_bind, Option.bind_eq_some_iff] at ho
        obtain ⟨base, hbase, ho⟩ := ho
        exact h.makeDevice hf hi (hok base hbase) ho
      · cases ho
        exact ⟨hi, h.refl k⟩

/-- Before the call to `open` is on record only devices may have been made. -/
theorem fsOpen (hf : search.Follows ok I R V) {k k' : Kernel} {fs : FileSystem} {data : Nat}
    {path : List Char} {r : Option Nat} (hi : I k)
    (hok : fs = .devfs → k.openDeviceOk env P search ok path)
    (ho : k.fsOpen env search fs data path = some (r, k')) :
    ∃ k1 found, I k1 ∧ R k k1 ∧ r = (if found then some k1.handles else none) ∧
      k' = k1.opened fs data found := by
  simp only [Kernel.fsOpen, Option.bind_eq_bind] at ho
  split at ho
  all_goals
    simp only [Option.bind_eq_some_iff, Option.some.injEq, Prod.mk.injEq] at ho
    obtain ⟨⟨found, k1⟩, ho, hr, hk⟩ := ho
  · rename_i hfs
    have h1 := h.openDevice hf hi (hok hfs) ho
    exact ⟨k1, found, h1.1, h1.2, hr.symm, hk.symm⟩
  · cases ho
    exact ⟨_, _, hi, h.refl _, hr.symm, hk.symm⟩

theorem findMounted (hf : search.Follows ok I R V) {k k' : Kernel} {n : Nat} {part : List Char}
    {rest : Option (List Char)} {r : Option Nat} (hi : I k) (hv : V k n)
    (hok : k.findMountedOk env P search ok n part rest)
    (hm : k.findMounted env search n part rest = some (r, k')) :
    I k' ∧ R k k' ∧ ∀ m, r = some m → V k' m := by
  have hsame : I k ∧ R k k ∧ ∀ m, none = some m → V k m := ⟨hi, h.refl k, nofun⟩
  unfold Kernel.findMounted at hm
  split at hm
  · rename_i fs ht hfs
    split at hm
    · rename_i hopen
      dsimp only at hm
      split at hm
      · simp only [Option.bind_eq_bind, Option.bind_eq_some_iff] at hm
        obtain ⟨⟨handle, k2⟩, ho, hm⟩ := hm
        obtain ⟨k1, found, hi1, hr1, rfl, rfl⟩ := h.fsOpen hf hi
          (fun hd => hok ht (hd ▸ hfs)) ho
        have h2 := h.ask found hi hv ht hfs hopen hi1 hr1
        cases found with
        | false =>
          cases hm
          exact ⟨h2.1, h.trans hr1 h2.2, nofun⟩
        | true =>
          cases hm
          have hr := h.trans hr1 h2.2
          refine ⟨h2.1, hr, fun m hm => ?_⟩
          cases hm
          exact h.keep hr hv
      · cases hm
    · cases hm
      exact hsame
  · cases hm
    exact hsame

theorem followLinks (hf : search.Follows ok I R V) {depth n : Nat} {k k' : Kernel} {r : Option Nat}
    (hi : I k) (hv : V k n) (hok : followLinksOk env search ok depth n k)
    (hl : Kernel.followLinks env search depth n k = some (r, k')) :
    I k' ∧ R k k' ∧ ∀ m, r = some m → V k' m := by
  induction depth generalizing n k with
  | zero =>
    unfold Kernel.followLinks at hl
    split at hl
    · cases hl
      exact ⟨hi, h.refl _, nofun⟩
    · cases hl
      refine ⟨hi, h.refl _, fun m hm => ?_⟩
      cases hm
      exact hv
  | succ depth ih =>
    unfold Kernel.followLinks at hl
    split at hl
    · rename_i hlink
      simp only [Option.bind_eq_bind, Option.bind_eq_some_iff] at hl
      obtain ⟨target, ht, ⟨next, k1⟩, hn, hl⟩ := hl
      obtain ⟨hok1, hok2⟩ := hok hlink target ht
      have h1 := hf hi hok1 hn
      cases next with
      | none =>
        cases hl
        exact ⟨h1.1, h1.2.1, nofun⟩
      | some m =>
        have h2 := ih h1.1 (h1.2.2 m rfl) (hok2 m k1 hn) hl
        exact ⟨h2.1, h.trans h1.2.1 h2.2.1, h2.2.2⟩
    · cases hl
      refine ⟨hi, h.refl _, fun m hm => ?_⟩
      cases hm
      exact hv

theorem walkParts (hf : search.Follows ok I R V)
    {ps : List (List Char × Option (List Char))} {n : Nat} {k k' : Kernel} {r : Option Nat} (hi : I k)
    (hv : V k n) (hok : walkPartsOk env P search ok ps n k)
    (hw : Kernel.walkParts env search ps n k = some (r, k')) :
    I k' ∧ R k k' ∧ ∀ m, r = some m → V k' m := by
  induction ps generalizing n k with
  | nil =>
    cases hw
    refine ⟨hi, h.refl _, fun m hm => ?_⟩
    cases hm
    exact hv
  | cons p ps ih =>
    unfold Kernel.walkParts at hw
    unfold walkPartsOk at hok
    dsimp only at hw hok
    split at hw
    · rename_i hskip
      rw [if_pos hskip] at hok
      exact ih hi hv hok hw
    · rename_i hskip
      rw [if_neg hskip] at hok
      split at hw
      · rename_i hup
        rw [if_pos hup] at hok
        refine ih hi ?_ hok hw
        cases hp : (k.node n).parent with
        | none => exact hv
        | some q => exact h.parent hi hv hp
      · rename_i hup
        rw [if_neg hup] at hok
        split at hw
        · rename_i hc
          exact h.findMounted hf hi hv (hok.1 hc) hw
        · rename_i c hc
          obtain ⟨hok1, hok2⟩ := hok.2 c hc
          simp only [Option.bind_eq_bind, Option.bind_eq_some_iff] at hw
          obtain ⟨⟨next, k1⟩, hl, hw⟩ := hw
          have h1 := h.followLinks hf hi (h.child hi hv hc) hok1 hl
          cases next with
          | none =>
            cases hw
            exact ⟨h1.1, h1.2.1, nofun⟩
          | some m =>
            have h2 := ih h1.1 (h1.2.2 m rfl) (hok2 m k1 hl) hw
            exact ⟨h2.1, h.trans h1.2.1 h2.2.1, h2.2.2⟩

theorem findTo (n : Nat) : (Kernel.findTo env n).Follows (findToOk env P n) I R V := by
  induction n with
  | zero =>
    intro k path r k' _ _ hf
    cases hf
  | succ n ih =>
    intro k path r k' hi hok hf
    unfold Kernel.findTo at hf
    split at hf
    · cases hf
      refine ⟨hi, h.refl _, fun m hm => ?_⟩
      cases hm
      exact h.root hi
    · simp only [findToOk] at hok
      exact h.walkParts ih hi (h.root hi) hok hf
    · rename_i hne habs
      unfold findToOk at hok
      split at hok
      · exact absurd rfl hne
      · rename_i rest
        exact absurd rfl (habs rest)
      · exact h.walkParts ih hi (h.cwd hi) hok hf

theorem find : (Kernel.find env).Follows (findOk env P) I R V := h.findTo env.fuel

end SearchRule

section unguarded

variable {k : Kernel} {find : Finder} {ok : Kernel → List Char → Prop}

/-- Where every device node is allowed every search is. -/
theorem makeDeviceOk_true {P : Guard} (hP : ∀ k name dir, P k name dir) (hok : ∀ k path, ok k path)
    (name : List Char) (ops : Option DevOps) : k.makeDeviceOk env P find ok name ops :=
  fun _ _ _ _ _ => ⟨hok _ _, fun _ _ _ => hP _ _ _⟩

theorem openDeviceOk_true {P : Guard} (hP : ∀ k name dir, P k name dir) (hok : ∀ k path, ok k path)
    (name : List Char) : k.openDeviceOk env P find ok name := by
  intro _
  split
  · exact makeDeviceOk_true hP hok name _
  · split
    · exact fun base _ => makeDeviceOk_true hP hok name base
    · trivial

theorem followLinksOk_true (hok : ∀ k path, ok k path) (depth n : Nat) (k : Kernel) :
    followLinksOk env find ok depth n k := by
  induction depth generalizing n k with
  | zero => trivial
  | succ depth ih => exact fun _ target _ => ⟨hok k target, fun m q _ => ih m q⟩

theorem walkPartsOk_true {P : Guard} (hP : ∀ k name dir, P k name dir) (hok : ∀ k path, ok k path)
    (ps : List (List Char × Option (List Char))) (n : Nat) (k : Kernel) :
    walkPartsOk env P find ok ps n k := by
  induction ps generalizing n k with
  | nil => trivial
  | cons p ps ih =>
    unfold walkPartsOk
    dsimp only
    split
    · exact ih n k
    · split
      · exact ih _ k
      · exact ⟨fun _ _ _ => openDeviceOk_true hP hok _,
          fun c _ => ⟨followLinksOk_true hok 8 c k, fun m q _ => ih m q⟩⟩

theorem findToOk_true {P : Guard} (hP : ∀ k name dir, P k name dir) (n : Nat) (k : Kernel)
    (path : List Char) : findToOk env P n k path := by
  induction n generalizing k path with
  | zero => trivial
  | succ n ih =>
    unfold findToOk
    split
    · trivial
    · exact walkPartsOk_true hP ih _ _ _
    · exact walkPartsOk_true hP ih _ _ _

end unguarded

end LosTacOS.Os.Kernel
