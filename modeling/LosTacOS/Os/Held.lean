import LosTacOS.Os.Linked
import LosTacOS.Os.Handles

/-! What descriptors and working directories refer to: nodes that are linked in the tree and mounts
that are in the table. -/
namespace LosTacOS.Os.Kernel

variable {env : Env} {k k' : Kernel} {l : List Nat} {p n : Nat} {i : Fin maxFds} {e : FdEntry}

structure Held (k : Kernel) : Prop where
  nodes : ∀ p ∈ k.procs.used, ∀ i n, (k.entry p i).node = some n → k.Linked n ∧ n ∈ k.nodes.used
  cwds : ∀ p ∈ k.procs.used, ∀ n, (k.proc p).cwd = some n → k.Linked n ∧ n ∈ k.nodes.used
  mounts : ∀ p ∈ k.procs.used, ∀ i m, (k.entry p i).mount = some m →
    m ∈ k.mountTable ∧ m ∈ k.mounts.used

structure Safe (k : Kernel) (e : FdEntry) : Prop where
  node : ∀ n, e.node = some n → k.Linked n
  mount : ∀ m, e.mount = some m → m ∈ k.mountTable

structure Anchored (k : Kernel) : Prop where
  rooted : Rooted k
  table : ∀ m ∈ k.mountTable, m ∈ k.mounts.used
  nodup : k.mountTable.Nodup
  entries : ∀ p ∈ k.procs.used, ∀ i, k.Safe (k.entry p i)
  cwds : ∀ p ∈ k.procs.used, ∀ n, (k.proc p).cwd = some n → k.Linked n

theorem Anchored.held (h : Anchored k) : Held k where
  nodes p hp i n hn :=
    have hl := (h.entries p hp i).node n hn
    ⟨hl, h.rooted.used hl⟩
  cwds p hp n hn := ⟨h.cwds p hp n hn, h.rooted.used (h.cwds p hp n hn)⟩
  mounts p hp i m hm :=
    have ht := (h.entries p hp i).mount m hm
    ⟨ht, h.table m ht⟩

theorem safe_plain (hn : e.node = none) (hm : e.mount = none) : k.Safe e where
  node n h := by
    rw [hn] at h
    cases h
  mount m h := by
    rw [hm] at h
    cases h

theorem boot_anchored : Anchored boot where
  rooted := boot_rooted
  table := nofun
  nodup := List.nodup_nil
  entries _ _ _ := safe_plain rfl rfl
  cwds _ _ n hn := by
    cases hn
    exact .refl

section changes

theorem Safe.mono (h : k.Safe e) (hl : ∀ n, k.Linked n → k'.Linked n)
    (ht : ∀ m ∈ k.mountTable, m ∈ k'.mountTable) : k'.Safe e :=
  ⟨fun n hn => hl n (h.node n hn), fun m hm => ht m (h.mount m hm)⟩

/-- The tree and the table change, the processes do not. -/
theorem Anchored.tree (h : Anchored k) (hr : Rooted k') (hp : k'.procs = k.procs)
    (hl : ∀ n, k.Linked n → k'.Linked n) (hm : k'.mounts = k.mounts)
    (ht : k'.mountTable = k.mountTable) : Anchored k' := by
  refine ⟨hr, ?_, ?_, fun p hu i => ?_, fun p hu n hn => ?_⟩
  · rw [ht, hm]
    exact h.table
  · rw [ht]
    exact h.nodup
  · unfold entry proc
    rw [hp] at hu ⊢
    refine (h.entries p hu i).mono hl ?_
    rw [ht]
    exact fun _ hx => hx
  · unfold proc at hn
    rw [hp] at hu hn
    exact hl n (h.cwds p hu n hn)

theorem Anchored.same (h : Anchored k) (hs : k'.shape = k.shape) (hp : k'.procs = k.procs)
    (hm : k'.mounts = k.mounts) (ht : k'.mountTable = k.mountTable) : Anchored k' :=
  h.tree (h.rooted.of_shape hs) hp (fun _ hl => hl.of_shape hs) hm ht

/-- The processes change, the tree and the table do not. -/
theorem Anchored.procs (h : Anchored k) (hs : k'.shape = k.shape) (hm : k'.mounts = k.mounts)
    (ht : k'.mountTable = k.mountTable)
    (he : ∀ p ∈ k'.procs.used, ∀ i, k.Safe (k'.entry p i))
    (hc : ∀ p ∈ k'.procs.used, ∀ n, (k'.proc p).cwd = some n → k.Linked n) : Anchored k' := by
  refine ⟨h.rooted.of_shape hs, ?_, ?_, fun p hu i => ?_, fun p hu n hn => ?_⟩
  · rw [ht, hm]
    exact h.table
  · rw [ht]
    exact h.nodup
  · refine (he p hu i).mono (fun _ hl => hl.of_shape hs) ?_
    rw [ht]
    exact fun _ hx => hx
  · exact (hc p hu n hn).of_shape hs

theorem Anchored.setProc {x : Process} (h : Anchored k)
    (he : p ∈ k.procs.used → ∀ i, k.Safe (x.fds i))
    (hc : p ∈ k.procs.used → ∀ n, x.cwd = some n → k.Linked n) : Anchored (k.setProc p x) := by
  have hproc : ∀ q, (k.setProc p x).proc q = if q = p then x else k.proc q :=
    fun q => Arena.set_cell ..
  refine h.procs rfl rfl rfl (fun q hq i => ?_) fun q hq n hn => ?_
  · unfold entry
    rw [hproc]
    split
    · rename_i hqp
      exact he (hqp ▸ hq) i
    · exact h.entries q hq i
  · rw [hproc] at hn
    split at hn
    · rename_i hqp
      exact hc (hqp ▸ hq) n hn
    · exact h.cwds q hq n hn

theorem Anchored.setEntry (h : Anchored k) (he : k.Safe e) : Anchored (k.setEntry p i e) := by
  refine h.procs rfl rfl rfl (fun q hq j => ?_) fun q hq n hn => ?_
  · rw [setEntry_entry]
    split
    · exact he
    · exact h.entries q hq j
  · have hcwd : ((k.setEntry p i e).proc q).cwd = (k.proc q).cwd := by
      unfold Kernel.setEntry proc Kernel.setProc
      dsimp only
      rw [Arena.set_cell]
      split
      · rename_i hqp
        rw [hqp]
      · rfl
    rw [hcwd] at hn
    exact h.cwds q hq n hn

end changes

section rule

/-- No call on the tree but `remove` and `umount` takes a linked node or a mount away. -/
structure Extends (k k' : Kernel) : Prop extends Grows k k' where
  linked : ∀ n, k.Linked n → k'.Linked n
  kept : ∀ m ∈ k.mountTable, m ∈ k'.mountTable

theorem Extends.of_shape (hs : k'.shape = k.shape) (hp : k'.procSide = k.procSide)
    (hv : k'.volumes = k.volumes) (hm : k'.mounts = k.mounts)
    (ht : k'.mountTable = k.mountTable) : Extends k k' := by
  refine ⟨.of_eq hp hv hm ht, fun _ hl => hl.of_shape hs, ?_⟩
  rw [ht]
  exact fun _ hx => hx

theorem Anchored.linkNew {dir : Nat} {name : List Char} {x : Bool} (h : Anchored k)
    (hn : n ∉ k.nodes.used) (hd : k.Linked dir) :
    Anchored (k.linkNew n name x dir) ∧ Extends k (k.linkNew n name x dir) ∧
      (k.linkNew n name x dir).Linked n := by
  have hl : ∀ m, k.Linked m → (k.linkNew n name x dir).Linked m :=
    fun m hm => Linked.linkNew h.rooted hn hd hm
  refine ⟨h.tree (h.rooted.linkNew hn hd) rfl hl rfl rfl, ⟨.of_eq rfl rfl rfl rfl, hl, ?_⟩,
    h.rooted.new_linked hn hd⟩
  exact fun _ hx => hx

/-- A node changes in what the shape of the tree does not depend on. -/
theorem Anchored.setNode {x : Node} (h : Anchored k) (hp : x.parent = (k.node n).parent)
    (hc : x.children = (k.node n).children) :
    Anchored (k.setNode n x) ∧ Extends k (k.setNode n x) :=
  ⟨h.same (setNode_shape hp hc) rfl rfl rfl, .of_shape (setNode_shape hp hc) rfl rfl rfl rfl⟩

theorem Anchored.createNode {name : List Char} {x : Bool} {dir : Nat} (h : Anchored k)
    (hd : k.Linked dir) (hc : k.createNode env name x dir = some (n, k')) :
    Anchored k' ∧ Extends k k' ∧ k'.Linked n := by
  obtain ⟨hn, rfl⟩ := createNode_eq env hc
  have h1 : Anchored { k with allocs := k.allocs + 1 } := h.same rfl rfl rfl rfl
  have hd1 : Linked { k with allocs := k.allocs + 1 } dir := hd.of_shape rfl
  have hnew : _ ∧ Extends _ ({ k with allocs := k.allocs + 1 }.linkNew n name x dir) ∧ _ :=
    h1.linkNew hn hd1
  obtain ⟨h2, h3, h4⟩ := hnew
  refine ⟨h2, ⟨.of_eq rfl rfl rfl rfl, fun m hm => h3.linked m ?_, fun _ hx => hx⟩, h4⟩
  exact hm.of_shape rfl

theorem Alive.extend (h : Alive Anchored k) (h' : Anchored k' ∧ Extends k k') :
    Alive Anchored k' ∧ Extends k k' :=
  ⟨h.after h'.2.procs h'.1, h'.2⟩

theorem anchored_tree : TreeRule env (Alive Anchored) Extends Linked (fun _ _ _ => True) where
  refl k := .of_shape rfl rfl rfl rfl rfl
  trans h h' := ⟨h.toGrows.trans h'.toGrows, fun n hn => h'.linked n (h.linked n hn),
    fun m hm => h'.kept m (h.kept m hm)⟩
  keep h hn := h.linked _ hn
  root _ := .refl
  cwd := by
    intro k h
    unfold getProcessCwd
    split
    · rename_i p hp
      cases hc : (k.proc p).cwd with
      | none => exact .refl
      | some n => exact h.1.cwds p (h.2 p hp) n hc
    · exact .refl
  parent h hn hp := h.1.rooted.linked_parent hn hp
  child _ hn hc := hn.findIn hc
  alloc h := h.extend ⟨h.1.same rfl rfl rfl rfl, .of_shape rfl rfl rfl rfl rfl⟩
  device _ h := h.extend ⟨h.1.same rfl rfl rfl rfl, .of_shape rfl rfl rfl rfl rfl⟩
  dev := by
    intro k name dir n k' dev h hd _ hc
    obtain ⟨h1, h2, _⟩ := h.1.createNode hd hc
    obtain ⟨h3, h4⟩ := h1.setNode (n := n) (x := { k'.node n with dev := some dev, type := .dev })
      rfl rfl
    refine h.extend ⟨h3, ⟨h2.toGrows.trans h4.toGrows, fun m hm => h4.linked m (h2.linked m hm),
      fun m hm => h4.kept m (h2.kept m hm)⟩⟩
  ask := by
    intro k k' n fs found _ _ _ _ _ h _
    refine h.extend ?_
    cases found with
    | false => exact ⟨h.1.same rfl rfl rfl rfl, .of_shape rfl rfl rfl rfl rfl⟩
    | true => exact ⟨h.1.same rfl rfl rfl rfl, .of_shape rfl rfl rfl rfl rfl⟩
  create := by
    intro k name x dir n k' h hd hc
    obtain ⟨h1, h2, h3⟩ := h.1.createNode hd hc
    exact ⟨h.after h2.procs h1, h2, h3⟩
  link _ h _ := h.extend (h.1.setNode rfl rfl)
  file _ h _ := h.extend (h.1.setNode rfl rfl)
  data _ _ _ _ _ h := h.extend ⟨h.1.same rfl rfl rfl rfl, .of_shape rfl rfl rfl rfl rfl⟩
  carry _ _ := trivial
  null := trivial
  volume := by
    intro k fs v h
    have h1 : Anchored { k with volumes := (fs, v) :: k.volumes } := h.1.same rfl rfl rfl rfl
    refine ⟨h.after rfl h1, ⟨⟨rfl, fun x hx => List.mem_cons_of_mem _ hx, fun _ hm => ⟨hm, rfl⟩,
      fun _ hm => Or.inl hm⟩, fun n hn => hn.of_shape rfl, fun _ hm => hm⟩, trivial⟩
  retype h _ _ := h.extend (h.1.setNode rfl rfl)
  table := by
    intro k m mnt h hm _
    have hne : ∀ x ∈ k.mounts.used, x ≠ m := fun x hx he => hm (he ▸ hx)
    have hl : ∀ n, k.Linked n → (k.enter m mnt).Linked n := fun n hn => hn.of_shape rfl
    have ht : ∀ x ∈ k.mountTable, x ∈ (k.enter m mnt).mountTable :=
      fun x hx => List.mem_cons_of_mem m hx
    refine h.extend ⟨⟨h.1.rooted.of_shape rfl, ?_, ?_, ?_, ?_⟩, ⟨⟨rfl, fun _ hx => hx, ?_, ?_⟩,
      hl, ht⟩⟩
    · intro x hx
      cases hx with
      | head => exact Finset.mem_insert_self m _
      | tail _ hx => exact Finset.mem_insert_of_mem (h.1.table x hx)
    · exact List.nodup_cons.mpr ⟨fun hx => hm (h.1.table m hx), h.1.nodup⟩
    · exact fun p hp i => (h.1.entries p hp i).mono hl ht
    · exact fun p hp n hn => hl n (h.1.cwds p hp n hn)
    · exact fun x hx => ⟨Finset.mem_insert_of_mem hx, Arena.alloc_cell_ne _ _ (hne x hx)⟩
    · intro x hx
      cases hx with
      | head => exact Or.inr hm
      | tail _ hx => exact Or.inl hx

theorem anchored_calls : CallRule env Anchored Extends Linked (fun _ _ _ => True)
    (fun _ => True) where
  tree := anchored_tree
  procs h := h.procs
  tasks _ _ _ _ _ h := h.same rfl rfl rfl rfl
  thread := by
    intro k p m h
    exact h.setProc (fun hp i => h.entries p hp i) (h.cwds p)
  newProcess := by
    intro k c h hc
    have hproc : ∀ q, (k.newProcess c).proc q =
        if q = c then { Process.zero with pid := k.pidCounter } else k.proc q :=
      fun q => Arena.alloc_cell ..
    refine h.procs rfl rfl rfl (fun q hq i => ?_) fun q hq n hn => ?_
    · rw [newProcess_entry]
      split
      · exact safe_plain rfl rfl
      · rename_i hqc
        exact h.entries q (Finset.mem_of_mem_insert_of_ne hq hqc) i
    · rw [hproc] at hn
      split at hn
      · cases hn
      · rename_i hqc
        exact h.cwds q (Finset.mem_of_mem_insert_of_ne hq hqc) n hn
  discard h _ := h.procs rfl rfl rfl (fun q hq i => h.entries q (Finset.mem_of_mem_erase hq) i)
    fun q hq n hn => h.cwds q (Finset.mem_of_mem_erase hq) n hn
  inherit := by
    intro k parent c q h hnew _
    obtain ⟨pipes, hr⟩ := inherit_rest q parent c
    rw [hr]
    have h1 : Anchored (q.setProc c (q.heir parent c)) :=
      h.setProc (fun _ i => h.entries parent hnew.old i) (fun _ => h.cwds parent hnew.old)
    exact h1.same rfl rfl rfl rfl
  home := by
    intro k p h
    refine h.setProc (fun hp i => h.entries p hp i) fun _ n hn => ?_
    cases hn
    exact .refl
  enterDir := by
    intro k p n h hn
    refine h.setProc (fun hp i => h.entries p hp i) fun _ m hm => ?_
    cases hm
    exact hn
  pipes _ _ h := h.same rfl rfl rfl rfl
  altered _ _ _ h hp :=
    h.setEntry ⟨fun n hn => (h.entries _ hp _).node n hn, fun m hm => (h.entries _ hp _).mount m hm⟩
  plain h _ hn hm _ := h.setEntry (safe_plain hn hm)
  copied h hp _ := h.setEntry (h.entries _ hp _)
  held h hp hn := (h.entries _ hp _).node _ hn
  node := by
    intro k p n i h _ hn _
    refine h.setEntry ⟨fun m hm => ?_, fun m hm => ?_⟩
    · cases hm
      exact hn
    · cases hm
  mounted := by
    intro k q m fs found _ hm _ _ hq hext
    have h1 : Anchored (q.opened fs (k.mounts.cell m).data found) := hq.same rfl rfl rfl rfl
    refine ⟨h1, fun p i _ _ _ => h1.setEntry ⟨fun n hn => ?_, fun x hx => ?_⟩⟩
    · cases hn
    · cases hx
      exact hext.kept m hm
  used h _ _ := h.same rfl rfl rfl rfl
  closed := by
    intro k p i fs hd h _ _
    have h1 : Anchored (k.fsClose fs hd) := h.same rfl rfl rfl rfl
    exact h1.setEntry (safe_plain rfl rfl)

end rule

section runs

/-- No descriptor and no working directory is at or below the node that `remove` takes out. -/
def Unheld (env : Env) (k : Kernel) (path : List Char) : Prop :=
  ∀ n q, k.find env path = some (some n, q) → n ≠ q.root →
    ¬((q.node n).directory = true ∧ (q.node n).children ≠ []) → ∀ p ∈ k.procs.used,
      (∀ x, (k.proc p).cwd = some x → ¬ q.Under n x) ∧
        ∀ i x, (k.entry p i).node = some x → ¬ q.Under n x

/-- No descriptor belongs to the mount that `umount` takes away. -/
def Unused (k : Kernel) (path : List Char) : Prop :=
  ∀ m, k.mountTable.find? (fun m => (k.mounts.cell m).path = path) = some m →
    ∀ p ∈ k.procs.used, ∀ i, (k.entry p i).mount ≠ some m

def takesUnheld (env : Env) (k : Kernel) : Event → Prop
  | .remove path => k.Unheld env path
  | .umount path => k.Unused path
  | .sysUmount target => ∀ path, k.absPath env target = some path → k.Unused path
  | _ => True

theorem Anchored.umount {path : List Char} {r : Bool} (h : Alive Anchored k) (hno : k.Unused path)
    (hu : k.umount env path = some (r, k')) : Anchored k' := by
  refine (anchored_tree.umount h ?_ ?_ ?_ hu).1
  · intro m hm
    refine h.after rfl ⟨h.1.rooted.of_shape rfl, ?_, h.1.nodup.erase m, ?_, ?_⟩
    · exact fun x hx => h.1.table x (List.mem_of_mem_erase hx)
    · intro p hp i
      have hs := h.1.entries p hp i
      refine ⟨fun n hn => (hs.node n hn).of_shape rfl, fun x hx => ?_⟩
      refine (List.mem_erase_of_ne fun he => ?_).mpr (hs.mount x hx)
      exact hno m hm p hp i (he ▸ hx)
    · exact fun p hp n hn => (h.1.cwds p hp n hn).of_shape rfl
  · exact fun hq _ => hq.extend (hq.1.setNode rfl rfl)
  · intro m q hm hq hext
    have hmt : m ∈ k.mountTable := List.mem_of_find?_eq_some hm
    have hout : ∀ x ∈ q.mountTable, x ≠ m := by
      intro x hx he
      rw [he] at hx
      cases hext.table m hx with
      | inl hin => exact h.1.nodup.not_mem_erase hin
      | inr hfresh => exact hfresh (h.1.table m hmt)
    refine hq.after rfl ⟨hq.1.rooted.of_shape rfl, ?_, hq.1.nodup, ?_, ?_⟩
    · exact fun x hx => Finset.mem_erase.mpr ⟨hout x hx, hq.1.table x hx⟩
    · exact fun p hp i => (hq.1.entries p hp i).mono (fun n hn => hn.of_shape rfl) fun _ hx => hx
    · exact fun p hp n hn => (hq.1.cwds p hp n hn).of_shape rfl

theorem Anchored.remove {path : List Char} {r : Bool} (h : Alive Anchored k)
    (hno : k.Unheld env path) (hr : k.remove env path = some (r, k')) : Anchored k' := by
  refine (anchored_tree.remove h ?_ hr).1
  intro q n parent hq hext hf hn hroot hempty hp
  have hfree := hno n q hf hroot hempty
  have hprocs : q.procs = k.procs := congrArg ProcSide.procs hext.procs
  refine hq.after rfl ⟨hq.1.rooted.takeOut hroot hp, hq.1.table, hq.1.nodup, ?_, ?_⟩
  · intro p hu i
    have hs := hq.1.entries p hu i
    change p ∈ q.procs.used at hu
    rw [hprocs] at hu
    refine ⟨fun x hx => (hs.node x hx).takeOut ?_, hs.mount⟩
    refine (hfree p hu).2 i x ?_
    rw [← entry_of_procSide hext.procs]
    exact hx
  · intro p hu x hx
    have hl := hq.1.cwds p hu x hx
    change p ∈ q.procs.used at hu
    change (q.procs.cell p).cwd = some x at hx
    rw [hprocs] at hu hx
    exact hl.takeOut ((hfree p hu).1 x hx)

theorem Anchored.step {ev : Event} {r : Reply} (h : Anchored k) (hl : Listed k l)
    (hok : takesUnheld env k ev) (hs : k.step env ev = some (r, k')) : Anchored k' := by
  have ha : Alive Anchored k := .of_listed h hl
  refine anchored_calls.step h hl (copies_true k ev) (fun _ _ _ _ => trivial) ?_ ?_ ?_ hs
  · intro path r q he hu
    cases he with
    | inl he =>
      rw [he] at hok
      exact Anchored.umount ha hok hu
    | inr he =>
      obtain ⟨target, he, hpath⟩ := he
      rw [he] at hok
      exact Anchored.umount ha (hok path hpath) hu
  · intro path r q he hr
    rw [he] at hok
    exact Anchored.remove ha hok hr
  · exact fun _ _ _ _ _ _ => h.same rfl rfl rfl rfl

/-- In every run in which the calls come back and `remove` and `umount` take away only what nobody
refers to, every descriptor and working directory is at a linked node and every mount of a descriptor is in the
table. -/
theorem held_linked (h : Reached (fun env k ev => takesUnheld env k ev ∧ k.ComesBack env ev) k) :
    Held k := by
  have hk := h.invariant (I := fun k => (∃ l, Listed k l) ∧ Anchored k)
    ⟨⟨[], boot_listed⟩, boot_anchored⟩ (by
      intro k k' env ev r hi hok hs
      obtain ⟨⟨l, hl⟩, ht⟩ := hi
      exact ⟨step_listed hl hs, ht.step hl hok.1 hs⟩)
  exact hk.2.held

/-- A program opens `/a`, which its descriptor 3 makes, next to `/b`. -/
def openRun : List (Env × Event) :=
  [(freshEnv, .createFilePath "/b".toList), (freshEnv, .spawn []), (freshEnv, .schedule 0),
    (freshEnv, .open "/a".toList 64)]

/-- `/b` is removed while `/a` is open. -/
theorem held_linked_other_file : ∃ k,
    boot.runAll (openRun ++ [(freshEnv, .remove "/b".toList)]) = some k ∧
      (k.entry 2 3).node = some 5 ∧ k.nodes.used = {0, 5} ∧ Held k := by
  have hopen : (boot.runAll openRun).any (fun k =>
      (k.find freshEnv "/b".toList).all fun r => r.1.all fun n => (r.2.node n).children = [] ∧
        ∀ p ∈ k.procs.used, (k.proc p).cwd ≠ some n ∧ ∀ i, (k.entry p i).node ≠ some n) = true := by
    decide +kernel
  have hrun : (boot.runAll (openRun ++ [(freshEnv, .remove "/b".toList)])).any (fun k =>
      (k.entry 2 3).node = some 5 ∧ k.nodes.used = {0, 5}) = true := by decide +kernel
  obtain ⟨k, hk, hend⟩ := any_exists hrun
  obtain ⟨k1, hk1, hfree⟩ := any_exists hopen
  have hreach : Reached takesUnheld k1 := by
    refine Reached.boot.runAll (fun q s hs => ?_) hk1
    simp only [openRun, List.mem_cons, List.not_mem_nil, or_false] at hs
    rcases hs with rfl | rfl | rfl | rfl
    · trivial
    · trivial
    · trivial
    · trivial
  have hno : k1.Unheld freshEnv "/b".toList := by
    intro n q hf _ _ p hp
    rw [hf] at hfree
    obtain ⟨hleaf, hp'⟩ := of_decide_eq_true hfree
    refine ⟨fun x hx hu => (hp' p hp).1 ?_, fun i x hx hu => (hp' p hp).2 i ?_⟩
    · rw [← hu.leaf hleaf]
      exact hx
    · rw [← hu.leaf hleaf]
      exact hx
  rw [runAll_append, hk1] at hk
  obtain ⟨k2, _, hr2, hk2⟩ := hreach.first hk hno
  cases hk2
  refine ⟨k, ?_, (of_decide_eq_true hend).1, (of_decide_eq_true hend).2, held_linked hr2.comesBack⟩
  rw [runAll_append, hk1]
  exact hk

/-- The descriptor of a removed file refers to a node that was given back. -/
theorem removed_while_open : ¬ ∀ k, Reached (fun _ _ _ => True) k → Held k := by
  intro hall
  have hrun : (boot.runAll (openRun ++ [(freshEnv, .remove "/a".toList)])).any (fun k =>
      2 ∈ k.procs.used ∧ (k.entry 2 3).node = some 5 ∧ 5 ∉ k.nodes.used) = true := by
    decide +kernel
  obtain ⟨k, hk, h⟩ := any_exists hrun
  obtain ⟨hp, hnode, hgone⟩ := of_decide_eq_true h
  have hheld := hall k (Reached.boot.runAll (fun _ _ _ => trivial) hk)
  exact hgone (hheld.nodes 2 hp 3 5 hnode).2

end runs

end LosTacOS.Os.Kernel
