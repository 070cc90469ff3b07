import LosTacOS.Os.Parents

/-! Descriptor tables over the life of tasks: what an invariant about tables has to survive. -/
namespace LosTacOS.Os.Kernel

variable {env : Env} {k k' k1 : Kernel} {l : List Nat} {t p : Nat}

/-- What an invariant about descriptor tables needs in order to survive the calls that create,
switch and destroy tasks. A table may go while `Q` holds of the types of its entries. -/
structure TableRule (I : Kernel → Prop) (Q : FdType → Prop) : Prop where
  free : Q .none
  tasks : ∀ {k : Kernel} (tasks head tail current allocs), I k →
    I { k with tasks, head, tail, current, allocs }
  thread : ∀ {k : Kernel} {p : Nat} (m : Option Nat), I k →
    I (k.setProc p { k.proc p with mainThread := m })
  home : ∀ {k : Kernel} {p : Nat}, I k → I (k.setProc p { k.proc p with cwd := some k.root })
  create : ∀ {k : Kernel} {c : Nat}, I k → c ∉ k.procs.used → I (k.newProcess c)
  discard : ∀ {k : Kernel} {p : Nat}, I k → p ∈ k.procs.used → (∀ i, Q (k.entry p i).type) →
    I (k.freeProcess p)
  close : ∀ {k : Kernel} {p : Nat} (i : Fin maxFds), I k → p ∈ k.procs.used → I (closeEntry p k i)

def Reaps (Q : FdType → Prop) (k : Kernel) : Prop :=
  ∀ u ∈ k.tasks.used, k.survives u = false → ∀ p, (k.task u).process = some p →
    ∀ i, Q (k.entry p i).type

/-- There are the pages, the task and the stack that `clone` needs after it has copied the table. -/
def HasRoom (env : Env) (k : Kernel) : Prop :=
  env.pages = true ∧ (∃ t, env.malloc (k.allocs + 1) = some t ∧ t ∉ k.tasks.used) ∧
    (env.malloc (k.allocs + 2)).isSome = true

/-- `fork` does not fail any more once it has copied the table. -/
def Forks (env : Env) (k : Kernel) : Prop :=
  env.space = true → (∃ c, env.malloc k.allocs = some c ∧ c ∉ k.procs.used) → HasRoom env k

def HasFree (k : Kernel) (p : Nat) (min : Int) : Prop :=
  0 ≤ min ∧ min < maxFds ∧ (k.firstFree p min.toNat).isSome = true

/-- The condition `Q` in every call that destroys tasks without closing their descriptors. -/
def discards (Q : FdType → Prop) (env : Env) (k : Kernel) : Event → Prop
  | .exit _ => k.Reaps Q
  | .fault _ => k.Reaps Q
  | .schedule _ => k.Reaps Q
  | .kill pid _ => 1 < pid → (k.task k.current).pid = pid → k.Reaps Q
  | .wait pid _ => ∀ t, k.findTask pid env.fuel k.head = some (some t) →
      if (k.task t).state = .dead then
        t ≠ k.current → ∀ p, (k.task t).process = some p → ∀ i, Q (k.entry p i).type
      else k.Reaps Q
  | .fork => ∀ p, k.currentProc = some p → (∀ i, Q (k.entry p i).type) ∨ Forks env k
  | _ => True

namespace TableRule

variable {I : Kernel → Prop} {Q : FdType → Prop}

theorem foldl_close (R : TableRule I Q) (is : List (Fin maxFds)) (h : I k)
    (hp : p ∈ k.procs.used) : I (is.foldl (closeEntry p) k) := by
  induction is generalizing k with
  | nil => exact h
  | cons i is ih =>
    refine ih (R.close i h hp) ?_
    rw [procs_of_taskSide (closeEntry_taskSide k p i)]
    exact hp

theorem sysCloseAll (R : TableRule I Q) (h : I k) (hp : p ∈ k.procs.used) : I (k.sysCloseAll p) :=
  R.foldl_close _ h hp

theorem setTask (R : TableRule I Q) (h : I k) (t : Nat) (x : Task) : I (k.setTask t x) :=
  R.tasks (k.tasks.set t x) k.head k.tail k.current k.allocs h

section destroy

theorem destroyed (R : TableRule I Q) (hl : Listed k l) (ht : t ∈ l) (h : I k)
    (hq : ∀ p, (k.task t).process = some p → ∀ i, Q (k.entry p i).type)
    (hd : Destroyed k l t k') : I k' := by
  obtain ⟨p, hp, _, hproc⟩ := hl.owns t ht
  obtain ⟨tasks, procs, head, tail, hrest⟩ := hd.rest
  have hprocs : procs = k.procs.free p := by
    have h1 := hd.procs
    rw [hproc, hrest] at h1
    exact h1
  rw [hrest, hprocs]
  exact R.tasks tasks head tail k.current k.allocs (R.discard h hp (hq p hproc))

theorem destroyed_entry (hd : Destroyed k l t k') (p : Nat) (i : Fin maxFds) :
    k'.entry p i = k.entry p i := by
  have hcell : k'.procs.cell = k.procs.cell := by
    rw [hd.procs]
    cases (k.task t).process with
    | none => rfl
    | some p => rfl
  unfold entry proc
  rw [hcell]

theorem Reaps.destroyed (h : k.Reaps Q) (hd : Destroyed k l t k') : k'.Reaps Q := by
  intro u hu hs p hp i
  rw [hd.used] at hu
  have hs' : k.survives u = false := by
    unfold survives at hs ⊢
    rw [← state_of_body (hd.body u), ← hd.current]
    exact hs
  rw [process_of_body (hd.body u)] at hp
  rw [destroyed_entry hd]
  exact h u (Finset.mem_of_mem_erase hu) hs' p hp i

theorem reap (R : TableRule I Q) (hl : Listed k l) (h : I k) (hr : k.Reaps Q)
    (hreap : k.reap env = some k') : I k' := by
  refine (hl.reap (I := fun _ q => I q ∧ q.Reaps Q) ?_ ⟨h, hr⟩ hreap).2.1
  intro q m u q' hlq hq hu hc hs hd
  have hdes := (hlq.destroy hu hc hd).2
  refine ⟨R.destroyed hlq hu hq.1 (fun p hp i => ?_) hdes, Reaps.destroyed hq.2 hdes⟩
  refine hq.2 u ((hlq.used u).mpr (Or.inr hu)) ?_ p hp i
  simp [survives, hs, hc]

theorem schedule {old regs : Nat} (R : TableRule I Q) (hl : Listed k l) (h : I k)
    (hr : k.Reaps Q) (hs : k.schedule env old = some (regs, k')) : I k' := by
  obtain ⟨k1, hreap, hk'⟩ := hl.toTaskList.schedule_cases hs
  have h1 : I (k1.suspend old) := R.setTask (R.reap hl h hr hreap) _ _
  cases hk' with
  | inl hk' =>
    rw [hk']
    exact h1
  | inr hk' =>
    obtain ⟨x, _, hk'⟩ := hk'
    rw [hk']
    have h2 := R.setTask h1 x { (k1.suspend old).task x with state := .running }
    exact R.tasks _ _ _ x _ h2

theorem leave_eq (k : Kernel) (code : Int) : ∃ tasks, k.leave code = { k with tasks } := by
  unfold leave
  dsimp only
  split
  · split
    · exact ⟨_, rfl⟩
    · exact ⟨_, rfl⟩
  · exact ⟨_, rfl⟩

theorem exit {code : Int} (R : TableRule I Q) (hl : Listed k l) (h : I k) (hr : k.Reaps Q)
    (he : k.exit env code = some k') : I k' := by
  obtain ⟨⟨regs, k1⟩, hs, hk⟩ := Option.bind_eq_some_iff.mp he
  cases hk
  obtain ⟨tasks, hleave⟩ := leave_eq k code
  refine R.schedule (hl.leave code) ?_ ?_ hs
  · rw [hleave]
    exact R.tasks tasks k.head k.tail k.current k.allocs h
  · intro u hu hsu p hp i
    rw [leave_used] at hu
    rw [leave_survives] at hsu
    rw [leave_process] at hp
    have he : (k.leave code).entry p i = k.entry p i := by
      rw [hleave]
      rfl
    rw [he]
    exact hr u hu hsu p hp i

theorem killTaskTree {n : Nat} (R : TableRule I Q) (hl : Listed k l) (h : I k) (ht : t ∈ l)
    (hk : Kernel.killTaskTree env n k t = some k') : I k' := by
  have hstep : KillStep env k l (fun _ => True) (fun _ q => I q) := by
    intro q m v q' hkill hi hv _ _ _ hone
    obtain ⟨p, hp, _, hproc⟩ := hkill.listed.owns v hv
    have hcon : I (q.condemn v) := by
      rw [condemn_eq hproc]
      exact R.setTask (R.sysCloseAll hi hp) _ _
    rw [killOne_eq] at hone
    by_cases hc : v = (q.condemn v).current
    · simp only [removeAndDestroy, if_pos hc, Option.some.injEq] at hone
      rw [← hone]
      exact hcon
    · have hlc := hkill.listed.condemn hv
      refine R.destroyed hlc hv hcon ?_ (hlc.destroy hv hc hone).2
      intro p' hp' i
      rw [condemn_task hproc, if_pos rfl] at hp'
      have hpp : p' = p := Option.some.inj (hp'.symm.trans hproc)
      rw [condemn_type hproc, if_pos hpp]
      exact R.free
  obtain ⟨_, _, hi, _⟩ := (Killing.start hl).tree (fun _ _ _ _ => trivial) hstep h ht trivial hk
  exact hi

theorem sysKill {pid : Nat} {sig r : Int} (R : TableRule I Q) (hl : Listed k l) (h : I k)
    (hok : discards Q env k (.kill pid sig)) (hk : k.sysKill env pid sig = some (r, k')) : I k' := by
  unfold Kernel.sysKill at hk
  split at hk
  · cases hk
    exact h
  · rename_i hpid
    split at hk
    · rename_i hself
      obtain ⟨k1, he, hk⟩ := Option.bind_eq_some_iff.mp hk
      cases hk
      exact R.exit hl h (hok (by omega) hself) he
    · obtain ⟨f, hf, hk⟩ := Option.bind_eq_some_iff.mp hk
      cases f with
      | none =>
        cases hk
        exact h
      | some t =>
        obtain ⟨k1, ht, hk⟩ := Option.bind_eq_some_iff.mp hk
        cases hk
        exact R.killTaskTree hl h (findTask_mem hl.chain hf).1 ht

theorem waitPass {pid old : Nat} {r : Bool} (R : TableRule I Q) (hl : Listed k l) (h : I k)
    (hok : discards Q env k (.wait pid old)) (hw : k.waitPass env pid old = some (r, k')) :
    I k' := by
  obtain ⟨f, hf, hw⟩ := Option.bind_eq_some_iff.mp hw
  cases f with
  | none =>
    cases hw
    exact h
  | some t =>
    have hok' := hok t hf
    dsimp only at hw
    split at hw
    · rename_i hdead
      rw [if_pos hdead] at hok'
      obtain ⟨k1, hd, hw⟩ := Option.bind_eq_some_iff.mp hw
      cases hw
      by_cases hc : t = k.current
      · simp only [removeAndDestroy, if_pos hc, Option.some.injEq] at hd
        exact hd ▸ h
      · have ht := (findTask_mem hl.chain hf).1
        exact R.destroyed hl ht h (hok' hc) (hl.destroy ht hc hd).2
    · rename_i hdead
      rw [if_neg hdead] at hok'
      obtain ⟨⟨regs, k1⟩, hs, hw⟩ := Option.bind_eq_some_iff.mp hw
      cases hw
      exact R.schedule hl h hok' hs

theorem closeCurrent (R : TableRule I Q) (hl : Listed k l) (h : I k) : I k.closeCurrent := by
  unfold Kernel.closeCurrent
  split
  · rename_i p hp
    exact R.sysCloseAll h (hl.currentProc_used hp)
  · exact h

theorem closeCurrent_type (k : Kernel) (q : Nat) (i : Fin maxFds) :
    (k.closeCurrent.entry q i).type = .none ∨
      (k.closeCurrent.entry q i).type = (k.entry q i).type := by
  unfold Kernel.closeCurrent
  split
  · rename_i p hp
    rw [sysCloseAll_type]
    split
    · exact Or.inl rfl
    · exact Or.inr rfl
  · exact Or.inr rfl

theorem Reaps.closeCurrent (hr : k.Reaps Q) (h0 : Q .none) : k.closeCurrent.Reaps Q := by
  have hside := closeCurrent_taskSide k
  intro u hu hs q hq i
  rw [tasks_of_taskSide hside] at hu
  rw [task_of_taskSide hside] at hq
  have hs' : k.survives u = false := by
    unfold survives at hs ⊢
    rw [task_of_taskSide hside, current_of_taskSide hside] at hs
    exact hs
  cases closeCurrent_type k q i with
  | inl ht =>
    rw [ht]
    exact h0
  | inr ht =>
    rw [ht]
    exact hr u hu hs' q hq i

theorem sysExit {code : Int} (R : TableRule I Q) (hl : Listed k l) (h : I k) (hr : k.Reaps Q)
    (he : k.sysExit env code = some k') : I k' :=
  R.exit (hl.keep (closeCurrent_taskSide k)) (R.closeCurrent hl h)
    (Reaps.closeCurrent hr R.free) he

end destroy

section create

theorem add (R : TableRule I Q) (h : I k) (ha : k.add t = some k') : I k' := by
  unfold Kernel.add at ha
  have h1 : I (k.setTask t { k.task t with next := none }) := R.setTask h _ _
  dsimp only at ha
  generalize k.setTask t { k.task t with next := none } = k1 at h1 ha
  split at ha
  · cases ha
    exact R.tasks _ _ _ _ _ h1
  · rename_i x _ _
    cases ha
    have h2 := R.setTask h1 x { k1.task x with next := some t }
    exact R.tasks _ _ _ _ _ h2
  · cases ha

theorem startTask {stack : Nat} {q : Option Nat} (R : TableRule I Q) (h : I k)
    (hs : k.startTask t p stack q = some k') : I k' := by
  unfold Kernel.startTask at hs
  have h1 : I (k.setProc p { k.proc p with mainThread := some t }) := R.thread (some t) h
  refine R.add ?_ hs
  exact R.tasks _ _ _ _ _ h1

theorem sameButAllocs (R : TableRule I Q) (h : I k) (hs : SameButAllocs k k') : I k' := by
  rw [hs]
  exact R.tasks _ _ _ _ _ h

theorem launch {r : Option Nat} (R : TableRule I Q) (h : I k)
    (hl : k.launch env p = some (r, k')) : I k' := by
  cases launch_cases hl with
  | failed hk => exact R.sameButAllocs h hk
  | noStack hk ht => exact R.tasks _ _ _ _ _ (R.sameButAllocs h hk)
  | done hk ht hs => exact R.setTask (R.startTask (R.sameButAllocs h hk) hs) _ _

theorem find_root {r : Option Nat} (h : k.find env ['/'] = some (r, k')) :
    r = some k.root ∧ k' = k := by
  unfold Kernel.find at h
  cases hn : env.fuel with
  | zero =>
    rw [hn] at h
    cases h
  | succ n =>
    rw [hn] at h
    cases h
    exact ⟨rfl, rfl⟩

theorem spawn {path : List Char} {r : Option Nat} (R : TableRule I Q) (hl : Listed k l) (h : I k)
    (hfind : ∀ {k l r k'}, Listed k l → I k → k.find env path = some (r, k') → I k')
    (hs : k.spawn env path = some (r, k')) : I k' := by
  unfold Kernel.spawn at hs
  split at hs
  · rename_i k1 hk
    cases hs
    exact R.sameButAllocs h (.kmalloc hk)
  · rename_i p k1 hk
    have h1 := R.create (R.sameButAllocs h (.kmalloc hk)) (kmalloc_proc hk)
    have hl1 := ((hl.keep (SameButAllocs.kmalloc hk).taskSide).newProcess (kmalloc_proc hk)).1
    obtain ⟨⟨cwd, k2⟩, h2, hs⟩ := Option.bind_eq_some_iff.mp hs
    obtain ⟨rfl, rfl⟩ := find_root h2
    have h3 := R.home (p := p) h1
    have hl3 : Listed ((k1.newProcess p).setProc p
        { (k1.newProcess p).proc p with cwd := some (k1.newProcess p).root }) l := hl1.keep rfl
    dsimp only at hs
    split at hs
    · obtain ⟨⟨_, k3⟩, h4, hs⟩ := Option.bind_eq_some_iff.mp hs
      dsimp only at hs
      split at hs
      · exact R.launch (hfind hl3 h3 h4) hs
      · cases hs
        exact hfind hl3 h3 h4
    · cases hs
      exact h3

/-- With memory for a task and its stack, `clone` gets to its end once it has copied the table. -/
theorem cloneInto_done {parent c : Nat} {r : Option Nat} (hf : HasRoom env k1)
    (hk : k.allocs = k1.allocs + 1) (ht : k.tasks.used = k1.tasks.used)
    (h : k.cloneInto env parent c = some (r, k')) : ∃ k2 t stack,
      SameButAllocs (k.inherit parent c) k2 ∧
        k2.startTask t c stack (k2.proc parent).mainThread = some k' := by
  obtain ⟨hpages, ⟨t, ht1, ht2⟩, hstack⟩ := hf
  obtain ⟨stack, hstack⟩ := Option.isSome_iff_exists.mp hstack
  obtain ⟨pipes, hi⟩ := inherit_rest k parent c
  have hallocs : (k.inherit parent c).allocs = k1.allocs + 1 := by
    rw [hi, ← hk]
    rfl
  have hused : (k.inherit parent c).tasks.used = k1.tasks.used := by
    rw [hi, ← ht]
    rfl
  unfold Kernel.cloneInto at h
  generalize k.inherit parent c = q at hallocs hused h ⊢
  have hm1 : q.kmalloc env q.tasks.used = (some t, { q with allocs := q.allocs + 1 }) := by
    simp [kmalloc, hallocs, hused, ht1, ht2]
  have hm2 : { q with allocs := q.allocs + 1 }.kmalloc env ∅ =
      (some stack, { q with allocs := q.allocs + 2 }) := by
    simp [kmalloc, hallocs, hstack]
  simp only [hpages, if_true, hm1, hm2] at h
  obtain ⟨k2, h2, h3⟩ := Option.bind_eq_some_iff.mp h
  cases h3
  exact ⟨{ q with allocs := q.allocs + 2 }, t, stack, rfl, h2⟩

theorem inherit_entry (k : Kernel) (parent c : Nat) (i : Fin maxFds) :
    (k.inherit parent c).entry c i = k.entry parent i := by
  obtain ⟨pipes, hi⟩ := inherit_rest k parent c
  rw [hi]
  unfold entry proc setProc
  dsimp only
  rw [Arena.set_cell_self]
  rfl

theorem inherit_used (k : Kernel) (parent c : Nat) :
    (k.inherit parent c).procs.used = k.procs.used :=
  procs_of_taskSide (inherit_taskSide k parent c)

theorem SameButAllocs.entry (h : SameButAllocs k k') (p : Nat) (i : Fin maxFds) :
    k'.entry p i = k.entry p i := by
  unfold Kernel.entry
  rw [h.proc]

theorem SameButAllocs.used (h : SameButAllocs k k') : k'.procs.used = k.procs.used :=
  procs_of_taskSide h.taskSide

theorem giveBack {c : Nat} (R : TableRule I Q) (h : I k) (hs : SameButAllocs k k1)
    (hc : c ∈ k.procs.used) (hq : ∀ i, Q (k.entry c i).type) (tasks : Arena Task) :
    I ({ k1 with tasks }.freeProcess c) := by
  refine R.discard (R.tasks tasks k1.head k1.tail k1.current k1.allocs (R.sameButAllocs h hs)) ?_ ?_
  · exact SameButAllocs.used hs ▸ hc
  · intro i
    have he : { k1 with tasks }.entry c i = k.entry c i := SameButAllocs.entry hs c i
    rw [he]
    exact hq i

structure Fresh (k : Kernel) (parent c : Nat) (q : Kernel) : Prop where
  old : parent ∈ q.procs.used
  same : q.proc parent = k.proc parent
  child : c ∈ q.procs.used
  ne : c ≠ parent
  zero : ∀ i, q.entry c i = FdEntry.zero

theorem fresh_newProcess {parent c : Nat} (hs : SameButAllocs k k1) (hp : parent ∈ k.procs.used)
    (hc : c ∉ k1.procs.used) : Fresh k parent c (k1.newProcess c) := by
  have hp1 : parent ∈ k1.procs.used := by
    rw [SameButAllocs.used hs]
    exact hp
  have hne : c ≠ parent := fun he => hc (he ▸ hp1)
  refine ⟨Finset.mem_insert_of_mem hp1, ?_, Finset.mem_insert_self c _, hne, fun i => ?_⟩
  · exact (Arena.alloc_cell_ne _ _ hne.symm).trans (hs.proc parent)
  · unfold entry proc newProcess
    rw [Arena.alloc_cell_self]
    rfl

/-- `clone`, given what copying the table of the parent does to the invariant. -/
theorem clone {parent : Nat} {r : Option Nat} (R : TableRule I Q) (h : I k)
    (hp : parent ∈ k.procs.used)
    (hinherit : ∀ {q c}, I q → Fresh k parent c q → I (q.inherit parent c))
    (hok : (∀ i, Q (k.entry parent i).type) ∨ Forks env k)
    (hc : k.clone env parent = some (r, k')) : I k' := by
  by_cases hq : ∀ i, Q (k.entry parent i).type
  · cases clone_cases hc with
    | inl hno => exact R.sameButAllocs h hno.2
    | inr hyes =>
      obtain ⟨k0, c, h0, hfresh, hcl⟩ := hyes
      have hnew := fresh_newProcess h0 hp hfresh
      have h1 := R.create (R.sameButAllocs h h0) hfresh
      have h2 := hinherit h1 hnew
      have hcu : c ∈ ((k0.newProcess c).inherit parent c).procs.used := by
        rw [inherit_used]
        exact hnew.child
      -- the table that a failing call gives back is a copy of the parent's
      have hqc : ∀ i, Q (((k0.newProcess c).inherit parent c).entry c i).type := by
        intro i
        rw [inherit_entry]
        unfold entry
        rw [hnew.same]
        exact hq i
      cases hcl with
      | noSpace hk =>
        refine R.giveBack h1 hk hnew.child (fun i => ?_) _
        rw [hnew.zero]
        exact R.free
      | failed hk =>
        rename_i k1
        generalize (k0.newProcess c).inherit parent c = q at h2 hk hcu hqc
        exact R.giveBack h2 hk hcu hqc k1.tasks
      | noStack hk ht =>
        generalize (k0.newProcess c).inherit parent c = q at h2 hk hcu hqc
        exact R.giveBack h2 hk hcu hqc _
      | done hk ht hs => exact R.startTask (R.sameButAllocs h2 hk) hs
  · have hok' := hok.resolve_left hq
    unfold Kernel.clone at hc
    split at hc
    · cases hc
      exact h
    · split at hc
      · rename_i k1 hk
        cases hc
        exact R.sameButAllocs h (.kmalloc hk)
      · rename_i c k0 hk
        have hsame : SameButAllocs k k0 := .kmalloc hk
        have hnew := fresh_newProcess hsame hp (kmalloc_proc hk)
        have h1 := R.create (R.sameButAllocs h hsame) (kmalloc_proc hk)
        dsimp only at hc
        split at hc
        · rename_i hspace
          have hroom := hok' hspace ⟨c, Option.eq_some_of_filter_eq_some (congrArg Prod.fst hk),
            (kmalloc_eq hk).2 c rfl⟩
          have hk0 := (kmalloc_eq hk).1
          obtain ⟨k2, t, stack, hk2, hs⟩ := cloneInto_done hroom
            (k := k0.newProcess c) (by rw [hk0]; rfl) (by rw [hk0]; rfl) hc
          exact R.startTask (R.sameButAllocs (hinherit h1 hnew) hk2) hs
        · cases hc
          refine R.discard h1 hnew.child fun i => ?_
          rw [hnew.zero]
          exact R.free

theorem sysFork {r : Int} (R : TableRule I Q) (hl : Listed k l) (h : I k)
    (hinherit : ∀ {p q c}, k.currentProc = some p → I q →
      Fresh (k.setProc p { k.proc p with mainThread := some k.current }) p c q →
        I (q.inherit p c))
    (hok : discards Q env k .fork) (hf : k.sysFork env = some (r, k')) : I k' := by
  unfold Kernel.sysFork at hf
  split at hf
  · cases hf
    exact h
  · rename_i p hp
    obtain ⟨⟨c, k1⟩, hc, hf⟩ := Option.bind_eq_some_iff.mp hf
    have h1 : I k1 := by
      refine R.clone (R.thread (p := p) (some k.current) h) (hl.currentProc_used hp)
        (hinherit hp) ?_ hc
      have he : ∀ i, (k.setProc p { k.proc p with mainThread := some k.current }).entry p i =
          k.entry p i := by
        intro i
        unfold entry proc setProc
        rw [Arena.set_cell_self]
      simp only [he]
      exact hok p hp
    cases c with
    | none =>
      cases hf
      exact h1
    | some c =>
      cases hf
      exact h1

end create

end TableRule

section entries

def AllEntries (P : FdEntry → Prop) (k : Kernel) : Prop := ∀ p i, P (k.entry p i)

variable {P : FdEntry → Prop}

theorem AllEntries.setEntry {e : FdEntry} (h : AllEntries P k) (he : P e) (p : Nat)
    (i : Fin maxFds) : AllEntries P (k.setEntry p i e) := by
  intro q j
  rw [setEntry_entry]
  split
  · exact he
  · exact h q j

theorem AllEntries.setProc {x : Process} (h : AllEntries P k) (hx : ∀ i, P (x.fds i)) :
    AllEntries P (k.setProc p x) := by
  intro q j
  unfold entry proc Kernel.setProc
  dsimp only
  rw [Arena.set_cell]
  split
  · exact hx j
  · exact h q j

theorem AllEntries.retain {e : FdEntry} (h : AllEntries P k) : AllEntries P (k.retain e) := by
  obtain ⟨pipes, hr⟩ := retain_rest k e
  rw [hr]
  exact h

theorem AllEntries.dupFrom (h : AllEntries P k) (i : Fin maxFds) (min : Int) :
    AllEntries P (k.dupFrom p i min).2 := by
  unfold Kernel.dupFrom
  split
  · split
    · exact h.setEntry (h p i) p _
    · exact h
  · exact h

theorem AllEntries.inherit (h : AllEntries P k) (parent c : Nat) :
    AllEntries P (k.inherit parent c) := by
  obtain ⟨pipes, hr⟩ := inherit_rest k parent c
  rw [hr]
  exact h.setProc fun i => h parent i

theorem AllEntries.keep (h : AllEntries P k) (hs : k'.procSide = k.procSide) : AllEntries P k' := by
  intro p i
  rw [entry_of_procSide hs]
  exact h p i

theorem discards_true (env : Env) (k : Kernel) (ev : Event) :
    discards (fun _ => True) env k ev := by
  cases ev with
  | wait pid old =>
    intro t _
    split
    · exact fun _ _ _ _ => trivial
    · exact fun _ _ _ _ _ _ => trivial
  | fork => exact fun _ _ => Or.inl fun _ => trivial
  | exit code => exact fun _ _ _ _ _ _ => trivial
  | fault code => exact fun _ _ _ _ _ _ => trivial
  | schedule old => exact fun _ _ _ _ _ _ => trivial
  | kill pid sig => exact fun _ _ _ _ _ _ _ _ => trivial
  | _ => trivial

structure EntryRule (P : FdEntry → Prop) : Prop where
  zero : P FdEntry.zero
  altered : ∀ {e : FdEntry} (offset flags nonblock), P e → P { e with offset, flags, nonblock }
  reading : ∀ j, P { FdEntry.zero with type := .pipe, pipe := some j, readable := true }
  writing : ∀ j, P { FdEntry.zero with type := .pipe, pipe := some j, writable := true }
  file : ∀ {e : FdEntry}, e.type = .file → e.pipe = none → P e

namespace EntryRule

variable (h : EntryRule P)
include h

theorem tables : TableRule (AllEntries P) (fun _ => True) where
  free := trivial
  tasks _ _ _ _ _ hk := hk
  thread _ hk := hk.setProc fun i => hk _ i
  home hk := hk.setProc fun i => hk _ i
  create := by
    intro k c hk _ q i
    unfold Kernel.entry Kernel.proc newProcess
    dsimp only
    rw [Arena.alloc_cell]
    split
    · exact h.zero
    · exact hk q i
  discard hk _ _ := hk
  close := by
    intro k p i hk _
    cases closeEntry_rest k p i with
    | inl hr =>
      rw [hr.1]
      exact hk
    | inr hr =>
      obtain ⟨pipes, pipeUsed, fsLog, hr⟩ := hr
      rw [hr]
      exact AllEntries.setEntry (k := { k with pipes, pipeUsed, fsLog }) hk h.zero p i

theorem fileCall (hk : AllEntries P k) (hc : FileCall k k') : AllEntries P k' := by
  cases hc with
  | same hs => exact hk.keep hs
  | moved hp hs => exact (hk.setEntry (h.altered _ _ _ (hk _ _)) _ _).keep hs
  | taken hp hfree ht hpipe hs => exact (hk.setEntry (h.file ht hpipe) _ _).keep hs
  | left hp hs =>
    rename_i p cwd
    have h1 : AllEntries P (k.setProc p { k.proc p with cwd }) := hk.setProc fun i => hk p i
    exact h1.keep hs

theorem sysPipe (hk : AllEntries P k) : AllEntries P k.sysPipe.2 := by
  unfold Kernel.sysPipe
  split
  · exact hk
  · split
    · exact hk
    · rename_i j hj
      dsimp only
      split
      · exact hk
      · exact AllEntries.setEntry (AllEntries.setEntry (k := { k with pipeUsed := _, pipes := _ })
          hk (h.reading j) _ _) (h.writing j) _ _

theorem sysFcntl (hk : AllEntries P k) (fd cmd : Int) (arg : UInt64) :
    AllEntries P (k.sysFcntl fd cmd arg).2 := by
  unfold Kernel.sysFcntl
  split
  · exact hk
  · rename_i p i hfd
    dsimp only
    split
    · exact hk.dupFrom i _
    · split
      · exact hk
      · split
        · exact hk.setEntry (h.altered _ _ _ (hk p i)) p i
        · split
          · exact hk
          · split
            · exact hk.setEntry (h.altered _ _ _ (hk p i)) p i
            · split
              · exact hk.dupFrom i _
              · exact hk

theorem onTable {ev : Event} {r : Reply} (ht : ev.onTable = true) (hk : AllEntries P k)
    (hs : k.step env ev = some (r, k')) : AllEntries P k' := by
  cases ev with
  | pipe =>
    simp only [Kernel.step] at hs
    have he : k' = k.sysPipe.2 := answer_pure hs
    rw [he]
    exact h.sysPipe hk
  | close fd =>
    have he : k' = (k.sysClose fd).2 := answer_pure hs
    rw [he]
    cases sysClose_rest k fd with
    | inl hr =>
      rw [hr]
      exact hk
    | inr hr =>
      obtain ⟨p, i, pipes, pipeUsed, fsLog, _, hr⟩ := hr
      rw [hr]
      exact AllEntries.setEntry (k := { k with pipes, pipeUsed, fsLog }) hk h.zero p i
  | dup fd =>
    have he : k' = (k.sysDup fd).2 := answer_pure hs
    rw [he]
    unfold sysDup
    split
    · exact hk
    · split
      · exact hk
      · exact (hk.setEntry (hk _ _) _ _).retain
  | dup2 old new =>
    have he : k' = (k.sysDup2 old new).2 := answer_pure hs
    rw [he]
    unfold sysDup2
    split
    · exact (hk.setEntry (hk _ _) _ _).retain
    · exact hk
  | fcntl fd cmd arg =>
    have he : k' = (k.sysFcntl fd cmd arg).2 := answer_pure hs
    rw [he]
    exact h.sysFcntl hk fd cmd arg
  | _ => cases ht

end EntryRule

/-- An invariant of tables over all calls that create, switch or destroy tasks. -/
theorem TableRule.lifecycle {I : Kernel → Prop} {Q : FdType → Prop} {ev : Event} {r : Reply}
    (R : TableRule I Q) (hl : Listed k l) (h : I k) (hq : ev.lifecycle = true)
    (hok : discards Q env k ev)
    (hfind : ∀ {k l path r k'}, Listed k l → I k → k.find env path = some (r, k') → I k')
    (hinherit : ev = .fork → ∀ {p q c}, k.currentProc = some p → I q →
      Fresh (k.setProc p { k.proc p with mainThread := some k.current }) p c q →
        I (q.inherit p c))
    (hs : k.step env ev = some (r, k')) : I k' := by
  cases ev with
  | fork =>
    obtain ⟨a, hs⟩ := answer_some hs
    exact R.sysFork hl h (hinherit rfl) hok hs
  | exit code => exact R.sysExit hl h hok (silent_some hs)
  | fault code => exact R.exit hl h hok (silent_some hs)
  | kill pid sig =>
    obtain ⟨a, hs⟩ := answer_some hs
    exact R.sysKill hl h hok hs
  | wait pid old =>
    simp only [Kernel.step] at hs
    obtain ⟨a, hs⟩ := answer_some hs
    exact R.waitPass hl h hok hs
  | spawn path =>
    simp only [Kernel.step] at hs
    obtain ⟨a, hs⟩ := answer_some hs
    exact R.spawn hl h hfind hs
  | schedule old =>
    simp only [Kernel.step] at hs
    obtain ⟨a, hs⟩ := answer_some hs
    exact R.schedule hl h hok hs
  | _ => cases hq

theorem EntryRule.step {ev : Event} {r : Reply} (h : EntryRule P) (hl : Listed k l)
    (hk : AllEntries P k) (hs : k.step env ev = some (r, k')) : AllEntries P k' := by
  cases hq : ev.lifecycle with
  | true =>
    exact h.tables.lifecycle hl hk hq (discards_true env k ev)
      (fun _ hi hf => hi.keep (find_procSide _ _ _ _ hf)) (fun _ _ _ _ _ hi _ => hi.inherit _ _) hs
  | false =>
    cases ht : ev.onTable with
    | true => exact h.onTable ht hk hs
    | false =>
      cases step_fileCall hq ht hs with
      | inl hc => exact h.fileCall hk hc
      | inr hc =>
        obtain ⟨j, q, hc⟩ := hc
        rw [hc.rest]
        exact hk

theorem EntryRule.reached {ok : Env → Kernel → Event → Prop} (h : EntryRule P)
    (hr : Reached ok k) : AllEntries P k := by
  refine (hr.invariant (I := fun k => (∃ l, Listed k l) ∧ AllEntries P k)
    ⟨⟨[], boot_listed⟩, fun _ _ => h.zero⟩ ?_).2
  intro k k' env ev r hi _ hs
  obtain ⟨⟨l, hl⟩, hk⟩ := hi
  exact ⟨step_listed hl hs, h.step hl hk hs⟩

end entries

end LosTacOS.Os.Kernel
