import LosTacOS.Os.Runs

/-! Parents of tasks. Nothing hands the children of a task that is destroyed to another one, so
their pointers stay good only while no parent goes before its children. -/
namespace LosTacOS.Os.Kernel

variable {env : Env} {k k' k1 : Kernel} {l : List Nat} {t u : Nat}

def ParentsAlive (k : Kernel) (l : List Nat) : Prop :=
  ∀ u ∈ l, ∀ q, (k.task u).parent = some q → q = 0 ∨ q ∈ l

/-- No task that `reap` would destroy is the parent of one that stays. -/
def ReapsNoParent (k : Kernel) : Prop :=
  ∀ u ∈ k.tasks.used, ∀ q, (k.task u).parent = some q → k.survives q = false → k.survives u = false

/-- The tasks that `kill_task_tree` goes through from `t` on. -/
inductive Below (k : Kernel) (t : Nat) : Nat → Prop
  | self : Below k t t
  | child {u v : Nat} (h : Below k t u) (hv : k.isChild u v = true) : Below k t v

/-- No step destroys the parent of a task that stays: neither `reap` nor `wait` does, and a kill
takes all of the tree below its target, which the current task is not part of. -/
def orphansNobody (env : Env) (k : Kernel) : Event → Prop
  | .exit _ => k.ReapsNoParent
  | .fault _ => k.ReapsNoParent
  | .schedule _ => k.ReapsNoParent
  | .wait pid _ => ∀ t, k.findTask pid env.fuel k.head = some (some t) →
      if (k.task t).state = .dead then
        t ≠ k.current → ∀ u ∈ k.tasks.used, u ≠ t → (k.task u).parent ≠ some t
      else k.ReapsNoParent
  | .kill pid _ => 1 < pid →
      if (k.task k.current).pid = pid then k.ReapsNoParent
      else ∀ t, k.findTask pid env.fuel k.head = some (some t) → ∀ u, k.Below t u →
        u ≠ k.current ∧ 1 < (k.task u).pid
  | _ => True

structure Kin (k : Kernel) (l : List Nat) : Prop extends Listed k l where
  alive : ParentsAlive k l
  idleParent : (k.task 0).parent = none

theorem boot_kin : Kin boot [] := ⟨boot_listed, nofun, rfl⟩

theorem Kin.keep (h : Kin k l) (hs : k'.taskSide = k.taskSide) : Kin k' l := by
  refine ⟨h.toListed.keep hs, ?_, ?_⟩
  · intro u hu q
    rw [task_of_taskSide hs]
    exact h.alive u hu q
  · rw [task_of_taskSide hs]
    exact h.idleParent

theorem Kin.setTask {x : Task} (h : Kin k l) (hl : Listed (k.setTask t x) l)
    (hp : x.parent = (k.task t).parent) : Kin (k.setTask t x) l := by
  have hpar : ∀ u, ((k.setTask t x).task u).parent = (k.task u).parent := by
    intro u
    change ((k.tasks.set t x).cell u).parent = _
    rw [Arena.set_cell]
    split
    · rename_i hu
      rw [hp, hu]
    · rfl
  refine ⟨hl, ?_, ?_⟩
  · intro u hu q
    rw [hpar]
    exact h.alive u hu q
  · rw [hpar]
    exact h.idleParent

section schedule

theorem suspend_parent (k : Kernel) (old u : Nat) :
    ((k.suspend old).task u).parent = (k.task u).parent := by
  rw [suspend_task]
  split
  · rfl
  · rfl

theorem run_parent (k : Kernel) (t u : Nat) : ((k.run t).task u).parent = (k.task u).parent := by
  rw [run_task]
  split
  · rfl
  · rfl

theorem Kin.schedule {old regs : Nat} (h : Kin k l) (hr : k.ReapsNoParent)
    (hs : k.schedule env old = some (regs, k')) : Kin k' (l.filter k.survives) := by
  obtain ⟨k1, hreap, hk'⟩ := h.toTaskList.schedule_cases hs
  obtain ⟨_, hrp⟩ := h.toTaskList.reaped hreap
  have hpar : ∀ u, (k'.task u).parent = (k.task u).parent := by
    intro u
    rw [← parent_of_body (hrp.body u)]
    cases hk' with
    | inl hk' => rw [hk', suspend_parent]
    | inr hk' =>
      obtain ⟨x, _, hk'⟩ := hk'
      rw [hk', run_parent, suspend_parent]
  refine ⟨h.toListed.schedule hs, ?_, ?_⟩
  · intro u hu q hq
    rw [hpar] at hq
    obtain ⟨hul, hus⟩ := List.mem_filter.mp hu
    cases h.alive u hul q hq with
    | inl h0 => exact Or.inl h0
    | inr hm =>
      refine Or.inr (List.mem_filter.mpr ⟨hm, ?_⟩)
      cases hsq : k.survives q with
      | true => rfl
      | false =>
        have hu0 := hr u ((h.used u).mpr (Or.inr hul)) q hq hsq
        rw [hus] at hu0
        cases hu0
  · rw [hpar]
    exact h.idleParent

/-- `leave` changes exit codes and states; who was not dead and is not leaving is not dead after. -/
theorem leave_task (k : Kernel) (code : Int) (u : Nat) : ∃ exitCode state,
    (k.leave code).task u = { k.task u with exitCode, state } ∧
      (u ≠ k.current → (state = .dead ↔ (k.task u).state = .dead)) := by
  have hset : ∀ (q : Kernel) (t v : Nat) (x : Task),
      (q.setTask t x).task v = if v = t then x else q.task v := fun q t v x => Arena.set_cell ..
  have hbase : ∃ exitCode state, (k.setTask k.current
      { k.task k.current with exitCode := code, state := .dead }).task u =
        { k.task u with exitCode, state } ∧
      (u ≠ k.current → (state = .dead ↔ (k.task u).state = .dead)) := by
    rw [hset]
    split
    · rename_i hu
      rw [hu]
      exact ⟨_, _, rfl, fun hne => absurd rfl hne⟩
    · exact ⟨_, _, rfl, fun _ => Iff.rfl⟩
  unfold leave
  dsimp only
  generalize k.setTask k.current { k.task k.current with exitCode := code, state := .dead } = q
    at hbase
  obtain ⟨e, s, hq, hs⟩ := hbase
  split
  · rename_i p hp
    split
    · rename_i hb
      rw [hset]
      split
      · rename_i hu
        rw [← hu] at hb ⊢
        rw [hq] at hb ⊢
        have hsb : s = .blocked := hb
        refine ⟨e, .ready, rfl, fun hne => ?_⟩
        rw [← hs hne, hsb]
        simp
      · exact ⟨e, s, hq, hs⟩
    · exact ⟨e, s, hq, hs⟩
  · exact ⟨e, s, hq, hs⟩

theorem leave_parent (k : Kernel) (code : Int) (u : Nat) :
    ((k.leave code).task u).parent = (k.task u).parent := by
  obtain ⟨_, _, h, _⟩ := leave_task k code u
  rw [h]

theorem leave_process (k : Kernel) (code : Int) (u : Nat) :
    ((k.leave code).task u).process = (k.task u).process := by
  obtain ⟨_, _, h, _⟩ := leave_task k code u
  rw [h]

theorem leave_survives (k : Kernel) (code : Int) :
    (∀ u, (k.leave code).survives u = k.survives u) := by
  intro u
  unfold survives
  rw [leave_current]
  by_cases hu : u = k.current
  · simp [hu]
  · have hd : ((k.leave code).task u).state = .dead ↔ (k.task u).state = .dead := by
      obtain ⟨_, _, h, hs⟩ := leave_task k code u
      rw [h]
      exact hs hu
    by_cases hs : (k.task u).state = .dead
    · rw [hs, hd.mpr hs]
    · simp [hu, hs, hd]

theorem leave_used (k : Kernel) (code : Int) : (k.leave code).tasks.used = k.tasks.used := by
  unfold leave
  dsimp only
  split
  · split
    · rfl
    · rfl
  · rfl

theorem Kin.leave (h : Kin k l) (code : Int) : Kin (k.leave code) l := by
  refine ⟨h.toListed.leave code, ?_, ?_⟩
  · intro u hu q
    rw [leave_parent]
    exact h.alive u hu q
  · rw [leave_parent]
    exact h.idleParent

theorem Kin.exit {code : Int} (h : Kin k l) (hr : k.ReapsNoParent)
    (he : k.exit env code = some k') : ∃ l', Kin k' l' := by
  obtain ⟨⟨regs, k1⟩, hs, hk⟩ := Option.bind_eq_some_iff.mp he
  cases hk
  refine ⟨_, (h.leave code).schedule ?_ hs⟩
  intro u hu q
  rw [leave_used] at hu
  rw [leave_parent, leave_survives, leave_survives]
  exact hr u hu q

end schedule

section destroy

theorem Kin.destroy (h : Kin k l) (ht : t ∈ l) (hc : t ≠ k.current)
    (hno : ∀ u ∈ l, u ≠ t → (k.task u).parent ≠ some t)
    (hd : k.removeAndDestroy env t = some k') : Kin k' (l.erase t) := by
  obtain ⟨hl, hdes⟩ := h.toListed.destroy ht hc hd
  refine ⟨hl, ?_, ?_⟩
  · intro u hu q hq
    rw [parent_of_body (hdes.body u)] at hq
    have hul := List.mem_of_mem_erase hu
    have hut : u ≠ t := fun he => h.nodup.not_mem_erase (he ▸ hu)
    refine (h.alive u hul q hq).imp_right fun hm => ?_
    refine (List.mem_erase_of_ne fun he => ?_).mpr hm
    rw [he] at hq
    exact hno u hul hut hq
  · rw [parent_of_body (hdes.body 0)]
    exact h.idleParent

theorem Kin.condemn (h : Kin k l) (ht : t ∈ l) : Kin (k.condemn t) l := by
  obtain ⟨p, _, _, hp⟩ := h.owns t ht
  have hpar : ∀ u, ((k.condemn t).task u).parent = (k.task u).parent := by
    intro u
    rw [condemn_task hp]
    split
    · rfl
    · rfl
  refine ⟨h.toListed.condemn ht, ?_, ?_⟩
  · intro u hu q
    rw [hpar]
    exact h.alive u hu q
  · rw [hpar]
    exact h.idleParent

/-- A kill of the whole tree leaves nobody without a parent. -/
theorem Kin.killTaskTree {n : Nat} (h : Kin k l) (ht : t ∈ l)
    (hb : ∀ u, k.Below t u → u ≠ k.current ∧ 1 < (k.task u).pid)
    (hk : Kernel.killTaskTree env n k t = some k') : ∃ l', Kin k' l' := by
  have hstep : KillStep env k l (k.Below t) (fun m q => Kin q m) := by
    intro q m v q' hkill hi hv hD _ hchild hone
    have hcur : v ≠ q.current := by
      rw [hkill.current]
      exact (hb v hD).1
    obtain ⟨p, _, _, hp⟩ := hi.owns v hv
    rw [killOne_eq] at hone
    unfold spare
    rw [if_neg hcur]
    refine (hi.condemn hv).destroy hv ?_ ?_ hone
    · rw [condemn_current hp]
      exact hcur
    · intro w hw hwv hpar
      rw [condemn_task hp, if_neg hwv, hkill.parent] at hpar
      have hch : k.isChild v w = true := by simp [isChild, hwv, hpar]
      have hw' := hb w (.child hD hch)
      cases hchild w hw hch with
      | inl hc => exact hw'.1 hc
      | inr hpid => omega
  obtain ⟨l', _, hkin, _⟩ := (Killing.start h.toListed).tree
    (fun _ _ hu hv => .child hu hv) hstep h ht .self hk
  exact ⟨l', hkin⟩

end destroy

section create

theorem Kin.startTask {p stack : Nat} {q : Option Nat} (h : Kin k l) (ht : t ∉ k.tasks.used)
    (hp : Unowned k l p) (hq : ∀ x, q = some x → x = 0 ∨ x ∈ l)
    (hs : k.startTask t p stack q = some k') : Kin k' (l ++ [t]) := by
  have hl := h.toListed.startTask ht hp hs
  have ht0 : t ≠ 0 := fun he => ht ((h.used t).mpr (Or.inl he))
  have htl : t ∉ l := fun hm => ht ((h.used t).mpr (Or.inr hm))
  unfold Kernel.startTask at hs
  have hl0 : Listed (k.setProc p { k.proc p with mainThread := some t }) l := h.toListed.keep rfl
  obtain ⟨_, hrel⟩ := hl0.enlist (p := p) ht rfl (by simp) hp.used hp.ne hp.free hs
  have hpar : ∀ u, (k'.task u).parent = if u = t then q else (k.task u).parent := by
    intro u
    rw [parent_of_body (hrel.body u)]
    change Task.parent ((Arena.alloc _ t _).cell u) = _
    rw [Arena.alloc_cell]
    split
    · rfl
    · rfl
  refine ⟨hl, ?_, ?_⟩
  · intro u hu x hx
    have hwiden : x = 0 ∨ x ∈ l → x = 0 ∨ x ∈ l ++ [t] := fun hx =>
      hx.imp_right (List.mem_append_left [t])
    rw [hpar] at hx
    split at hx
    · exact hwiden (hq x hx)
    · rename_i hut
      simp only [List.mem_append, List.mem_singleton] at hu
      exact hwiden (h.alive u (hu.resolve_right hut) x hx)
  · rw [hpar, if_neg ht0.symm]
    exact h.idleParent

theorem Kin.newProcess {c : Nat} (h : Kin k l) (hc : c ∉ k.procs.used) :
    Kin (k.newProcess c) l :=
  ⟨(h.toListed.newProcess hc).1, h.alive, h.idleParent⟩

theorem Kin.freeProcess {c : Nat} (h : Kin k l) (hu : Unowned k l c) : Kin (k.freeProcess c) l :=
  ⟨h.toListed.freeProcess hu, h.alive, h.idleParent⟩

theorem Kin.dropTask (h : Kin k l) (ht : t ∉ k.tasks.used) :
    Kin { k with tasks := k.tasks.set t Task.zero } l := by
  have hcell : ∀ u, u = 0 ∨ u ∈ l →
      { k with tasks := k.tasks.set t Task.zero }.task u = k.task u := by
    intro u hu
    refine Arena.set_cell_ne _ _ fun he => ht ?_
    rw [← he]
    exact (h.used u).mpr hu
  refine ⟨h.toListed.dropTask ht, ?_, ?_⟩
  · intro u hu q
    rw [hcell u (Or.inr hu)]
    exact h.alive u hu q
  · rw [hcell 0 (Or.inl rfl)]
    exact h.idleParent

theorem inherit_mainThread {parent c : Nat} (k : Kernel) (h : parent ≠ c) :
    ((k.inherit parent c).proc parent).mainThread = (k.proc parent).mainThread := by
  obtain ⟨pipes, hi⟩ := inherit_rest k parent c
  rw [hi]
  change ((k.procs.set c _).cell parent).mainThread = _
  rw [Arena.set_cell_ne _ _ h]
  rfl

theorem Kin.clone {parent : Nat} {r : Option Nat} (h : Kin k l) (hp : parent ∈ k.procs.used)
    (hm : ∀ x, (k.proc parent).mainThread = some x → x = 0 ∨ x ∈ l)
    (hc : k.clone env parent = some (r, k')) : ∃ l', Kin k' l' := by
  cases clone_cases hc with
  | inl hno => exact ⟨l, h.keep hno.2.taskSide⟩
  | inr hyes =>
    obtain ⟨k0, c, h0, hfresh, hcl⟩ := hyes
    have hk0 := h.keep h0.taskSide
    have hu1 := (hk0.toListed.newProcess hfresh).2
    have h1 := hk0.newProcess hfresh
    have hside := inherit_taskSide (k0.newProcess c) parent c
    cases hcl with
    | noSpace hk => exact ⟨l, (h1.keep hk.taskSide).freeProcess (hu1.keep hk.taskSide)⟩
    | failed hk =>
      have hs := hk.taskSide.trans hside
      exact ⟨l, (h1.keep hs).freeProcess (hu1.keep hs)⟩
    | noStack hk ht =>
      have hs := hk.taskSide.trans hside
      have h2 := h1.keep hs
      exact ⟨l, (h2.dropTask ht).freeProcess ((hu1.keep hs).dropTask h2.toListed ht)⟩
    | done hk ht hstart =>
      have hs := hk.taskSide.trans hside
      refine ⟨_, (h1.keep hs).startTask ht (hu1.keep hs) ?_ hstart⟩
      intro x hx
      have hpc : parent ≠ c := fun he => hfresh (by rw [← he, h0]; exact hp)
      refine hm x ?_
      rw [hk.proc, inherit_mainThread _ hpc] at hx
      have hcell : (k0.newProcess c).proc parent = k0.proc parent := Arena.alloc_cell_ne _ _ hpc
      rwa [hcell, h0.proc] at hx

theorem Kin.sysFork {r : Int} (h : Kin k l) (hf : k.sysFork env = some (r, k')) :
    ∃ l', Kin k' l' := by
  unfold Kernel.sysFork at hf
  split at hf
  · cases hf
    exact ⟨l, h⟩
  · rename_i p hp
    obtain ⟨⟨c, k1⟩, hc, hf⟩ := Option.bind_eq_some_iff.mp hf
    have h0 : Kin (k.setProc p { k.proc p with mainThread := some k.current }) l := h.keep rfl
    obtain ⟨p', hp', hproc⟩ := h.toListed.currentProc
    have hpp : p = p' := Option.some.inj (hp.symm.trans hproc)
    have hdone : ∃ l', Kin k1 l' := by
      refine h0.clone (hpp ▸ hp') ?_ hc
      intro x hx
      change ((k.procs.set p _).cell p).mainThread = some x at hx
      rw [Arena.set_cell_self] at hx
      rw [← Option.some.inj hx]
      exact h.current
    cases c with
    | none =>
      cases hf
      exact hdone
    | some c =>
      cases hf
      exact hdone

theorem Kin.launch {p : Nat} {r : Option Nat} (h : Kin k l) (hp : Unowned k l p)
    (hl : k.launch env p = some (r, k')) : ∃ l', Kin k' l' := by
  cases launch_cases hl with
  | failed hk => exact ⟨l, h.keep hk.taskSide⟩
  | noStack hk ht => exact ⟨l, (h.keep hk.taskSide).dropTask ht⟩
  | done hk ht hs =>
    rename_i k1 k2 t stack
    have h1 := (h.keep hk.taskSide).startTask ht (hp.keep hk.taskSide) (q := none)
      (fun x hx => by cases hx) hs
    have hl2 : Listed (k2.setTask t { k2.task t with parent := some k2.current }) (l ++ [t]) :=
      h1.toListed.setTask rfl rfl fun hr => h1.running _ (by simp) hr
    have hpar : ∀ u, ((k2.setTask t { k2.task t with parent := some k2.current }).task u).parent =
        if u = t then some k2.current else (k2.task u).parent := by
      intro u
      change ((k2.tasks.set t _).cell u).parent = _
      rw [Arena.set_cell]
      split
      · rfl
      · rfl
    have ht0 : t ≠ 0 := fun he => h1.idle (by simp [he])
    refine ⟨_, hl2, ?_, ?_⟩
    · intro u hu q hq
      rw [hpar] at hq
      split at hq
      · cases hq
        exact h1.current
      · exact h1.alive u hu q hq
    · rw [hpar, if_neg ht0.symm]
      exact h1.idleParent

theorem Kin.spawn {path : List Char} {r : Option Nat} (h : Kin k l)
    (hs : k.spawn env path = some (r, k')) : ∃ l', Kin k' l' := by
  unfold Kernel.spawn at hs
  split at hs
  · rename_i k1 hk
    cases hs
    exact ⟨l, h.keep (SameButAllocs.kmalloc hk).taskSide⟩
  · rename_i p k1 hk
    have hp := kmalloc_proc hk
    have h0 := h.keep (SameButAllocs.kmalloc hk).taskSide
    have h1 := h0.newProcess hp
    have hu1 := (h0.toListed.newProcess hp).2
    obtain ⟨⟨cwd, k2⟩, h2, hs⟩ := Option.bind_eq_some_iff.mp hs
    have hside2 := taskSide_of_procSide (find_procSide _ _ _ _ h2)
    have hside3 : (k2.setProc p { k2.proc p with cwd := cwd }).taskSide =
        (k1.newProcess p).taskSide := hside2
    dsimp only at hs
    split at hs
    · obtain ⟨⟨_, k3⟩, h3, hs⟩ := Option.bind_eq_some_iff.mp hs
      have hside4 := (taskSide_of_procSide (find_procSide _ _ _ _ h3)).trans hside3
      dsimp only at hs
      split at hs
      · exact (h1.keep hside4).launch (hu1.keep hside4) hs
      · cases hs
        exact ⟨l, h1.keep hside4⟩
    · cases hs
      exact ⟨l, h1.keep hside3⟩

end create

section runs

theorem Kin.sysKill {pid : Nat} {sig r : Int} (h : Kin k l)
    (hok : orphansNobody env k (.kill pid sig)) (hk : k.sysKill env pid sig = some (r, k')) :
    ∃ l', Kin k' l' := by
  unfold Kernel.sysKill at hk
  split at hk
  · cases hk
    exact ⟨l, h⟩
  · rename_i hpid
    have hok' := hok (by omega)
    split at hk
    · rename_i hself
      rw [if_pos hself] at hok'
      obtain ⟨k1, he, hk⟩ := Option.bind_eq_some_iff.mp hk
      cases hk
      exact h.exit hok' he
    · rename_i hself
      rw [if_neg hself] at hok'
      obtain ⟨f, hf, hk⟩ := Option.bind_eq_some_iff.mp hk
      cases f with
      | none =>
        cases hk
        exact ⟨l, h⟩
      | some t =>
        obtain ⟨k1, ht, hk⟩ := Option.bind_eq_some_iff.mp hk
        cases hk
        exact h.killTaskTree (findTask_mem h.chain hf).1 (hok' t hf) ht

theorem Kin.waitPass {pid old : Nat} {r : Bool} (h : Kin k l)
    (hok : orphansNobody env k (.wait pid old)) (hw : k.waitPass env pid old = some (r, k')) :
    ∃ l', Kin k' l' := by
  obtain ⟨f, hf, hw⟩ := Option.bind_eq_some_iff.mp hw
  cases f with
  | none =>
    cases hw
    exact ⟨l, h⟩
  | some t =>
    have hok' := hok t hf
    dsimp only at hw
    split at hw
    · rename_i hdead
      rw [if_pos hdead] at hok'
      obtain ⟨k1, hd, hw⟩ := Option.bind_eq_some_iff.mp hw
      cases hw
      by_cases hc : t = k.current
      · simp only [removeAndDestroy, if_pos hc, Option.some.injEq] at hd
        exact ⟨l, hd ▸ h⟩
      · refine ⟨_, h.destroy (findTask_mem h.chain hf).1 hc (fun u hu hut => ?_) hd⟩
        exact hok' hc u ((h.used u).mpr (Or.inr hu)) hut
    · rename_i hdead
      rw [if_neg hdead] at hok'
      obtain ⟨⟨regs, k1⟩, hs, hw⟩ := Option.bind_eq_some_iff.mp hw
      cases hw
      exact ⟨_, h.schedule hok' hs⟩

theorem ReapsNoParent.keep (h : k.ReapsNoParent) (hs : k'.taskSide = k.taskSide) :
    k'.ReapsNoParent := by
  intro u hu q
  rw [tasks_of_taskSide hs] at hu
  have hsurv : k'.survives = k.survives := by
    funext v
    simp only [survives, task_of_taskSide hs, current_of_taskSide hs]
  rw [task_of_taskSide hs, hsurv]
  exact h u hu q

theorem Kin.step {ev : Event} {r : Reply} (h : Kin k l) (hok : orphansNobody env k ev)
    (hs : k.step env ev = some (r, k')) : ∃ l', Kin k' l' := by
  cases hq : ev.lifecycle with
  | false => exact ⟨l, h.keep (step_taskSide hq hs)⟩
  | true =>
    cases ev with
    | fork =>
      obtain ⟨a, hs⟩ := answer_some hs
      exact h.sysFork hs
    | exit code =>
      have he : k.closeCurrent.exit env code = some k' := silent_some hs
      have hside := closeCurrent_taskSide k
      exact (h.keep hside).exit (ReapsNoParent.keep hok hside) he
    | fault code => exact h.exit hok (silent_some hs)
    | kill pid sig =>
      obtain ⟨a, hs⟩ := answer_some hs
      exact h.sysKill hok hs
    | wait pid old =>
      simp only [Kernel.step] at hs
      obtain ⟨a, hs⟩ := answer_some hs
      exact h.waitPass hok hs
    | spawn path =>
      simp only [Kernel.step] at hs
      obtain ⟨a, hs⟩ := answer_some hs
      exact h.spawn hs
    | schedule old =>
      simp only [Kernel.step] at hs
      obtain ⟨a, hs⟩ := answer_some hs
      exact ⟨_, h.schedule hok hs⟩
    | _ => cases hq

/-- In every run that orphans nobody the parent of a listed task is the kernel task or listed. -/
theorem parents_alive (h : Reached orphansNobody k) : ∃ l, TaskList k l ∧ ParentsAlive k l := by
  have hk : ∃ l, Kin k l := by
    refine h.invariant (I := fun k => ∃ l, Kin k l) ⟨[], boot_kin⟩ ?_
    intro k k' env ev r hi hok hs
    obtain ⟨l, hl⟩ := hi
    exact hl.step hok hs
  obtain ⟨l, hl⟩ := hk
  exact ⟨l, hl.toTaskList, hl.alive⟩

def freshEnv : Env :=
  { quietEnv with malloc := fun n => some (n + 1) }

def pipeRun : List (Env × Event) :=
  [(freshEnv, .spawn []), (freshEnv, .schedule 0), (freshEnv, .pipe)]

instance (k : Kernel) : Decidable k.ReapsNoParent :=
  inferInstanceAs (Decidable (∀ u ∈ k.tasks.used, ∀ q ∈ (k.task u).parent,
    k.survives q = false → k.survives u = false))

def reapsOrphanless (_ : Env) (k : Kernel) : Event → Bool
  | .exit _ | .fault _ | .schedule _ => decide k.ReapsNoParent
  | .spawn _ | .fork => true
  | _ => false

/-- The program `2` forks `5` and `8`, and `8` forks `11`. Then `11` exits and is reaped, and after it
`8`. -/
def forksRun : List (Env × Event) :=
  [(freshEnv, .spawn []), (freshEnv, .schedule 0), (freshEnv, .fork), (freshEnv, .fork),
    (freshEnv, .schedule 0), (freshEnv, .schedule 0), (freshEnv, .fork), (freshEnv, .schedule 0),
    (freshEnv, .exit 0), (freshEnv, .schedule 0), (freshEnv, .schedule 0), (freshEnv, .exit 0),
    (freshEnv, .schedule 0)]

theorem parents_alive_forks : ∃ k, boot.runChecked reapsOrphanless forksRun = some k ∧
    k.tasks.used = {0, 2, 5} ∧ ∃ l, TaskList k l ∧ ParentsAlive k l := by
  have hrun : (boot.runChecked reapsOrphanless forksRun).any (fun k => k.tasks.used = {0, 2, 5}) =
    true := by decide +kernel
  obtain ⟨k, hk, hused⟩ := any_exists hrun
  refine ⟨k, hk, of_decide_eq_true hused, parents_alive (Reached.boot.runChecked ?_ hk)⟩
  intro env q ev h
  cases ev with
  | exit | fault | schedule => exact (of_decide_eq_true h : q.ReapsNoParent)
  | spawn | fork => trivial
  | _ => cases h

def orphanRun : List (Env × Event) :=
  [(freshEnv, .spawn []), (freshEnv, .schedule 0), (freshEnv, .fork), (freshEnv, .fault 1),
    (freshEnv, .schedule 0)]

/-- The child is listed alone and its parent is not in use any more. -/
theorem orphanRun_end : ∃ k, boot.runAll orphanRun = some k ∧ k.head = some 5 ∧
    (k.task 5).next = none ∧ (k.task 5).parent = some 2 := by
  have hrun : (boot.runAll orphanRun).any (fun k => k.head = some 5 ∧ (k.task 5).next = none ∧
      (k.task 5).parent = some 2) = true := by decide +kernel
  obtain ⟨k, hk, h⟩ := any_exists hrun
  exact ⟨k, hk, of_decide_eq_true h⟩

theorem orphan_parent_freed : ¬ ∀ k, Reached (fun _ _ ev => ev.lifecycle = true) k →
    ∃ l, TaskList k l ∧ ParentsAlive k l := by
  intro hall
  obtain ⟨k, hrun, hhead, hnext, hparent⟩ := orphanRun_end
  have hreach : Reached (fun _ _ ev => ev.lifecycle = true) k := by
    refine Reached.boot.runAll (fun q s hs => ?_) hrun
    revert s
    decide
  obtain ⟨l, hl, halive⟩ := hall k hreach
  have hfive : Chain k.nexts k.head [5] none := ⟨hhead, hnext⟩
  rw [hl.chain.unique hfive] at halive
  cases halive 5 List.mem_cons_self 2 hparent with
  | inl h0 => cases h0
  | inr hm => simp at hm

end runs

end LosTacOS.Os.Kernel
