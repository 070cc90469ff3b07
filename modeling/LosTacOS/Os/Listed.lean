import LosTacOS.Os.Schedule

/-! The invariant of tasks and processes: the tasks in use are the kernel task and those of the
list, each with a process of its own that is in use, and only the current task runs. -/
namespace LosTacOS.Os

structure TaskSide where
  tasks : Arena Task
  procs : Finset Nat
  head : Option Nat
  tail : Option Nat
  current : Nat

namespace Kernel

variable {env : Env} {k k' k1 : Kernel} {l : List Nat} {t p : Nat}

@[simp] theorem setTask_procs (k : Kernel) (t : Nat) (x : Task) :
    (k.setTask t x).procs = k.procs := rfl

@[simp] theorem setTask_current (k : Kernel) (t : Nat) (x : Task) :
    (k.setTask t x).current = k.current := rfl

@[simp] theorem setTask_head (k : Kernel) (t : Nat) (x : Task) :
    (k.setTask t x).head = k.head := rfl

@[simp] theorem setTask_used (k : Kernel) (t : Nat) (x : Task) :
    (k.setTask t x).tasks.used = k.tasks.used := rfl

def taskSide (k : Kernel) : TaskSide := ⟨k.tasks, k.procs.used, k.head, k.tail, k.current⟩

structure Listed (k : Kernel) (l : List Nat) : Prop extends TaskList k l where
  used : ∀ t, t ∈ k.tasks.used ↔ t = 0 ∨ t ∈ l
  idleProc : (k.task 0).process = some 0
  idleUsed : 0 ∈ k.procs.used
  owns : ∀ t ∈ l, ∃ p ∈ k.procs.used, p ≠ 0 ∧ (k.task t).process = some p
  distinct : ∀ t ∈ l, ∀ u ∈ l, (k.task t).process = (k.task u).process → t = u
  running : ∀ t ∈ l, (k.task t).state = .running → t = k.current

theorem boot_listed : Listed boot [] where
  chain := rfl
  nodup := List.nodup_nil
  tail := rfl
  idle := List.not_mem_nil
  idleNext := rfl
  current := Or.inl rfl
  used t := by simp [boot]
  idleProc := rfl
  idleUsed := by simp [boot]
  owns := nofun
  distinct := nofun
  running := nofun

theorem taskSide_of_procSide (h : k'.procSide = k.procSide) : k'.taskSide = k.taskSide := by
  have htasks : k'.tasks = k.tasks := congrArg ProcSide.tasks h
  have hprocs : k'.procs = k.procs := congrArg ProcSide.procs h
  have hhead : k'.head = k.head := congrArg ProcSide.head h
  have htail : k'.tail = k.tail := congrArg ProcSide.tail h
  have hcur : k'.current = k.current := congrArg ProcSide.current h
  simp only [taskSide, htasks, hprocs, hhead, htail, hcur]

theorem tasks_of_taskSide (h : k'.taskSide = k.taskSide) : k'.tasks = k.tasks :=
  congrArg TaskSide.tasks h

theorem procs_of_taskSide (h : k'.taskSide = k.taskSide) : k'.procs.used = k.procs.used :=
  congrArg TaskSide.procs h

theorem current_of_taskSide (h : k'.taskSide = k.taskSide) : k'.current = k.current :=
  congrArg TaskSide.current h

theorem head_of_taskSide (h : k'.taskSide = k.taskSide) : k'.head = k.head :=
  congrArg TaskSide.head h

theorem task_of_taskSide (h : k'.taskSide = k.taskSide) (u : Nat) : k'.task u = k.task u := by
  unfold task
  rw [tasks_of_taskSide h]

/-- The invariant reads the tasks and processes in use only. -/
theorem Listed.congr (hl : Listed k l) (htask : ∀ u, u = 0 ∨ u ∈ l → k'.task u = k.task u)
    (hused : k'.tasks.used = k.tasks.used) (hprocs : k'.procs.used = k.procs.used)
    (hhead : k'.head = k.head) (htail : k'.tail = k.tail) (hcur : k'.current = k.current) :
    Listed k' l := by
  have h0 := htask 0 (Or.inl rfl)
  have hm : ∀ u ∈ l, k'.task u = k.task u := fun u hu => htask u (Or.inr hu)
  constructor
  · constructor
    · rw [hhead]
      exact hl.chain.congr fun u hu => congrArg Task.next (hm u hu)
    · exact hl.nodup
    · rw [htail]
      exact hl.tail
    · exact hl.idle
    · rw [h0]
      exact hl.idleNext
    · rw [hcur]
      exact hl.current
  · rw [hused]
    exact hl.used
  · rw [h0]
    exact hl.idleProc
  · rw [hprocs]
    exact hl.idleUsed
  · intro u hu
    rw [hprocs, hm u hu]
    exact hl.owns u hu
  · intro u hu v hv
    rw [hm u hu, hm v hv]
    exact hl.distinct u hu v hv
  · intro u hu
    rw [hm u hu, hcur]
    exact hl.running u hu

theorem Listed.keep (hl : Listed k l) (h : k'.taskSide = k.taskSide) : Listed k' l := by
  exact hl.congr (fun u _ => task_of_taskSide h u) (congrArg Arena.used (tasks_of_taskSide h))
    (procs_of_taskSide h) (head_of_taskSide h) (congrArg TaskSide.tail h) (current_of_taskSide h)

theorem Listed.process (hl : Listed k l) (ht : t = 0 ∨ t ∈ l) :
    ∃ p ∈ k.procs.used, (k.task t).process = some p := by
  cases ht with
  | inl hz =>
    rw [hz]
    exact ⟨0, hl.idleUsed, hl.idleProc⟩
  | inr hm =>
    obtain ⟨p, hp, _, hproc⟩ := hl.owns t hm
    exact ⟨p, hp, hproc⟩

theorem Listed.currentProc (hl : Listed k l) : ∃ p ∈ k.procs.used, k.currentProc = some p :=
  hl.process hl.current

theorem Listed.currentProc_used (hl : Listed k l) (h : k.currentProc = some p) :
    p ∈ k.procs.used := by
  obtain ⟨q, hq, hproc⟩ := hl.currentProc
  rw [← Option.some.inj (hproc.symm.trans h)]
  exact hq

/-- A change to a task that leaves its place and its process. -/
theorem Listed.setTask {x : Task} (hl : Listed k l) (hn : x.next = (k.task t).next)
    (hp : x.process = (k.task t).process) (hs : x.state = .running → t = k.current) :
    Listed (k.setTask t x) l := by
  have htask : ∀ u, (k.setTask t x).task u = if u = t then x else k.task u := fun u =>
    Arena.set_cell ..
  have hnexts : (k.setTask t x).nexts = k.nexts := by
    funext u
    simp only [nexts, htask]
    split
    · rename_i hu
      rw [hn, hu]
    · rfl
  have hproc : ∀ u, ((k.setTask t x).task u).process = (k.task u).process := by
    intro u
    rw [htask]
    split
    · rename_i hu
      rw [hp, hu]
    · rfl
  have hidle : (k.setTask t x).nexts 0 = none := by
    rw [hnexts]
    exact hl.idleNext
  refine ⟨⟨?_, hl.nodup, hl.tail, hl.idle, hidle, hl.current⟩, hl.used, ?_, hl.idleUsed, ?_, ?_, ?_⟩
  · rw [hnexts]
    exact hl.chain
  · rw [hproc]
    exact hl.idleProc
  · intro u hu
    rw [hproc]
    exact hl.owns u hu
  · intro u hu v hv
    rw [hproc, hproc]
    exact hl.distinct u hu v hv
  · intro u hu
    rw [htask]
    split
    · rename_i hut
      intro hr
      rw [hut]
      exact hs hr
    · exact hl.running u hu

theorem Listed.destroy (hl : Listed k l) (ht : t ∈ l) (hc : t ≠ k.current)
    (hd : k.removeAndDestroy env t = some k') : Listed k' (l.erase t) ∧ Destroyed k l t k' := by
  obtain ⟨hlist, hdes⟩ := hl.toTaskList.destroy ht hc hd
  obtain ⟨p, hp, hp0, hproc⟩ := hl.owns t ht
  have hprocs : k'.procs = k.procs.free p := by
    rw [hdes.procs, hproc]
    rfl
  have hsub : ∀ u ∈ l.erase t, u ∈ l ∧ u ≠ t := by
    intro u hu
    exact ⟨List.mem_of_mem_erase hu, fun he => hl.nodup.not_mem_erase (he ▸ hu)⟩
  refine ⟨⟨hlist, ?_, ?_, ?_, ?_, ?_, ?_⟩, hdes⟩
  · intro u
    rw [hdes.used, Finset.mem_erase, hl.used]
    by_cases hut : u = t
    · have h0 : t ≠ 0 := fun h0 => hl.idle (h0 ▸ ht)
      simp [hut, h0, hl.nodup.not_mem_erase]
    · simp [hut, List.mem_erase_of_ne hut]
  · rw [process_of_body (hdes.body 0)]
    exact hl.idleProc
  · rw [hprocs, Arena.free_used, Finset.mem_erase]
    exact ⟨hp0.symm, hl.idleUsed⟩
  · intro u hu
    obtain ⟨hul, hut⟩ := hsub u hu
    obtain ⟨q, hq, hq0, hqp⟩ := hl.owns u hul
    refine ⟨q, ?_, hq0, ?_⟩
    · rw [hprocs, Arena.free_used, Finset.mem_erase]
      refine ⟨fun hqp' => hut (hl.distinct u hul t ht ?_), hq⟩
      rw [hqp, hproc, hqp']
    · rw [process_of_body (hdes.body u)]
      exact hqp
  · intro u hu v hv
    rw [process_of_body (hdes.body u), process_of_body (hdes.body v)]
    exact hl.distinct u (hsub u hu).1 v (hsub v hv).1
  · intro u hu
    rw [state_of_body (hdes.body u), hdes.current]
    exact hl.running u (hsub u hu).1

/-- `reap` with an invariant of its own. -/
theorem Listed.reap {I : List Nat → Kernel → Prop}
    (hI : ∀ {k l t k'}, Listed k l → I l k → t ∈ l → t ≠ k.current → (k.task t).state = .dead →
      k.removeAndDestroy env t = some k' → I (l.erase t) k')
    (hl : Listed k l) (hi : I l k) (hr : k.reap env = some k') :
    Listed k' (l.filter k.survives) ∧ I (l.filter k.survives) k' := by
  have hboth := hl.toTaskList.reap (I := fun m q => Listed q m ∧ I m q) ?_ ⟨hl, hi⟩ hr
  · exact hboth.2
  · intro q m u q' _ hq hu hc hs hd
    exact ⟨(hq.1.destroy hu hc hd).1, hI hq.1 hq.2 hu hc hs hd⟩

section schedule

theorem seek_closed {q : Task → Bool} {h start n x : Nat} {S : Nat → Prop}
    (hS : ∀ u, S u → S (k.ringNext h u)) (hstart : S start) (ht : S t)
    (hx : k.seek q h start n t = some x) : S x := by
  induction n generalizing t with
  | zero => cases hx
  | succ n ih =>
    unfold seek at hx
    split at hx
    · cases hx
      exact ht
    · split at hx
      · cases hx
        exact hstart
      · exact ih (hS t ht) hx

theorem TaskList.ringNext_mem {h : Nat} (hl : TaskList k l) (hh : k.head = some h)
    (ht : t = 0 ∨ t ∈ l) : k.ringNext h t ∈ l := by
  have hhead : h ∈ l := by
    obtain ⟨rest, rfl⟩ := hl.queued.head_eq hh
    exact List.mem_cons_self
  cases ht with
  | inl hz =>
    rw [hz, ringNext, hl.idleNext]
    exact hhead
  | inr hm =>
    cases hl.chain.next_mem hm with
    | inl hn =>
      have hn' : (k.task t).next = none := hn
      rw [ringNext, hn']
      exact hhead
    | inr hn =>
      obtain ⟨y, hy, hn⟩ := hn
      have hn' : (k.task t).next = some y := hn
      rw [ringNext, hn']
      exact hy

/-- The outcomes of `schedule`. -/
theorem TaskList.schedule_cases {old regs : Nat} (hl : TaskList k l)
    (hs : k.schedule env old = some (regs, k')) : ∃ k1, k.reap env = some k1 ∧
      (k' = k1.suspend old ∨ ∃ x ∈ l.filter k.survives, k' = (k1.suspend old).run x) := by
  simp only [Kernel.schedule, Option.bind_eq_bind, Option.bind_eq_some_iff] at hs
  obtain ⟨k1, hr, hs⟩ := hs
  refine ⟨k1, hr, ?_⟩
  have hl1 := (hl.reaped hr).1.suspend old
  cases hh : (k1.suspend old).head with
  | none =>
    rw [hh] at hs
    cases hs
    exact Or.inl rfl
  | some h =>
    rw [hh] at hs
    simp only [Kernel.pick, Option.bind_eq_bind, Option.bind_eq_some_iff] at hs
    obtain ⟨x, hx, hs⟩ := hs
    have hclosed : ∀ u, u ∈ l.filter k.survives →
        (k1.suspend old).ringNext h u ∈ l.filter k.survives := fun u hu =>
      hl1.ringNext_mem hh (Or.inr hu)
    have hstart := hl1.ringNext_mem hh hl1.current
    split at hs
    · cases hs
      exact Or.inr ⟨x, seek_closed hclosed hstart hstart hx, rfl⟩
    · obtain ⟨y, hy, hs⟩ := Option.bind_eq_some_iff.mp hs
      obtain ⟨rest, hrest⟩ := hl1.queued.head_eq hh
      have hhead : h ∈ l.filter k.survives := by
        rw [hrest]
        exact List.mem_cons_self
      split at hs
      · cases hs
        exact Or.inr ⟨y, seek_closed hclosed hhead hhead hy, rfl⟩
      · cases hs
        exact Or.inl rfl

theorem Listed.suspend (hl : Listed k l) (old : Nat) :
    Listed (k.suspend old) l ∧ ∀ u ∈ l, ((k.suspend old).task u).state ≠ .running := by
  refine ⟨hl.setTask rfl rfl fun _ => rfl, fun u hu => ?_⟩
  rw [suspend_task]
  split
  · dsimp only
    split
    · simp
    · assumption
  · rename_i hc
    exact fun hr => hc (hl.running u hu hr)

theorem Listed.run (hl : Listed k l) (hr : ∀ u ∈ l, (k.task u).state ≠ .running) (ht : t ∈ l) :
    Listed (k.run t) l := by
  have hproc : ∀ u, ((k.run t).task u).process = (k.task u).process := by
    intro u
    rw [run_task]
    split
    · rfl
    · rfl
  refine ⟨hl.toTaskList.run ht, hl.used, ?_, hl.idleUsed, ?_, ?_, ?_⟩
  · rw [hproc]
    exact hl.idleProc
  · intro u hu
    rw [hproc]
    exact hl.owns u hu
  · intro u hu v hv
    rw [hproc, hproc]
    exact hl.distinct u hu v hv
  · intro u hu hs
    rw [run_task] at hs
    split at hs
    · rename_i hut
      exact hut
    · exact absurd hs (hr u hu)

theorem Listed.schedule {old regs : Nat} (hl : Listed k l)
    (hs : k.schedule env old = some (regs, k')) : Listed k' (l.filter k.survives) := by
  obtain ⟨k1, hr, hk'⟩ := hl.toTaskList.schedule_cases hs
  have hl1 := (hl.reap (I := fun _ _ => True) (fun _ _ _ _ _ _ => trivial) trivial hr).1
  obtain ⟨hl2, hrun⟩ := hl1.suspend old
  cases hk' with
  | inl hk' =>
    rw [hk']
    exact hl2
  | inr hk' =>
    obtain ⟨x, hx, hk'⟩ := hk'
    rw [hk']
    exact hl2.run hrun hx

theorem leave_current (k : Kernel) (code : Int) : (k.leave code).current = k.current := by
  unfold leave
  dsimp only
  split
  · split
    · rfl
    · rfl
  · rfl

theorem Listed.leave (hl : Listed k l) (code : Int) : Listed (k.leave code) l := by
  have h1 : Listed (k.setTask k.current
      { k.task k.current with exitCode := code, state := .dead }) l := hl.setTask rfl rfl nofun
  unfold Kernel.leave
  dsimp only
  split
  · split
    · exact h1.setTask rfl rfl nofun
    · exact h1
  · exact h1

theorem Listed.exit {code : Int} (hl : Listed k l) (he : k.exit env code = some k') :
    Listed k' (l.filter (k.leave code).survives) := by
  obtain ⟨⟨regs, k1⟩, hs, hk⟩ := Option.bind_eq_some_iff.mp he
  cases hk
  exact (hl.leave code).schedule hs

end schedule

section create

theorem Listed.allocProc {x : Process} (hl : Listed k l) (hp : p ∉ k.procs.used) :
    Listed { k with procs := k.procs.alloc p x } l ∧ p ≠ 0 ∧
      ∀ u ∈ l, (k.task u).process ≠ some p := by
  refine ⟨⟨⟨hl.chain, hl.nodup, hl.tail, hl.idle, hl.idleNext, hl.current⟩, hl.used, hl.idleProc,
    Finset.mem_insert_of_mem hl.idleUsed, ?_, hl.distinct, hl.running⟩, ?_, ?_⟩
  · intro u hu
    obtain ⟨q, hq, h⟩ := hl.owns u hu
    exact ⟨q, Finset.mem_insert_of_mem hq, h⟩
  · intro h0
    rw [h0] at hp
    exact hp hl.idleUsed
  · intro u hu he
    obtain ⟨q, hq, _, hqp⟩ := hl.owns u hu
    rw [he] at hqp
    cases hqp
    exact hp hq

theorem Listed.freeProc (hl : Listed k l) (hp : p ≠ 0) (hno : ∀ u ∈ l, (k.task u).process ≠ some p) :
    Listed { k with procs := k.procs.free p } l := by
  refine ⟨⟨hl.chain, hl.nodup, hl.tail, hl.idle, hl.idleNext, hl.current⟩, hl.used, hl.idleProc,
    Finset.mem_erase.mpr ⟨hp.symm, hl.idleUsed⟩, ?_, hl.distinct, hl.running⟩
  intro u hu
  obtain ⟨q, hq, h⟩ := hl.owns u hu
  refine ⟨q, Finset.mem_erase.mpr ⟨fun he => hno u hu ?_, hq⟩, h⟩
  rw [h.2, he]

/-- `add` puts a task behind the others; the links of tasks outside the list stay. -/
theorem Queued.add (hl : Queued k l) (ht : t ∉ l) (hk : k.add t = some k') :
    Queued k' (l ++ [t]) ∧ Relinked k k' ∧
      k'.current = k.current ∧ ∀ u, u ∉ l → u ≠ t → k'.nexts u = k.nexts u := by
  have hr1 := setNext_relinked k t none
  have hn1 := nexts_setNext k t none
  have hchain1 : Chain (k.setNext t none).nexts k.head l none := by
    rw [hn1]
    exact hl.chain.update ht none
  have hd : (l ++ [t]).Nodup := List.nodup_append.mpr ⟨hl.nodup, List.nodup_singleton t, by
    intro a ha b hb
    rw [List.mem_singleton.mp hb]
    exact fun he => ht (he ▸ ha)⟩
  unfold Kernel.add at hk
  have hset : k.setTask t { k.task t with next := none } = k.setNext t none := rfl
  rw [hset] at hk
  dsimp only at hk
  cases List.eq_nil_or_concat l with
  | inl hnil =>
    subst hnil
    have hhead : (k.setNext t none).head = none := hl.chain
    rw [hhead] at hk
    cases hk
    refine ⟨⟨⟨rfl, ?_⟩, hd, rfl⟩, ⟨⟨_, _, _, rfl⟩, rfl, hr1.body⟩, rfl, fun u _ hu => ?_⟩
    · change (k.setNext t none).nexts t = none
      rw [hn1, Function.update_self]
    · change (k.setNext t none).nexts u = k.nexts u
      rw [hn1, Function.update_of_ne hu]
  | inr hcons =>
    obtain ⟨l', z, rfl⟩ := hcons
    rw [List.concat_eq_append] at *
    have htail : (k.setNext t none).tail = some z := hl.tail.trans (by simp)
    obtain ⟨y, hhead⟩ : ∃ y, (k.setNext t none).head = some y := by
      have hc := hl.chain
      cases l' with
      | nil => exact ⟨z, hc.1⟩
      | cons y l' => exact ⟨y, hc.1⟩
    rw [hhead, htail] at hk
    cases hk
    have hpush := hchain1.push ht (by rw [hn1, Function.update_self]) hl.nodup
    rw [← nexts_setNext] at hpush
    have hr2 := hr1.trans (setNext_relinked (k.setNext t none) z (some t))
    refine ⟨⟨hpush, hd, by simp⟩, ⟨⟨_, _, _, rfl⟩, rfl, hr2.body⟩, rfl, fun u hu hut => ?_⟩
    have huz : u ≠ z := fun he => hu (by simp [he])
    change ((k.setNext t none).setNext z (some t)).nexts u = k.nexts u
    rw [nexts_setNext, Function.update_of_ne huz, hn1, Function.update_of_ne hut]

theorem TaskList.add (hl : TaskList k l) (ht : t ∉ l) (h0 : t ≠ 0) (hk : k.add t = some k') :
    TaskList k' (l ++ [t]) ∧ Relinked k k' := by
  obtain ⟨hq, hrel, hcur, hout⟩ := hl.queued.add ht hk
  have hzero : 0 ∉ l ++ [t] := by
    simp only [List.mem_append, List.mem_singleton, not_or]
    exact ⟨hl.idle, h0.symm⟩
  have hidle : k'.nexts 0 = none := (hout 0 hl.idle h0.symm).trans hl.idleNext
  refine ⟨⟨hq.chain, hq.nodup, hq.tail, hzero, hidle, ?_⟩, hrel⟩
  rw [hcur]
  exact hl.current.imp_right (List.mem_append_left [t])

theorem Listed.enlist {x : Task} (hl : Listed k l) (ht : t ∉ k.tasks.used)
    (hx : x.process = some p) (hs : x.state ≠ .running) (hp : p ∈ k.procs.used) (hp0 : p ≠ 0)
    (hno : ∀ u ∈ l, (k.task u).process ≠ some p)
    (hk : { k with tasks := k.tasks.alloc t x }.add t = some k') :
    Listed k' (l ++ [t]) ∧ Relinked { k with tasks := k.tasks.alloc t x } k' := by
  have ht0 : t ≠ 0 := fun he => ht ((hl.used t).mpr (Or.inl he))
  have htl : t ∉ l := fun hm => ht ((hl.used t).mpr (Or.inr hm))
  have htask : ∀ u, { k with tasks := k.tasks.alloc t x }.task u = if u = t then x else k.task u :=
    fun u => Arena.alloc_cell ..
  have hne : ∀ u ∈ l, u ≠ t := fun u hu he => htl (he ▸ hu)
  have hother : ∀ u ∈ l, { k with tasks := k.tasks.alloc t x }.task u = k.task u := by
    intro u hu
    rw [htask, if_neg (hne u hu)]
  have hzero : { k with tasks := k.tasks.alloc t x }.task 0 = k.task 0 := by
    rw [htask, if_neg ht0.symm]
  have hlist : TaskList { k with tasks := k.tasks.alloc t x } l := by
    refine ⟨hl.chain.congr fun u hu => congrArg Task.next (hother u hu), hl.nodup, hl.tail,
      hl.idle, ?_, hl.current⟩
    rw [hzero]
    exact hl.idleNext
  obtain ⟨hlist', hrel⟩ := hlist.add htl ht0 hk
  have hbody : ∀ u, (k'.task u).body = (if u = t then x else k.task u).body := by
    intro u
    rw [hrel.body, htask]
  have hbodyl : ∀ u ∈ l, (k'.task u).body = (k.task u).body := by
    intro u hu
    rw [hbody, if_neg (hne u hu)]
  have hbodyt : (k'.task t).body = x.body := by rw [hbody, if_pos rfl]
  obtain ⟨_, _, _, hrest⟩ := hrel.rest
  have hprocs : k'.procs = k.procs := by rw [hrest]
  have hcur : k'.current = k.current := by rw [hrest]
  have hin : ∀ u, u ∈ l ++ [t] ↔ u ∈ l ∨ u = t := fun u => by simp
  refine ⟨⟨hlist', ?_, ?_, ?_, ?_, ?_, ?_⟩, hrel⟩
  · intro u
    rw [hrel.used, Arena.alloc_used, Finset.mem_insert, hl.used, hin]
    tauto
  · rw [process_of_body (hrel.body 0), hzero]
    exact hl.idleProc
  · rw [hprocs]
    exact hl.idleUsed
  · intro u hu
    rw [hprocs]
    cases (hin u).mp hu with
    | inl hu =>
      rw [process_of_body (hbodyl u hu)]
      exact hl.owns u hu
    | inr hu =>
      rw [hu, process_of_body hbodyt]
      exact ⟨p, hp, hp0, hx⟩
  · intro u hu v hv
    cases (hin u).mp hu with
    | inl hu =>
      cases (hin v).mp hv with
      | inl hv =>
        rw [process_of_body (hbodyl u hu), process_of_body (hbodyl v hv)]
        exact hl.distinct u hu v hv
      | inr hv =>
        rw [hv, process_of_body (hbodyl u hu), process_of_body hbodyt, hx]
        exact fun he => absurd he (hno u hu)
    | inr hu =>
      cases (hin v).mp hv with
      | inl hv =>
        rw [hu, process_of_body (hbodyl v hv), process_of_body hbodyt, hx]
        exact fun he => absurd he.symm (hno v hv)
      | inr hv =>
        rw [hu, hv]
        exact fun _ => rfl
  · intro u hu
    rw [hcur]
    cases (hin u).mp hu with
    | inl hu =>
      rw [state_of_body (hbodyl u hu)]
      exact hl.running u hu
    | inr hu =>
      rw [hu, state_of_body hbodyt]
      exact fun hr => absurd hr hs

end create

end Kernel

end LosTacOS.Os
