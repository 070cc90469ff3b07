import LosTacOS.Os.Parents

/-! What the scheduler goes on with once the current task is dead. The kernel's own task is not in
the list, so the search for a task that is not dead may find none. -/
namespace LosTacOS.Os.Kernel

variable {env : Env} {k k1 : Kernel} {l : List Nat} {t : Nat}

def Resumes (r : Option (Nat × Kernel)) : Prop :=
  ∃ regs k', r = some (regs, k') ∧ regs = (k'.task k'.current).regs ∧
    (k'.task k'.current).state ≠ .dead

section choice

/-- A task is chosen as long as one of the list is not dead. -/
theorem choice_alive (h : ∃ t ∈ l, (k.task t).state ≠ .dead) : ∃ x, k.choice l = some x := by
  obtain ⟨t, ht, hs⟩ := h
  unfold choice
  split
  · rename_i x hx
    exact ⟨x, rfl⟩
  · cases hf : l.find? fun t => (k.task t).state ≠ .dead with
    | some x => exact ⟨x, rfl⟩
    | none =>
      have hnone := List.find?_eq_none.mp hf t ht
      rw [decide_eq_true_iff] at hnone
      exact absurd hs hnone

theorem choice_none (hd : l.Nodup) (h : ∀ t ∈ l, (k.task t).state = .dead) :
    k.choice l = none := by
  have hready : ∀ t ∈ ring l k.current, ¬ k.ready t = true := by
    intro t ht hr
    have hdead := h t ((ring_perm hd).mem_iff.mp ht)
    simp [ready, hdead] at hr
  unfold choice
  rw [List.find?_eq_none.mpr hready]
  refine List.find?_eq_none.mpr fun t ht => ?_
  rw [decide_eq_true_iff]
  exact fun hne => hne (h t ht)

end choice

section schedule

/-- The registers that come back are always those of the task that is current then. -/
theorem resume_regs (k : Kernel) (old : Nat) (c : Option Nat) :
    ((k.suspend old).resume old c).1 = (((k.suspend old).resume old c).2.task
      ((k.suspend old).resume old c).2.current).regs := by
  cases c with
  | some x =>
    change ((k.suspend old).task x).regs = (((k.suspend old).run x).task x).regs
    rw [run_task, if_pos rfl]
  | none =>
    change old = ((k.suspend old).task k.current).regs
    rw [suspend_task, if_pos rfl]

theorem Resumes.reapsBack {old : Nat} (h : Resumes (k.schedule env old)) (hl : TaskList k l) :
    ReapsBack env k l := by
  obtain ⟨regs, k', hs, -, -⟩ := h
  obtain ⟨k1, hr, -⟩ := hl.schedule_cases hs
  exact hl.queued.reapsBack hr

/-- `schedule` that comes back goes on with a task that is not dead, if the list has one or the old
one is. -/
theorem TaskList.resumes_back_iff (hl : TaskList k l) (hf : l.length ≤ env.fuel)
    (hback : ReapsBack env k l) (old : Nat) : Resumes (k.schedule env old) ↔
      (∃ t ∈ l, (k.task t).state ≠ .dead) ∨ (k.task k.current).state ≠ .dead := by
  obtain ⟨k1, hl1, hreap, hs⟩ := hl.schedule hf hback old
  have hstate : Resumes (k.schedule env old) ↔
      (((k1.suspend old).resume old (k.choice (l.filter k.survives))).2.task
        ((k1.suspend old).resume old (k.choice (l.filter k.survives))).2.current).state ≠ .dead := by
    rw [hs]
    constructor
    · rintro ⟨regs, k', he, -, hd⟩
      rw [← (Prod.mk.inj (Option.some.inj he)).2] at hd
      exact hd
    · exact fun hd => ⟨_, _, rfl, resume_regs k1 old _, hd⟩
  rw [hstate]
  by_cases halive : ∃ t ∈ l, (k.task t).state ≠ .dead
  · have halive' : ∃ t ∈ l.filter k.survives, (k.task t).state ≠ .dead := by
      obtain ⟨t, ht, hne⟩ := halive
      exact ⟨t, List.mem_filter.mpr ⟨ht, by simp [survives, hne]⟩, hne⟩
    obtain ⟨x, hx⟩ := choice_alive halive'
    rw [hx]
    refine ⟨fun _ => Or.inl halive, fun _ => ?_⟩
    have hst := hreap.resume_state old x x
    rw [if_pos rfl] at hst
    change ((((k1.suspend old).resume old (some x)).2).task x).state ≠ .dead
    rw [hst]
    exact TaskState.noConfusion
  · have hdead : ∀ t ∈ l.filter k.survives, (k.task t).state = .dead := by
      intro t ht
      by_contra hne
      exact halive ⟨t, List.mem_of_mem_filter ht, hne⟩
    rw [choice_none hl1.nodup hdead]
    change ((k1.suspend old).task k1.current).state ≠ .dead ↔ _
    rw [ne_eq, suspend_dead, state_of_body (hreap.body _), hreap.current]
    exact ⟨Or.inr, fun h => h.resolve_left halive⟩

theorem TaskList.resumes_iff (hl : TaskList k l) (hf : l.length ≤ env.fuel) (old : Nat) :
    Resumes (k.schedule env old) ↔ ReapsBack env k l ∧
      ((∃ t ∈ l, (k.task t).state ≠ .dead) ∨ (k.task k.current).state ≠ .dead) := by
  constructor
  · intro h
    have hback := h.reapsBack hl
    exact ⟨hback, (hl.resumes_back_iff hf hback old).mp h⟩
  · rintro ⟨hback, h⟩
    exact (hl.resumes_back_iff hf hback old).mpr h

theorem TaskList.setTask {x : Task} (hl : TaskList k l) (hn : x.next = (k.task t).next) :
    TaskList (k.setTask t x) l := by
  have hnexts : (k.setTask t x).nexts = k.nexts := by
    funext u
    simp only [nexts, Kernel.setTask, task, Arena.set_cell]
    split
    · rename_i hu
      rw [hn, hu]
      rfl
    · rfl
  have hidle : (k.setTask t x).nexts 0 = none := by
    rw [hnexts]
    exact hl.idleNext
  refine ⟨?_, hl.nodup, hl.tail, hl.idle, hidle, hl.current⟩
  rw [hnexts]
  exact hl.chain

theorem TaskList.leave (hl : TaskList k l) (code : Int) : TaskList (k.leave code) l := by
  have h1 : TaskList (k.setTask k.current
      { k.task k.current with exitCode := code, state := .dead }) l := hl.setTask rfl
  unfold Kernel.leave
  dsimp only
  split
  · split
    · exact h1.setTask rfl
    · exact h1
  · exact h1

theorem leave_dead (k : Kernel) (code : Int) :
    ((k.leave code).task k.current).state = .dead := by
  have hset : ∀ (q : Kernel) (t v : Nat) (x : Task),
      (q.setTask t x).task v = if v = t then x else q.task v := fun q t v x => Arena.set_cell ..
  have hbase : ((k.setTask k.current
      { k.task k.current with exitCode := code, state := .dead }).task k.current).state = .dead := by
    rw [hset, if_pos rfl]
  unfold leave
  dsimp only
  generalize k.setTask k.current { k.task k.current with exitCode := code, state := .dead } = q
    at hbase
  split
  · split
    · rename_i p _ hb
      rw [hset]
      split
      · rename_i hp
        rw [← hp, hbase] at hb
        cases hb
      · exact hbase
    · exact hbase
  · exact hbase

theorem leave_dead_iff (k : Kernel) (code : Int) (ht : t ≠ k.current) :
    ((k.leave code).task t).state = .dead ↔ (k.task t).state = .dead := by
  obtain ⟨_, _, h, hs⟩ := leave_task k code t
  rw [h]
  exact hs ht

theorem leave_reapsBack_iff (k : Kernel) (code : Int) :
    ReapsBack env (k.leave code) l ↔ ReapsBack env k l := by
  refine forall₂_congr fun t _ => ?_
  rw [leave_current]
  constructor
  · exact fun h hd hc => h ((leave_dead_iff k code hc).mpr hd) hc
  · exact fun h hd hc => h ((leave_dead_iff k code hc).mp hd) hc

/-- `sched::exit` goes on with a task that is not dead, if it comes back from `kfree` and the list has
another one. -/
theorem TaskList.exit_resumes_iff (hl : TaskList k l) (hf : l.length ≤ env.fuel) (code : Int)
    (old : Nat) : Resumes ((k.leave code).schedule env old) ↔
      ReapsBack env k l ∧ ∃ t ∈ l, t ≠ k.current ∧ (k.task t).state ≠ .dead := by
  rw [(hl.leave code).resumes_iff hf old, leave_reapsBack_iff, leave_current, leave_dead]
  refine and_congr_right fun _ => ?_
  constructor
  · rintro (⟨t, ht, hs⟩ | hs)
    · have hne : t ≠ k.current := by
        rintro rfl
        exact hs (leave_dead k code)
      exact ⟨t, ht, hne, fun hd => hs ((leave_dead_iff k code hne).mpr hd)⟩
    · exact absurd rfl hs
  · rintro ⟨t, ht, hne, hs⟩
    exact Or.inl ⟨t, ht, fun hd => hs ((leave_dead_iff k code hne).mp hd)⟩

end schedule

/-- Exactly when `schedule` and `sched::exit` go on with a task that is not dead, for every list of
tasks and in every state that a run of the kernel reaches. -/
theorem schedule_resumes_iff (hl : TaskList k l) (hf : l.length ≤ env.fuel) :
    (∀ old, Resumes (k.schedule env old) ↔ ReapsBack env k l ∧
      ((∃ t ∈ l, (k.task t).state ≠ .dead) ∨ (k.task k.current).state ≠ .dead)) ∧
    (∀ code, Resumes ((k.leave code).schedule env ((k.leave code).task k.current).regs) ↔
      ReapsBack env k l ∧ ∃ t ∈ l, t ≠ k.current ∧ (k.task t).state ≠ .dead) ∧
    ∀ q, Reached (fun _ _ _ => True) q → ∃ m, TaskList q m ∧ ∀ env : Env, m.length ≤ env.fuel →
      (∀ old, Resumes (q.schedule env old) ↔ ReapsBack env q m ∧
        ((∃ t ∈ m, (q.task t).state ≠ .dead) ∨ (q.task q.current).state ≠ .dead)) ∧
      ∀ code, Resumes ((q.leave code).schedule env ((q.leave code).task q.current).regs) ↔
        ReapsBack env q m ∧ ∃ t ∈ m, t ≠ q.current ∧ (q.task t).state ≠ .dead := by
  refine ⟨fun old => hl.resumes_iff hf old, fun code => hl.exit_resumes_iff hf code _, ?_⟩
  intro q hq
  obtain ⟨m, hm⟩ := hq.listed
  refine ⟨m, hm.toTaskList, fun env hf => ⟨fun old => ?_, fun code => ?_⟩⟩
  · exact hm.toTaskList.resumes_iff hf old
  · exact hm.toTaskList.exit_resumes_iff hf code _

/-- With the dead task behind the other one, but not with the other behind it. -/
theorem schedule_resumes_iff_two_tasks :
    Resumes (deadLast.schedule (stackBehind deadLast) 7) ∧
      ¬ Resumes (twoTasks.schedule (stackBehind twoTasks) 7) := by
  have hlast := @schedule_resumes_iff (stackBehind deadLast) _ _ deadLast_list (by decide)
  have hfirst := @schedule_resumes_iff (stackBehind twoTasks) _ _ twoTasks_list (by decide)
  refine ⟨(hlast.1 7).mpr ⟨?_, Or.inl ⟨1, by decide, by decide⟩⟩, fun h => ?_⟩
  · intro t ht hdead _
    have ht2 : t = 1 ∨ t = 2 := by simpa using ht
    rcases ht2 with rfl | rfl
    · cases hdead
    · rfl
  · cases ((hfirst.1 7).mp h).1 1 (by decide) rfl (by decide)

def loneRun : List (Env × Event) := [(freshEnv, .spawn []), (freshEnv, .schedule 0)]

theorem loneRun_end : ∃ k, boot.runAll loneRun = some k ∧ k.current = 2 ∧ k.head = some 2 ∧
    (k.task 2).next = none := by
  have hrun : (boot.runAll loneRun).any (fun k => k.current = 2 ∧ k.head = some 2 ∧
      (k.task 2).next = none) = true := by decide +kernel
  obtain ⟨k, hk, h⟩ := any_exists hrun
  exact ⟨k, hk, of_decide_eq_true h⟩

/-- It goes on with its own registers after its exit. -/
theorem last_exit_resumes_dead : ¬ ∀ k, Reached (fun _ _ _ => True) k → ∀ code,
    Resumes ((k.leave code).schedule freshEnv ((k.leave code).task k.current).regs) := by
  intro hall
  obtain ⟨k, hrun, hcurrent, hhead, hnext⟩ := loneRun_end
  have hreach : Reached (fun _ _ _ => True) k := Reached.boot.runAll (fun _ _ _ => trivial) hrun
  obtain ⟨l, hl⟩ := hreach.listed
  have hchain : Chain k.nexts k.head [2] none := ⟨hhead, hnext⟩
  have hlone : l = [2] := hl.chain.unique hchain
  subst hlone
  have hfuel : [2].length ≤ freshEnv.fuel := by decide
  obtain ⟨-, t, ht, hne, -⟩ := (hl.toTaskList.exit_resumes_iff hfuel 0 _).mp (hall k hreach 0)
  rw [List.mem_singleton.mp ht, hcurrent] at hne
  exact hne rfl

end LosTacOS.Os.Kernel
