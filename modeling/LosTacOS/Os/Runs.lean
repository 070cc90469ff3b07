import LosTacOS.Os.FileCalls

/-! Every step of the kernel keeps the invariant of tasks and processes. -/
namespace LosTacOS.Os.Kernel

variable {env : Env} {k k' k1 : Kernel} {l : List Nat} {α : Type}

theorem Keeps.taskSide {x : Option (α × Kernel)} (h : Keeps procSide k x) :
    Keeps Kernel.taskSide k x := fun r k' he => taskSide_of_procSide (h r k' he)

section descriptors

theorem retain_taskSide (k : Kernel) (e : FdEntry) : (k.retain e).taskSide = k.taskSide := by
  obtain ⟨_, h⟩ := retain_rest k e
  rw [h]
  rfl

theorem sysPipe_taskSide (k : Kernel) : k.sysPipe.2.taskSide = k.taskSide := by
  unfold sysPipe
  split
  · rfl
  · split
    · rfl
    · dsimp only
      split
      · rfl
      · rfl

/-- `sys_close` clears the entry and tells a file system or a pipe. -/
theorem sysClose_rest (k : Kernel) (fd : Int) : (k.sysClose fd).2 = k ∨
    ∃ p i pipes pipeUsed fsLog, k.openFd fd = some (p, i) ∧
      (k.sysClose fd).2 = { k with pipes, pipeUsed, fsLog }.setEntry p i FdEntry.zero := by
  unfold sysClose
  split
  · exact Or.inl rfl
  · rename_i p i hfd
    refine Or.inr ?_
    dsimp only
    cases k.fsOf (k.entry p i) .close with
    | none =>
      dsimp only
      split
      · obtain ⟨pipes, pipeUsed, h⟩ := release_rest k (k.entry p i) (· = 0)
        exact ⟨p, i, pipes, pipeUsed, k.fsLog, hfd, by rw [h]⟩
      · exact ⟨p, i, k.pipes, k.pipeUsed, k.fsLog, hfd, rfl⟩
    | some x =>
      dsimp only
      split
      · obtain ⟨pipes, pipeUsed, h⟩ := release_rest (k.fsClose x.1 x.2) (k.entry p i) (· = 0)
        exact ⟨p, i, pipes, pipeUsed, _, hfd, by rw [h]; rfl⟩
      · exact ⟨p, i, k.pipes, k.pipeUsed, _, hfd, rfl⟩

theorem sysClose_taskSide (k : Kernel) (fd : Int) : (k.sysClose fd).2.taskSide = k.taskSide := by
  cases sysClose_rest k fd with
  | inl h => rw [h]
  | inr h =>
    obtain ⟨p, i, pipes, pipeUsed, fsLog, _, h⟩ := h
    rw [h]
    rfl

theorem dupFrom_taskSide (k : Kernel) (p : Nat) (i : Fin maxFds) (min : Int) :
    (k.dupFrom p i min).2.taskSide = k.taskSide := by
  unfold dupFrom
  split
  · split
    · rfl
    · rfl
  · rfl

theorem sysFcntl_taskSide (k : Kernel) (fd cmd : Int) (arg : UInt64) :
    (k.sysFcntl fd cmd arg).2.taskSide = k.taskSide := by
  unfold sysFcntl
  split
  · rfl
  · dsimp only
    split
    · exact dupFrom_taskSide ..
    · split
      · rfl
      · split
        · rfl
        · split
          · rfl
          · split
            · rfl
            · split
              · exact dupFrom_taskSide ..
              · rfl

theorem sysDup_taskSide (k : Kernel) (fd : Int) : (k.sysDup fd).2.taskSide = k.taskSide := by
  unfold sysDup
  split
  · rfl
  · split
    · rfl
    · exact retain_taskSide ..

theorem sysDup2_taskSide (k : Kernel) (old new : Int) :
    (k.sysDup2 old new).2.taskSide = k.taskSide := by
  unfold sysDup2
  split
  · exact retain_taskSide ..
  · rfl

end descriptors

section processes

theorem closeCurrent_taskSide (k : Kernel) : k.closeCurrent.taskSide = k.taskSide := by
  unfold closeCurrent
  split
  · exact sysCloseAll_taskSide ..
  · rfl

theorem findTask_mem {pid n : Nat} {a : Option Nat} {t : Nat} (hc : Chain k.nexts a l none)
    (h : k.findTask pid n a = some (some t)) : t ∈ l ∧ (k.task t).pid = pid := by
  induction l generalizing a n with
  | nil =>
    cases hc
    cases n with
    | zero => cases h
    | succ n => cases h
  | cons x l ih =>
    cases hc.1
    cases n with
    | zero => cases h
    | succ n =>
      unfold findTask at h
      split at h
      · rename_i hpid
        cases h
        exact ⟨List.mem_cons_self, hpid⟩
      · obtain ⟨hm, hpid⟩ := ih hc.2 h
        exact ⟨List.mem_cons_of_mem x hm, hpid⟩

theorem Listed.sysFork {r : Int} (hl : Listed k l) (h : k.sysFork env = some (r, k')) :
    ∃ l', Listed k' l' := by
  unfold Kernel.sysFork at h
  split at h
  · cases h
    exact ⟨l, hl⟩
  · rename_i p hp
    obtain ⟨⟨c, k1⟩, hc, h⟩ := Option.bind_eq_some_iff.mp h
    have hl0 : Listed (k.setProc p { k.proc p with mainThread := some k.current }) l := hl.keep rfl
    obtain ⟨l1, hl1⟩ := hl0.clone hc
    cases c with
    | none =>
      cases h
      exact ⟨l1, hl1⟩
    | some c =>
      cases h
      exact ⟨l1, hl1⟩

theorem Listed.killTaskTree {n t : Nat} (hl : Listed k l) (ht : t ∈ l)
    (h : Kernel.killTaskTree env n k t = some k') : ∃ l', Listed k' l' := by
  obtain ⟨l', hk, _⟩ := (Killing.start hl).tree (D := fun _ => True) (I := fun _ _ => True)
    (fun _ _ _ _ => trivial) (fun _ _ _ _ _ _ _ => trivial) trivial ht trivial h
  exact ⟨l', hk.listed⟩

theorem Listed.sysKill {pid : Nat} {sig r : Int} (hl : Listed k l)
    (h : k.sysKill env pid sig = some (r, k')) : ∃ l', Listed k' l' := by
  unfold Kernel.sysKill at h
  split at h
  · cases h
    exact ⟨l, hl⟩
  · split at h
    · obtain ⟨k1, he, h⟩ := Option.bind_eq_some_iff.mp h
      cases h
      exact ⟨_, hl.exit he⟩
    · obtain ⟨f, hf, h⟩ := Option.bind_eq_some_iff.mp h
      cases f with
      | none =>
        cases h
        exact ⟨l, hl⟩
      | some t =>
        obtain ⟨k1, ht, h⟩ := Option.bind_eq_some_iff.mp h
        cases h
        exact hl.killTaskTree (findTask_mem hl.chain hf).1 ht

theorem Listed.waitPass {pid old : Nat} {r : Bool} (hl : Listed k l)
    (h : k.waitPass env pid old = some (r, k')) : ∃ l', Listed k' l' := by
  obtain ⟨f, hf, h⟩ := Option.bind_eq_some_iff.mp h
  cases f with
  | none =>
    cases h
    exact ⟨l, hl⟩
  | some t =>
    dsimp only at h
    split at h
    · obtain ⟨k1, hd, h⟩ := Option.bind_eq_some_iff.mp h
      cases h
      by_cases hc : t = k.current
      · simp only [removeAndDestroy, if_pos hc, Option.some.injEq] at hd
        exact ⟨l, hd ▸ hl⟩
      · exact ⟨_, (hl.destroy (findTask_mem hl.chain hf).1 hc hd).1⟩
    · obtain ⟨⟨regs, k1⟩, hs, h⟩ := Option.bind_eq_some_iff.mp h
      cases h
      exact ⟨_, hl.schedule hs⟩

end processes

/-- The calls on the tree leave processes and pipes alone. -/
theorem step_procSide {ev : Event} {r : Reply} (hq : ev.onTree = true)
    (h : k.step env ev = some (r, k')) : k'.procSide = k.procSide := by
  refine (procSide_frame k.procSide).onTree rfl hq (fun _ _ _ _ => trivial) ?_ ?_ h
  · intro path r k' _ hu
    exact umount_procSide k path r k' hu
  · intro path r k' _ hr
    exact remove_procSide k path r k' hr

/-- What is left are the calls on files, of which a read and a write may reach a pipe. -/
theorem step_fileCall {ev : Event} {r : Reply} (hq : ev.lifecycle = false)
    (ht : ev.onTable = false) (h : k.step env ev = some (r, k')) :
    FileCall k k' ∨ ∃ j q, PipeCall k k' j q := by
  cases htree : ev.onTree with
  | true => exact Or.inl (.same (step_procSide htree h))
  | false =>
    cases ev with
    | «open» path flags =>
      obtain ⟨a, h⟩ := answer_some h
      exact Or.inl (sysOpen_calls k path flags a k' h)
    | write fd data =>
      obtain ⟨a, h⟩ := answer_some h
      cases hw : k.writeEnd fd with
      | none => exact Or.inl (sysWrite_calls data hw a k' h)
      | some j =>
        by_cases hd : data = []
        · rw [hd] at h
          cases h
          exact Or.inl (.same rfl)
        · rw [sysWrite_pipe hw hd] at h
          cases h
          exact Or.inr ⟨j, (pipeWrite (k.pipes j) data).2, rfl, rfl, rfl⟩
    | read fd len =>
      obtain ⟨⟨v, bytes, k1⟩, hx, he⟩ := Option.map_eq_some_iff.mp h
      cases he
      exact (sysRead_calls hx).imp_right fun ⟨j, _, hj⟩ => ⟨j, _, hj⟩
    | lseek fd offset whence =>
      have hk : k' = (k.sysLseek env fd offset whence).2 := answer_pure h
      rw [hk]
      exact Or.inl (sysLseek_calls k fd offset whence)
    | ioctl fd =>
      have hk : k' = (k.sysIoctl env fd).2 := answer_pure h
      rw [hk]
      exact Or.inl (.same (sysIoctl_procSide k fd))
    | readdir fd =>
      have hk : k' = (k.sysReaddir env fd).2 := answer_pure h
      rw [hk]
      exact Or.inl (sysReaddir_calls k fd)
    | chdir path =>
      obtain ⟨a, h⟩ := answer_some h
      exact Or.inl (sysChdir_calls k path a k' h)
    | _ => simp [Event.lifecycle, Event.onTable, Event.onTree] at hq ht htree

theorem step_taskSide {ev : Event} {r : Reply} (hq : ev.lifecycle = false)
    (h : k.step env ev = some (r, k')) : k'.taskSide = k.taskSide := by
  cases ht : ev.onTable with
  | false =>
    cases step_fileCall hq ht h with
    | inl hc => exact hc.taskSide
    | inr hc =>
      obtain ⟨j, q, hc⟩ := hc
      rw [hc.rest]
      rfl
  | true =>
    cases ev with
    | pipe =>
      simp only [step] at h
      have hk : k' = k.sysPipe.2 := answer_pure h
      rw [hk, sysPipe_taskSide k]
    | close fd =>
      have hk : k' = (k.sysClose fd).2 := answer_pure h
      rw [hk, sysClose_taskSide k fd]
    | dup fd =>
      have hk : k' = (k.sysDup fd).2 := answer_pure h
      rw [hk, sysDup_taskSide k fd]
    | dup2 old new =>
      have hk : k' = (k.sysDup2 old new).2 := answer_pure h
      rw [hk, sysDup2_taskSide k old new]
    | fcntl fd cmd arg =>
      have hk : k' = (k.sysFcntl fd cmd arg).2 := answer_pure h
      rw [hk, sysFcntl_taskSide k fd cmd arg]
    | _ => cases ht

theorem step_listed {ev : Event} {r : Reply} (hl : Listed k l)
    (h : k.step env ev = some (r, k')) : ∃ l', Listed k' l' := by
  cases hq : ev.lifecycle with
  | false => exact ⟨l, hl.keep (step_taskSide hq h)⟩
  | true =>
    cases ev with
    | fork =>
      obtain ⟨a, h⟩ := answer_some h
      exact hl.sysFork h
    | exit code =>
      have he : k.closeCurrent.exit env code = some k' := silent_some h
      exact ⟨_, (hl.keep (closeCurrent_taskSide k)).exit he⟩
    | fault code => exact ⟨_, hl.exit (silent_some h)⟩
    | kill pid sig =>
      obtain ⟨a, h⟩ := answer_some h
      exact hl.sysKill h
    | wait pid old =>
      simp only [step] at h
      obtain ⟨a, h⟩ := answer_some h
      exact hl.waitPass h
    | spawn path =>
      simp only [step] at h
      obtain ⟨a, h⟩ := answer_some h
      exact hl.spawn h
    | schedule old =>
      simp only [step] at h
      obtain ⟨a, h⟩ := answer_some h
      exact ⟨_, hl.schedule h⟩
    | _ => cases hq

theorem Reached.listed {ok : Env → Kernel → Event → Prop} (h : Reached ok k) :
    ∃ l, Listed k l := by
  refine h.invariant (I := fun k => ∃ l, Listed k l) ⟨[], boot_listed⟩ ?_
  intro k k' env ev r hi _ hs
  obtain ⟨l, hl⟩ := hi
  exact step_listed hl hs

section roundRobin

def twoTasks : Kernel :=
  { boot with
    tasks := ⟨fun t =>
      if t = 1 then { Task.zero with process := some 1, state := .dead, next := some 2 }
      else if t = 2 then { Task.zero with regs := 9, process := some 2 }
      else boot.task t, {0, 1, 2}⟩
    head := some 1
    tail := some 2 }

def quietEnv : Env :=
  ⟨8, fun _ => none, fun _ => true, fun _ => true, fun _ _ => 0, fun _ _ _ _ => false, 0, [], [], [], true,
    true, true⟩

theorem twoTasks_list : TaskList twoTasks [1, 2] where
  chain := ⟨rfl, rfl, rfl⟩
  nodup := by decide
  tail := rfl
  idle := by decide
  idleNext := rfl
  current := Or.inl rfl

/-- The heap as `create_task` leaves it, one task behind the other and each in front of its stack: the
word in front of the stack is the task's `next`, and as a size it leads out of memory if the next task
lies behind. -/
def stackBehind (k : Kernel) : Env :=
  { quietEnv with
    frees := fun
      | .task t => (k.task t).next.all (· < t)
      | _ => true }

def deadLast : Kernel :=
  { boot with
    tasks := ⟨fun t =>
      if t = 1 then { Task.zero with regs := 9, process := some 1, next := some 2 }
      else if t = 2 then { Task.zero with process := some 2, state := .dead }
      else boot.task t, {0, 1, 2}⟩
    head := some 1
    tail := some 2 }

theorem deadLast_list : TaskList deadLast [1, 2] where
  chain := ⟨rfl, rfl, rfl⟩
  nodup := by decide
  tail := rfl
  idle := by decide
  idleNext := rfl
  current := Or.inl rfl

end roundRobin

end LosTacOS.Os.Kernel
