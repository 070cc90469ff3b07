import LosTacOS.Os.Kill

/-! What the calls on files do to processes and pipes. -/
namespace LosTacOS.Os.Kernel

variable {env : Env} {k k' k1 : Kernel} {p : Nat} {i : Fin maxFds} {α β : Type}

/-- The outcomes of a call on files: nothing changes for the processes, an open descriptor moves,
a free one is taken or the working directory changes. -/
inductive FileCall (k : Kernel) : Kernel → Prop
  | same {k' : Kernel} (h : k'.procSide = k.procSide) : FileCall k k'
  | moved {k' : Kernel} {p : Nat} {i : Fin maxFds} {offset : Nat} (hp : k.currentProc = some p)
      (h : k'.procSide = (k.setEntry p i { k.entry p i with offset }).procSide) : FileCall k k'
  | taken {k' : Kernel} {p : Nat} {i : Fin maxFds} {e : FdEntry} (hp : k.currentProc = some p)
      (hfree : (k.entry p i).type = .none) (ht : e.type = .file) (hpipe : e.pipe = none)
      (h : k'.procSide = (k.setEntry p i e).procSide) : FileCall k k'
  | left {k' : Kernel} {p : Nat} {cwd : Option Nat} (hp : k.currentProc = some p)
      (h : k'.procSide = (k.setProc p { k.proc p with cwd }).procSide) : FileCall k k'

def writeEnd (k : Kernel) (fd : Int) : Option (Fin 32) := do
  let (p, i) ← k.openFd fd
  let e := k.entry p i
  if e.type = .pipe ∧ e.writable then e.pipe else none

def readEnd (k : Kernel) (fd : Int) : Option (Fin 32) := do
  let (p, i) ← k.openFd fd
  let e := k.entry p i
  if e.type = .pipe ∧ e.readable then e.pipe else none

structure PipeCall (k k' : Kernel) (j : Fin 32) (q : Pipe) : Prop where
  readers : q.readers = (k.pipes j).readers
  writers : q.writers = (k.pipes j).writers
  rest : k' = { k with pipes := Function.update k.pipes j q }

section procSide

theorem proc_of_procSide (h : k'.procSide = k.procSide) (p : Nat) : k'.proc p = k.proc p := by
  have hp : k'.procs = k.procs := congrArg ProcSide.procs h
  unfold proc
  rw [hp]

theorem entry_of_procSide (h : k'.procSide = k.procSide) (p : Nat) (i : Fin maxFds) :
    k'.entry p i = k.entry p i := by
  unfold entry
  rw [proc_of_procSide h]

theorem currentProc_of_procSide (h : k'.procSide = k.procSide) :
    k'.currentProc = k.currentProc := by
  have ht : k'.tasks = k.tasks := congrArg ProcSide.tasks h
  have hc : k'.current = k.current := congrArg ProcSide.current h
  unfold currentProc task
  rw [ht, hc]

theorem getProcessCwd_of_procSide (h : k'.procSide = k.procSide) (hr : k'.root = k.root) :
    k'.getProcessCwd = k.getProcessCwd := by
  have hp : k'.procs = k.procs := congrArg ProcSide.procs h
  unfold getProcessCwd proc
  rw [currentProc_of_procSide h, hr, hp]

theorem startDir_of_procSide (h : k'.procSide = k.procSide) (hr : k'.root = k.root)
    (path : List Char) : k'.startDir path = k.startDir path := by
  unfold startDir
  rw [hr, getProcessCwd_of_procSide h hr]

theorem setProc_procSide (h : k'.procSide = k.procSide) (p : Nat) (x : Process) :
    (k'.setProc p x).procSide = (k.setProc p x).procSide := by
  have hp : k'.procs = k.procs := congrArg ProcSide.procs h
  unfold setProc
  rw [hp]
  exact congrArg (fun s : ProcSide => { s with procs := k.procs.set p x }) h

theorem setEntry_procSide (h : k'.procSide = k.procSide) (p : Nat) (i : Fin maxFds) (e : FdEntry) :
    (k'.setEntry p i e).procSide = (k.setEntry p i e).procSide := by
  unfold setEntry
  rw [proc_of_procSide h]
  exact setProc_procSide h p _

theorem FileCall.from (hc : FileCall k1 k') (h : k1.procSide = k.procSide) : FileCall k k' := by
  cases hc with
  | same h' => exact .same (h'.trans h)
  | moved hp h' =>
    rw [entry_of_procSide h] at h'
    exact .moved ((currentProc_of_procSide h).symm.trans hp) (h'.trans (setEntry_procSide h ..))
  | taken hp hfree ht hpipe h' =>
    rw [entry_of_procSide h] at hfree
    exact .taken ((currentProc_of_procSide h).symm.trans hp) hfree ht hpipe
      (h'.trans (setEntry_procSide h ..))
  | left hp h' =>
    rw [proc_of_procSide h] at h'
    exact .left ((currentProc_of_procSide h).symm.trans hp) (h'.trans (setProc_procSide h ..))

theorem FileCall.to (hc : FileCall k k1) (h : k'.procSide = k1.procSide) : FileCall k k' := by
  cases hc with
  | same h' => exact .same (h.trans h')
  | moved hp h' => exact .moved hp (h.trans h')
  | taken hp hfree ht hpipe h' => exact .taken hp hfree ht hpipe (h.trans h')
  | left hp h' => exact .left hp (h.trans h')

theorem FileCall.taskSide (hc : FileCall k k') : k'.taskSide = k.taskSide := by
  cases hc with
  | same h => exact taskSide_of_procSide h
  | moved hp h => exact (taskSide_of_procSide h).trans rfl
  | taken hp hfree ht hpipe h => exact (taskSide_of_procSide h).trans rfl
  | left hp h => exact (taskSide_of_procSide h).trans rfl

def Calls (k : Kernel) (x : Option (α × Kernel)) : Prop := ∀ r k', x = some (r, k') → FileCall k k'

theorem Keeps.calls {x : Option (α × Kernel)} (h : Keeps procSide k x) : Calls k x :=
  fun r k' he => .same (h r k' he)

theorem Calls.pure {x : α} (h : FileCall k k1) : Calls k (some (x, k1)) := by
  intro r k' he
  cases he
  exact h

theorem Calls.fail : Calls k (none : Option (α × Kernel)) := nofun

theorem Keeps.bindCalls {x : Option (β × Kernel)} {f : β × Kernel → Option (α × Kernel)}
    (hx : Keeps procSide k x) (hf : ∀ r k1, Calls k1 (f (r, k1))) : Calls k (x.bind f) := by
  intro r k' he
  obtain ⟨⟨r1, k1⟩, h1, h2⟩ := Option.bind_eq_some_iff.mp he
  exact (hf r1 k1 r k' h2).from (hx r1 k1 h1)

end procSide

section storage

theorem growFile_procSide {f size : Nat} (h : k.growFile env f size = some k') :
    k'.procSide = k.procSide := by
  unfold growFile at h
  dsimp only at h
  split at h
  · split at h
    · cases h
    · rename_i b k1 hb
      have h1 := allocBlock_procSide hb
      cases h
      cases (k.files.cell f).privateData with
      | none => exact h1
      | some p => exact h1
  · cases h
    rfl

end storage

section calls

theorem firstFree_none {start : Nat} (h : k.firstFree p start = some i) :
    (k.entry p i).type = .none := by
  have hi := List.find?_some h
  simp only [decide_eq_true_iff] at hi
  exact hi.2

theorem openFd_current {fd : Int} (h : k.openFd fd = some (p, i)) :
    k.currentProc = some p ∧ (k.entry p i).type ≠ .none := by
  obtain ⟨hg, ht⟩ := Option.filter_eq_some_iff.mp h
  unfold getFdEntry at hg
  simp only [Option.bind_eq_bind, Option.bind_eq_some_iff, Option.some.injEq, Prod.mk.injEq] at hg
  obtain ⟨j, _, q, hq, rfl, rfl⟩ := hg
  exact ⟨hq, of_decide_eq_true ht⟩

theorem setEntry_setEntry (k : Kernel) (p : Nat) (i : Fin maxFds) (e e' : FdEntry) :
    (k.setEntry p i e).setEntry p i e' = k.setEntry p i e' := by
  simp [setEntry, setProc, proc, Arena.set]

/-- What `alloc_fd` takes. -/
theorem allocFd_some {node : Option Nat} (h : k.allocFd node = (some (p, i), k')) :
    k.currentProc = some p ∧ (k.entry p i).type = .none ∧
      k' = k.setEntry p i { FdEntry.zero with
        node, type := if node.isSome then .file else .none } := by
  unfold allocFd at h
  split at h
  · cases h
  · rename_i q hq
    split at h
    · cases h
    · rename_i j hj
      cases h
      exact ⟨hq, firstFree_none hj, rfl⟩

theorem allocFd_none {node : Option Nat} (h : k.allocFd node = (none, k')) : k' = k := by
  unfold allocFd at h
  split at h
  · cases h
    rfl
  · split at h
    · cases h
      rfl
    · cases h

theorem openFound_calls (k : Kernel) (path : List Char) (flags : Nat) (node : Option Nat) :
    Calls k (k.openFound env path flags node) := by
  unfold openFound
  split
  · exact Calls.pure (.same rfl)
  · rename_i n
    split
    · rename_i k1 hk
      rw [allocFd_none hk]
      exact Calls.pure (.same rfl)
    · rename_i p i k1 hk
      obtain ⟨hp, hfree, rfl⟩ := allocFd_some hk
      have ht : FileCall k (k.setEntry p i { FdEntry.zero with node := some n, type := .file }) :=
        .taken hp hfree rfl rfl rfl
      split
      · intro r k' he
        obtain ⟨⟨b, k2⟩, h2, h3⟩ := Option.bind_eq_some_iff.mp he
        cases h3
        exact ht.to (writeContent_procSide _ path [] b _ h2)
      · exact Calls.pure ht

theorem openNode_calls (k : Kernel) (path : List Char) (flags : Nat) :
    Calls k (k.openNode env path flags) := by
  refine (find_procSide k path).bindCalls fun r k1 => ?_
  dsimp only
  split
  · exact (createFilePath_procSide k1 path).bindCalls fun r k2 => openFound_calls k2 path flags r
  · exact openFound_calls k1 path flags r

theorem openMounted_calls (k : Kernel) (m : Nat) (fs : FileSystem) (sub : List Char) :
    Calls k (k.openMounted env m fs sub) := by
  refine (fsOpen_procSide k _ _ _).bindCalls fun r k1 => ?_
  cases r with
  | none => exact Calls.pure (.same rfl)
  | some h =>
    dsimp only
    split
    · rename_i k2 hk2
      rw [allocFd_none hk2]
      exact Calls.pure (.same rfl)
    · rename_i p i k2 hk2
      obtain ⟨hp, hfree, rfl⟩ := allocFd_some hk2
      refine Calls.pure (.taken hp hfree (e := { FdEntry.zero with
        type := .file, fsHandle := some h, mount := some m }) rfl rfl ?_)
      rw [setEntry_setEntry, setEntry_entry, if_pos ⟨rfl, rfl⟩]
      rfl

theorem sysOpen_calls (k : Kernel) (path : List Char) (flags : Nat) :
    Calls k (k.sysOpen env path flags) := by
  intro r k' h
  obtain ⟨path', _, h⟩ := Option.bind_eq_some_iff.mp h
  split at h
  · exact openNode_calls k path' flags r k' h
  · dsimp only at h
    split at h
    · exact openNode_calls k path' flags r k' h
    · split at h
      · exact openMounted_calls k _ _ _ r k' h
      · exact openNode_calls k path' flags r k' h

theorem sysLseek_calls (k : Kernel) (fd offset : Int) (whence : Nat) :
    FileCall k (k.sysLseek env fd offset whence).2 := by
  unfold sysLseek
  split
  · exact .same rfl
  · rename_i p i hfd
    have hp := (openFd_current hfd).1
    dsimp only
    split
    · exact .same rfl
    · split
      · split
        · exact .moved hp rfl
        · exact .same rfl
      · split
        · exact .same rfl
        · split
          · exact .same rfl
          · exact .moved hp rfl

theorem sysIoctl_procSide (k : Kernel) (fd : Int) :
    (k.sysIoctl env fd).2.procSide = k.procSide := by
  unfold sysIoctl
  split
  · rfl
  · split
    · rfl
    · dsimp only
      split
      · rfl
      · rfl

theorem sysReaddir_calls (k : Kernel) (fd : Int) : FileCall k (k.sysReaddir env fd).2 := by
  unfold sysReaddir
  split
  · exact .same rfl
  · rename_i p i hfd
    have hp := (openFd_current hfd).1
    dsimp only
    split
    · split
      · exact .moved hp rfl
      · exact .same rfl
    · exact .same rfl
    · split
      · split
        · exact .moved hp rfl
        · exact .same rfl
      · exact .same rfl

theorem writeNode_calls (k : Kernel) (n : Nat) (data : List UInt8) (hp : k.currentProc = some p) :
    Calls k (k.writeNode env p i n data) := by
  unfold writeNode
  dsimp only
  split
  · rename_i k1 hk
    exact Calls.pure (.same (ensureFileStorage_procSide hk))
  · rename_i f k1 hk
    have h1 := ensureFileStorage_procSide hk
    split
    · exact Calls.pure (.same h1)
    · rename_i k2 hg
      have h2 := (growFile_procSide hg).trans h1
      split
      · split
        · exact Calls.fail
        · rename_i q hq
          have h3 : ((k2.copyTo ⟨q.block, q.off + (k.entry p i).offset⟩ data).copyTo
              ⟨q.block, q.off + (k2.files.cell f).size⟩ [0]).procSide = k.procSide := h2
          exact Calls.pure (.moved hp (setEntry_procSide h3 ..))
      · exact Calls.fail

theorem sysWrite_calls {fd : Int} (data : List UInt8) (hno : k.writeEnd fd = none) :
    Calls k (k.sysWrite env fd data) := by
  unfold sysWrite
  split
  · exact Calls.pure (.same rfl)
  · split
    · split
      · exact Calls.pure (.same rfl)
      · exact Calls.pure (.same rfl)
    · rename_i p i hfd
      have hp := (openFd_current hfd).1
      dsimp only
      split
      · exact Calls.pure (.same rfl)
      · split
        · rename_i ht
          split
          · rename_i hw
            have hpipe : (k.entry p i).pipe = none := by
              simpa [writeEnd, hfd, ht, hw] using hno
            rw [hpipe]
            exact Calls.fail
          · exact Calls.pure (.same rfl)
        · split
          · split
            · exact Calls.pure (.same rfl)
            · exact Calls.pure (.same rfl)
          · split
            · split
              · exact Calls.pure (.moved hp rfl)
              · split
                · exact Calls.pure (.same rfl)
                · exact writeNode_calls k _ data hp
            · split
              · exact Calls.pure (.same rfl)
              · exact writeNode_calls k _ data hp

theorem pipeEnd_some {fd : Int} {j : Fin 32} {f : FdEntry → Bool}
    (h : (do
      let (p, i) ← k.openFd fd
      let e := k.entry p i
      if e.type = .pipe ∧ f e then e.pipe else none) = some j) :
    ∃ p i, k.openFd fd = some (p, i) ∧ (k.entry p i).type = .pipe ∧ f (k.entry p i) = true ∧
      (k.entry p i).pipe = some j := by
  obtain ⟨⟨p, i⟩, hfd, he⟩ := Option.bind_eq_some_iff.mp h
  dsimp only at he
  split at he
  · rename_i ht
    exact ⟨p, i, hfd, ht.1, ht.2, he⟩
  · cases he

theorem sysWrite_pipe {fd : Int} {j : Fin 32} {data : List UInt8} (h : k.writeEnd fd = some j)
    (hd : data ≠ []) : k.sysWrite env fd data = some (((pipeWrite (k.pipes j) data).1 : Int),
      { k with pipes := Function.update k.pipes j (pipeWrite (k.pipes j) data).2 }) := by
  obtain ⟨p, i, hfd, ht, hw, hj⟩ := pipeEnd_some h
  have htty : (k.entry p i).type ≠ .tty := by
    rw [ht]
    decide
  simp only [sysWrite, if_neg hd, hfd, if_neg htty, if_pos ht, hj, hw, if_true]

theorem pipeRead_ends (q : Pipe) (len : Nat) :
    (pipeRead q len).2.readers = q.readers ∧ (pipeRead q len).2.writers = q.writers := by
  unfold pipeRead
  dsimp only
  split
  · exact ⟨rfl, rfl⟩
  · exact ⟨rfl, rfl⟩

theorem sysRead_calls {fd r : Int} {len : Nat} {bytes : List UInt8}
    (h : k.sysRead env fd len = some (r, bytes, k')) :
    FileCall k k' ∨ ∃ j, k.readEnd fd = some j ∧ PipeCall k k' j (pipeRead (k.pipes j) len).2 := by
  unfold sysRead at h
  split at h
  · cases h
    exact Or.inl (.same rfl)
  · split at h
    · cases h
      exact Or.inl (.same rfl)
    · rename_i p i hfd
      have hp := (openFd_current hfd).1
      dsimp only at h
      split at h
      · cases h
        exact Or.inl (.same rfl)
      · split at h
        · rename_i ht
          split at h
          · rename_i hr
            split at h
            · cases h
            · rename_i j hj
              split at h
              · cases h
                refine Or.inr ⟨j, ?_, (pipeRead_ends _ len).1, (pipeRead_ends _ len).2, rfl⟩
                simp [readEnd, hfd, ht, hr, hj]
              · split at h
                · cases h
                  exact Or.inl (.same rfl)
                · cases h
          · cases h
            exact Or.inl (.same rfl)
        · refine Or.inl ?_
          split at h
          · cases h
            exact .same rfl
          · split at h
            · cases h
              exact .moved hp rfl
            · split at h
              · cases h
                exact .same rfl
              · split at h
                · cases h
                  exact .same rfl
                · split at h
                  · cases h
                    exact .same rfl
                  · split at h
                    · cases h
                      exact .same rfl
                    · cases h
                      exact .moved hp rfl

theorem sysChdir_calls (k : Kernel) (path : List Char) : Calls k (k.sysChdir env path) := by
  refine (find_procSide k path).bindCalls fun r k1 => ?_
  dsimp only
  split
  · rename_i n p hp
    split
    · exact Calls.pure (.left hp rfl)
    · exact Calls.pure (.same rfl)
  · exact Calls.pure (.same rfl)
  · exact Calls.fail

end calls

end LosTacOS.Os.Kernel
