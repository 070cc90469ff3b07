import LosTacOS.Os.Listed

/-! The outcomes of `clone` and `spawn`. -/
namespace LosTacOS.Os.Kernel

variable {env : Env} {k k' : Kernel} {l : List Nat} {parent c t : Nat}

def SameButAllocs (k k' : Kernel) : Prop := k' = { k with allocs := k'.allocs }

theorem SameButAllocs.refl (k : Kernel) : SameButAllocs k k := rfl

theorem SameButAllocs.kmalloc {used : Finset Nat} {a : Option Nat}
    (h : k.kmalloc env used = (a, k')) : SameButAllocs k k' := by
  rw [(kmalloc_eq h).1]
  rfl

theorem SameButAllocs.trans {k1 : Kernel} (h : SameButAllocs k k1) (h' : SameButAllocs k1 k') :
    SameButAllocs k k' := by
  unfold SameButAllocs at *
  rw [h', h]

theorem SameButAllocs.proc (h : SameButAllocs k k') (p : Nat) : k'.proc p = k.proc p := by
  rw [h]
  rfl

theorem SameButAllocs.taskSide (h : SameButAllocs k k') : k'.taskSide = k.taskSide := by
  rw [h]
  rfl

theorem kmalloc_task (h : k.kmalloc env k.tasks.used = (some t, k')) : t ∉ k'.tasks.used := by
  rw [(kmalloc_eq h).1]
  exact (kmalloc_eq h).2 t rfl

theorem kmalloc_proc (h : k.kmalloc env k.procs.used = (some c, k')) : c ∉ k'.procs.used := by
  rw [(kmalloc_eq h).1]
  exact (kmalloc_eq h).2 c rfl

/-- The ways in which `clone` can end once there is a process `c` for the child. -/
inductive Cloned (k : Kernel) (parent c : Nat) : Option Nat → Kernel → Prop
  | noSpace {k1 : Kernel} (h : SameButAllocs (k.newProcess c) k1) :
      Cloned k parent c none (k1.freeProcess c)
  | failed {k1 : Kernel} (h : SameButAllocs ((k.newProcess c).inherit parent c) k1) :
      Cloned k parent c none (k1.freeProcess c)
  | noStack {k1 : Kernel} {t : Nat} (h : SameButAllocs ((k.newProcess c).inherit parent c) k1)
      (ht : t ∉ k1.tasks.used) :
      Cloned k parent c none ({ k1 with tasks := k1.tasks.set t Task.zero }.freeProcess c)
  | done {k1 k' : Kernel} {t stack : Nat}
      (h : SameButAllocs ((k.newProcess c).inherit parent c) k1) (ht : t ∉ k1.tasks.used)
      (hs : k1.startTask t c stack (k1.proc parent).mainThread = some k') :
      Cloned k parent c (some c) k'

theorem retain_rest (k : Kernel) (e : FdEntry) : ∃ pipes, k.retain e = { k with pipes } := by
  unfold retain
  split
  · exact ⟨_, rfl⟩
  · exact ⟨k.pipes, rfl⟩

theorem foldl_retain_rest (f : Kernel → Fin maxFds → FdEntry) (is : List (Fin maxFds))
    (k : Kernel) : ∃ pipes, is.foldl (fun k i => k.retain (f k i)) k = { k with pipes } := by
  induction is generalizing k with
  | nil => exact ⟨k.pipes, rfl⟩
  | cons i is ih =>
    obtain ⟨_, h1⟩ := retain_rest k (f k i)
    obtain ⟨pipes, h2⟩ := ih (k.retain (f k i))
    refine ⟨pipes, ?_⟩
    rw [List.foldl_cons, h2, h1]

/-- The process that `inherit` makes of the child. -/
def heir (k : Kernel) (parent child : Nat) : Process :=
  { k.proc child with
    cwd := (k.proc parent).cwd, parent := some parent, fds := (k.proc parent).fds }

theorem inherit_rest (k : Kernel) (parent child : Nat) :
    ∃ pipes, k.inherit parent child = { k.setProc child (k.heir parent child) with pipes } :=
  foldl_retain_rest _ _ _

theorem clone_cases {r : Option Nat} (h : k.clone env parent = some (r, k')) :
    (r = none ∧ SameButAllocs k k') ∨
      ∃ k0 c, SameButAllocs k k0 ∧ c ∉ k0.procs.used ∧ Cloned k0 parent c r k' := by
  unfold clone at h
  split at h
  · cases h
    exact Or.inl ⟨rfl, .refl _⟩
  · split at h
    · rename_i k1 hk
      cases h
      exact Or.inl ⟨rfl, .kmalloc hk⟩
    · rename_i c k0 hk
      refine Or.inr ⟨k0, c, .kmalloc hk, kmalloc_proc hk, ?_⟩
      dsimp only at h
      split at h
      · unfold cloneInto at h
        dsimp only at h
        split at h
        · split at h
          · rename_i k3 hk3
            cases h
            exact .failed (.kmalloc hk3)
          · rename_i t k3 hk3
            have ht := kmalloc_task hk3
            split at h
            · rename_i k4 hk4
              cases h
              refine .noStack ((SameButAllocs.kmalloc hk3).trans (.kmalloc hk4)) ?_
              rw [(kmalloc_eq hk4).1]
              exact ht
            · rename_i stack k4 hk4
              obtain ⟨k5, h5, h6⟩ := Option.bind_eq_some_iff.mp h
              cases h6
              refine .done ((SameButAllocs.kmalloc hk3).trans (.kmalloc hk4)) ?_ h5
              rw [(kmalloc_eq hk4).1]
              exact ht
        · cases h
          exact .failed (.refl _)
      · cases h
        exact .noSpace (.refl _)

inductive Launched (k : Kernel) (p : Nat) : Option Nat → Kernel → Prop
  | failed {k1 : Kernel} (h : SameButAllocs k k1) : Launched k p none k1
  | noStack {k1 : Kernel} {t : Nat} (h : SameButAllocs k k1) (ht : t ∉ k1.tasks.used) :
      Launched k p none { k1 with tasks := k1.tasks.set t Task.zero }
  | done {k1 k' : Kernel} {t stack : Nat} (h : SameButAllocs k k1) (ht : t ∉ k1.tasks.used)
      (hs : k1.startTask t p stack none = some k') :
      Launched k p (some t) (k'.setTask t { k'.task t with parent := some k'.current })

theorem launch_cases {p : Nat} {r : Option Nat} (h : k.launch env p = some (r, k')) :
    Launched k p r k' := by
  unfold launch at h
  split at h
  · rename_i k1 hk
    cases h
    exact .failed (.kmalloc hk)
  · rename_i t k1 hk
    have ht := kmalloc_task hk
    split at h
    · rename_i k2 hk2
      cases h
      refine .noStack ((SameButAllocs.kmalloc hk).trans (.kmalloc hk2)) ?_
      rw [(kmalloc_eq hk2).1]
      exact ht
    · rename_i stack k2 hk2
      obtain ⟨k3, h3, h4⟩ := Option.bind_eq_some_iff.mp h
      cases h4
      refine .done ((SameButAllocs.kmalloc hk).trans (.kmalloc hk2)) ?_ h3
      rw [(kmalloc_eq hk2).1]
      exact ht

section listed

structure Unowned (k : Kernel) (l : List Nat) (p : Nat) : Prop where
  used : p ∈ k.procs.used
  ne : p ≠ 0
  free : ∀ u ∈ l, (k.task u).process ≠ some p

theorem Unowned.keep {p : Nat} (h : Unowned k l p) (hs : k'.taskSide = k.taskSide) :
    Unowned k' l p := by
  have htasks : k'.tasks = k.tasks := congrArg TaskSide.tasks hs
  have hprocs : k'.procs.used = k.procs.used := congrArg TaskSide.procs hs
  refine ⟨hprocs ▸ h.used, h.ne, fun u hu => ?_⟩
  unfold task
  rw [htasks]
  exact h.free u hu

theorem Listed.newProcess (hl : Listed k l) (hc : c ∉ k.procs.used) :
    Listed (k.newProcess c) l ∧ Unowned (k.newProcess c) l c := by
  obtain ⟨hl1, hc0, hno⟩ := hl.allocProc (x := { Process.zero with pid := k.pidCounter }) hc
  exact ⟨hl1.keep rfl, Finset.mem_insert_self c _, hc0, hno⟩

theorem Listed.freeProcess (hl : Listed k l) (hu : Unowned k l c) : Listed (k.freeProcess c) l :=
  hl.freeProc hu.ne hu.free

theorem inherit_taskSide (k : Kernel) (parent child : Nat) :
    (k.inherit parent child).taskSide = k.taskSide := by
  obtain ⟨pipes, hi⟩ := inherit_rest k parent child
  rw [hi]
  rfl

theorem Listed.dropTask (hl : Listed k l) (ht : t ∉ k.tasks.used) :
    Listed { k with tasks := k.tasks.set t Task.zero } l := by
  refine hl.congr (fun u hu => ?_) rfl rfl rfl rfl rfl
  refine Arena.set_cell_ne _ _ fun he => ht ?_
  rw [← he]
  exact (hl.used u).mpr hu

theorem Unowned.dropTask (hl : Listed k l) (hu : Unowned k l c) (ht : t ∉ k.tasks.used) :
    Unowned { k with tasks := k.tasks.set t Task.zero } l c := by
  refine ⟨hu.used, hu.ne, fun u hul => ?_⟩
  have hcell : { k with tasks := k.tasks.set t Task.zero }.task u = k.task u := by
    refine Arena.set_cell_ne _ _ fun he => ht ?_
    rw [← he]
    exact (hl.used u).mpr (Or.inr hul)
  rw [hcell]
  exact hu.free u hul

theorem Listed.startTask {p stack : Nat} {q : Option Nat} (hl : Listed k l)
    (ht : t ∉ k.tasks.used) (hp : Unowned k l p) (hs : k.startTask t p stack q = some k') :
    Listed k' (l ++ [t]) := by
  have hl1 : Listed (k.setProc p { k.proc p with mainThread := some t }) l := hl.keep rfl
  unfold Kernel.startTask at hs
  exact (hl1.enlist (p := p) ht rfl (by simp) hp.used hp.ne hp.free hs).1

theorem Listed.clone {r : Option Nat} (hl : Listed k l) (h : k.clone env parent = some (r, k')) :
    ∃ l', Listed k' l' := by
  cases clone_cases h with
  | inl hno => exact ⟨l, hl.keep hno.2.taskSide⟩
  | inr hyes =>
    obtain ⟨k0, c, h0, hc, hcl⟩ := hyes
    obtain ⟨hl1, hu1⟩ := (hl.keep h0.taskSide).newProcess hc
    have hside := inherit_taskSide (k0.newProcess c) parent c
    cases hcl with
    | noSpace hk => exact ⟨l, (hl1.keep hk.taskSide).freeProcess (hu1.keep hk.taskSide)⟩
    | failed hk =>
      have hs := hk.taskSide.trans hside
      exact ⟨l, (hl1.keep hs).freeProcess (hu1.keep hs)⟩
    | noStack hk ht =>
      have hs := hk.taskSide.trans hside
      have hl2 := hl1.keep hs
      exact ⟨l, (hl2.dropTask ht).freeProcess ((hu1.keep hs).dropTask hl2 ht)⟩
    | done hk ht hstart =>
      have hs := hk.taskSide.trans hside
      exact ⟨_, (hl1.keep hs).startTask ht (hu1.keep hs) hstart⟩

theorem Listed.launch {p : Nat} {r : Option Nat} (hl : Listed k l) (hp : Unowned k l p)
    (h : k.launch env p = some (r, k')) : ∃ l', Listed k' l' := by
  cases launch_cases h with
  | failed hk => exact ⟨l, hl.keep hk.taskSide⟩
  | noStack hk ht => exact ⟨l, (hl.keep hk.taskSide).dropTask ht⟩
  | done hk ht hs =>
    have hl1 := (hl.keep hk.taskSide).startTask ht (hp.keep hk.taskSide) hs
    refine ⟨_, hl1.setTask rfl rfl fun hr => ?_⟩
    exact hl1.running _ (by simp) hr

theorem Listed.spawn {path : List Char} {r : Option Nat} (hl : Listed k l)
    (h : k.spawn env path = some (r, k')) : ∃ l', Listed k' l' := by
  unfold Kernel.spawn at h
  split at h
  · rename_i k1 hk
    cases h
    exact ⟨l, hl.keep (SameButAllocs.kmalloc hk).taskSide⟩
  · rename_i p k1 hk
    have hp := kmalloc_proc hk
    obtain ⟨hl1, hu1⟩ := (hl.keep (SameButAllocs.kmalloc hk).taskSide).newProcess hp
    obtain ⟨⟨cwd, k2⟩, h2, h⟩ := Option.bind_eq_some_iff.mp h
    have hside2 := taskSide_of_procSide (find_procSide _ _ _ _ h2)
    have hside3 : (k2.setProc p { k2.proc p with cwd := cwd }).taskSide =
        (k1.newProcess p).taskSide := hside2
    dsimp only at h
    split at h
    · obtain ⟨⟨_, k3⟩, h3, h⟩ := Option.bind_eq_some_iff.mp h
      have hside4 := (taskSide_of_procSide (find_procSide _ _ _ _ h3)).trans hside3
      dsimp only at h
      split at h
      · exact (hl1.keep hside4).launch (hu1.keep hside4) h
      · cases h
        exact ⟨l, hl1.keep hside4⟩
    · cases h
      exact ⟨l, hl1.keep hside3⟩

end listed

end LosTacOS.Os.Kernel
