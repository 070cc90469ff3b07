import LosTacOS.Os.Create

/-! `kill_task_tree` walks the list while it takes tasks out of it, and keeps following the links of
tasks that are gone. Every task below the target is reached all the same, and none is destroyed
twice. -/
namespace LosTacOS.Os.Kernel

variable {env : Env} {k k' k0 : Kernel} {l l0 l1 b : List Nat} {t p : Nat} {i : Fin maxFds}

section closing

theorem release_rest (k : Kernel) (e : FdEntry) (gone : Int → Bool) :
    ∃ pipes pipeUsed, k.release e gone = { k with pipes, pipeUsed } := by
  unfold release
  split
  · exact ⟨_, _, rfl⟩
  · exact ⟨k.pipes, k.pipeUsed, rfl⟩

/-- Closing a descriptor of `p` touches this entry, the pipes and the record of calls only. -/
theorem closeEntry_rest (k : Kernel) (p : Nat) (i : Fin maxFds) :
    closeEntry p k i = k ∧ (k.entry p i).type = .none ∨ ∃ pipes pipeUsed fsLog,
      closeEntry p k i = { k with pipes, pipeUsed, fsLog }.setEntry p i FdEntry.zero := by
  unfold closeEntry
  dsimp only
  split
  · rename_i ht
    exact Or.inl ⟨rfl, ht⟩
  · refine Or.inr ?_
    split
    · obtain ⟨pipes, pipeUsed, h⟩ := release_rest k (k.entry p i) (· ≤ 0)
      exact ⟨pipes, pipeUsed, k.fsLog, by rw [h]⟩
    · split
      · exact ⟨k.pipes, k.pipeUsed, _, rfl⟩
      · exact ⟨k.pipes, k.pipeUsed, k.fsLog, rfl⟩

theorem setEntry_entry (k : Kernel) (p q : Nat) (i j : Fin maxFds) (e : FdEntry) :
    (k.setEntry p i e).entry q j = if q = p ∧ j = i then e else k.entry q j := by
  simp only [entry, setEntry, setProc, proc, Arena.set_cell]
  by_cases hq : q = p
  · rw [if_pos hq]
    simp only [Function.update_apply, hq, true_and]
  · rw [if_neg hq, if_neg fun h => hq h.1]

theorem closeEntry_taskSide (k : Kernel) (p : Nat) (i : Fin maxFds) :
    (closeEntry p k i).taskSide = k.taskSide := by
  cases closeEntry_rest k p i with
  | inl h => rw [h.1]
  | inr h =>
    obtain ⟨_, _, _, h⟩ := h
    rw [h]
    rfl

theorem closeEntry_type (k : Kernel) (p q : Nat) (i j : Fin maxFds) :
    ((closeEntry p k i).entry q j).type =
      if q = p ∧ j = i then .none else (k.entry q j).type := by
  cases closeEntry_rest k p i with
  | inl h =>
    rw [h.1]
    split
    · rename_i hqj
      rw [hqj.1, hqj.2]
      exact h.2
    · rfl
  | inr h =>
    obtain ⟨_, _, _, h⟩ := h
    rw [h, setEntry_entry]
    split
    · rfl
    · rfl

theorem foldl_closeEntry_taskSide (is : List (Fin maxFds)) (k : Kernel) (p : Nat) :
    (is.foldl (closeEntry p) k).taskSide = k.taskSide := by
  induction is generalizing k with
  | nil => rfl
  | cons i is ih =>
    rw [List.foldl_cons, ih]
    exact closeEntry_taskSide k p i

theorem sysCloseAll_taskSide (k : Kernel) (p : Nat) : (k.sysCloseAll p).taskSide = k.taskSide :=
  foldl_closeEntry_taskSide _ k p

theorem foldl_closeEntry_type (is : List (Fin maxFds)) (k : Kernel) (p q : Nat) (j : Fin maxFds) :
    ((is.foldl (closeEntry p) k).entry q j).type =
      if q = p ∧ j ∈ is then .none else (k.entry q j).type := by
  induction is generalizing k with
  | nil => simp
  | cons i is ih =>
    rw [List.foldl_cons, ih, closeEntry_type]
    by_cases hq : q = p
    · by_cases hj : j = i
      · simp [hq, hj]
      · simp [hq, hj]
    · simp [hq]

theorem sysCloseAll_type (k : Kernel) (p q : Nat) (j : Fin maxFds) :
    ((k.sysCloseAll p).entry q j).type = if q = p then .none else (k.entry q j).type := by
  refine (foldl_closeEntry_type _ k p q j).trans ?_
  simp

theorem sysCloseAll_none (h : ∀ i, (k.entry p i).type = .none) : k.sysCloseAll p = k := by
  have hfold : ∀ is : List (Fin maxFds), is.foldl (closeEntry p) k = k := by
    intro is
    induction is with
    | nil => rfl
    | cons i is ih =>
      have hi : closeEntry p k i = k := by
        unfold closeEntry
        exact if_pos (h i)
      rw [List.foldl_cons, hi, ih]
  exact hfold _

end closing

section ahead

/-- The pointer `a` is where the tasks of `l` in `b` go on: those it skips are gone. -/
def Ahead (l b : List Nat) : Option Nat → Prop
  | none => ∀ x ∈ b, x ∉ l
  | some u => ∃ c d, b = c ++ u :: d ∧ ∀ x ∈ c, x ∉ l

theorem Ahead.mono {a : Option Nat} (h : Ahead l b a) (hs : ∀ u ∈ l1, u ∈ l) : Ahead l1 b a := by
  cases a with
  | none => exact fun x hx hm => h x hx (hs x hm)
  | some u =>
    obtain ⟨c, d, hb, hc⟩ := h
    exact ⟨c, d, hb, fun x hx hm => hc x hx (hs x hm)⟩

theorem Ahead.skip {a : Option Nat} {c d : List Nat} (hc : ∀ x ∈ c, x ∉ l) (ht : t ∉ l)
    (h : Ahead l d a) : Ahead l (c ++ t :: d) a := by
  have hct : ∀ x ∈ c ++ [t], x ∉ l := by
    intro x hx
    simp only [List.mem_append, List.mem_singleton] at hx
    cases hx with
    | inl hx => exact hc x hx
    | inr hx =>
      rw [hx]
      exact ht
  rw [show c ++ t :: d = (c ++ [t]) ++ d by simp]
  cases a with
  | none =>
    intro x hx
    rw [List.mem_append] at hx
    cases hx with
    | inl hx => exact hct x hx
    | inr hx => exact h x hx
  | some u =>
    obtain ⟨c', d', rfl, hc'⟩ := h
    refine ⟨(c ++ [t]) ++ c', d', by simp, fun x hx => ?_⟩
    rw [List.mem_append] at hx
    cases hx with
    | inl hx => exact hct x hx
    | inr hx => exact hc' x hx

theorem ahead_of_chain {next : Nat → Option Nat} {a : Option Nat} (h : Chain next a b none) :
    Ahead l b a := by
  cases b with
  | nil =>
    cases h
    nofun
  | cons x b =>
    cases h.1
    exact ⟨[], b, rfl, nofun⟩

end ahead

/-- In the course of a kill that started at `k0` with the list `l0`. -/
structure Killing (k0 : Kernel) (l0 l : List Nat) (k : Kernel) : Prop where
  listed : Listed k l
  sub : ∀ u ∈ l, u ∈ l0
  gone : ∀ u ∈ l0, u ∉ l → (k.task u).state = .dead ∧
    ∃ p, (k.task u).process = some p ∧ p ∉ k.procs.used ∧ u ∉ k.tasks.used ∧
      ∀ i, (k.entry p i).type = .none
  parent : ∀ u, (k.task u).parent = (k0.task u).parent
  pid : ∀ u, (k.task u).pid = (k0.task u).pid
  current : k.current = k0.current
  front : Ahead l l0 k.head
  behind : ∀ a u b, l0 = a ++ u :: b → Ahead l b (k.nexts u)

theorem Killing.start (hl : Listed k l) : Killing k l l k where
  listed := hl
  sub _ hu := hu
  gone _ hu hn := absurd hu hn
  parent _ := rfl
  pid _ := rfl
  current := rfl
  front := ahead_of_chain hl.chain
  behind := by
    intro a u b hb
    have hc := hl.chain
    rw [hb] at hc
    exact ahead_of_chain (Chain.middle_iff.mp hc).2

theorem Killing.isChild (h : Killing k0 l0 l k) (t u : Nat) : k.isChild t u = k0.isChild t u := by
  unfold Kernel.isChild
  rw [h.parent u]
  cases (k0.task u).parent with
  | none => rfl
  | some q => simp only [h.pid]

/-- What `killOne` does before it destroys the task. -/
def condemn (k : Kernel) (t : Nat) : Kernel :=
  let k := match (k.task t).process with
    | some p => k.sysCloseAll p
    | none => k
  k.setTask t { k.task t with state := .dead }

theorem killOne_eq (k : Kernel) (t : Nat) :
    k.killOne env t = (k.condemn t).removeAndDestroy env t := rfl

theorem condemn_eq (hp : (k.task t).process = some p) :
    k.condemn t = (k.sysCloseAll p).setTask t { k.task t with state := .dead } := by
  have htask := task_of_taskSide (sysCloseAll_taskSide k p) t
  unfold condemn
  rw [hp]
  dsimp only
  rw [htask]

theorem condemn_task (hp : (k.task t).process = some p) (u : Nat) : (k.condemn t).task u =
    if u = t then { k.task u with state := .dead } else k.task u := by
  have htasks := tasks_of_taskSide (sysCloseAll_taskSide k p)
  rw [condemn_eq hp]
  simp only [setTask, task, Arena.set_cell, htasks]
  split
  · rename_i hu
    rw [hu]
  · rfl

theorem Listed.condemn (hl : Listed k l) (ht : t ∈ l) : Listed (k.condemn t) l := by
  obtain ⟨p, _, _, hp⟩ := hl.owns t ht
  have hl1 := hl.keep (sysCloseAll_taskSide k p)
  have htask := task_of_taskSide (sysCloseAll_taskSide k p) t
  rw [condemn_eq hp]
  refine hl1.setTask ?_ ?_ nofun
  · rw [htask]
  · rw [htask]

theorem Killing.killOne_gone (h : Killing k0 l0 l k) (ht : t ∈ l0) (hn : t ∉ l)
    (hk : k.killOne env t = some k') : k' = k := by
  obtain ⟨hdead, p, hp, hpu, htu, htype⟩ := h.gone t ht hn
  have hcon : k.condemn t = k := by
    rw [condemn_eq hp, sysCloseAll_none htype, ← hdead]
    simp only [setTask, task, Arena.set, Function.update_eq_self]
  have hcur : t ≠ k.current := by
    intro he
    cases h.listed.current with
    | inl h0 =>
      refine htu ((h.listed.used t).mpr (Or.inl ?_))
      rw [he, h0]
    | inr hm => exact hn (he ▸ hm)
  rw [killOne_eq, hcon] at hk
  simp only [removeAndDestroy, if_neg hcur, Option.bind_eq_bind, Option.bind_eq_some_iff,
    Option.ite_none_right_eq_some] at hk
  obtain ⟨k1, hu, -, hk⟩ := hk
  rw [h.listed.toTaskList.queued.unlink_out hn hu, hp] at hk
  cases hk
  simp only [Arena.free, Finset.erase_eq_of_notMem hpu, Finset.erase_eq_of_notMem htu]

theorem condemn_procs (hp : (k.task t).process = some p) :
    (k.condemn t).procs = (k.sysCloseAll p).procs := by
  rw [condemn_eq hp, setTask_procs]

theorem condemn_type (hp : (k.task t).process = some p) (q : Nat) (j : Fin maxFds) :
    ((k.condemn t).entry q j).type = if q = p then .none else (k.entry q j).type := by
  have hent : (k.condemn t).entry q j = (k.sysCloseAll p).entry q j := by
    unfold entry proc
    rw [condemn_procs hp]
  rw [hent, sysCloseAll_type]

theorem condemn_current (hp : (k.task t).process = some p) :
    (k.condemn t).current = k.current := by
  rw [condemn_eq hp, setTask_current]
  exact current_of_taskSide (sysCloseAll_taskSide k p)

theorem condemn_head (hp : (k.task t).process = some p) : (k.condemn t).head = k.head := by
  rw [condemn_eq hp, setTask_head]
  exact head_of_taskSide (sysCloseAll_taskSide k p)

theorem condemn_used (hp : (k.task t).process = some p) :
    (k.condemn t).procs.used = k.procs.used := by
  rw [condemn_procs hp]
  exact procs_of_taskSide (sysCloseAll_taskSide k p)

theorem condemn_tasksUsed (hp : (k.task t).process = some p) :
    (k.condemn t).tasks.used = k.tasks.used := by
  rw [condemn_eq hp, setTask_used]
  exact congrArg Arena.used (tasks_of_taskSide (sysCloseAll_taskSide k p))

theorem condemn_nexts (hp : (k.task t).process = some p) : (k.condemn t).nexts = k.nexts := by
  funext u
  simp only [nexts, condemn_task hp]
  split
  · rfl
  · rfl

theorem Killing.condemn (h : Killing k0 l0 l k) (ht : t ∈ l) : Killing k0 l0 l (k.condemn t) := by
  obtain ⟨p, hpu, _, hp⟩ := h.listed.owns t ht
  refine ⟨h.listed.condemn ht, h.sub, ?_, ?_, ?_, ?_, ?_, ?_⟩
  · intro u hu hn
    obtain ⟨hdead, q, hq, hqu, huu, htype⟩ := h.gone u hu hn
    have hut : u ≠ t := fun he => hn (he ▸ ht)
    have hqp : q ≠ p := fun he => hqu (he ▸ hpu)
    rw [condemn_task hp, if_neg hut, condemn_used hp, condemn_tasksUsed hp]
    refine ⟨hdead, q, hq, hqu, huu, fun i => ?_⟩
    rw [condemn_type hp, if_neg hqp]
    exact htype i
  · intro u
    rw [condemn_task hp, ← h.parent u]
    split
    · rfl
    · rfl
  · intro u
    rw [condemn_task hp, ← h.pid u]
    split
    · rfl
    · rfl
  · rw [condemn_current hp]
    exact h.current
  · rw [condemn_head hp]
    exact h.front
  · rw [condemn_nexts hp]
    exact h.behind

theorem Killing.destroy (h : Killing k0 l0 l k) (ht : t ∈ l) (hc : t ≠ k.current)
    (hs : (k.task t).state = .dead)
    (hz : ∀ q, (k.task t).process = some q → ∀ i, (k.entry q i).type = .none)
    (hd : k.removeAndDestroy env t = some k') : Killing k0 l0 (l.erase t) k' := by
  obtain ⟨hl', hdes⟩ := h.listed.destroy ht hc hd
  obtain ⟨p, hpu, _, hp⟩ := h.listed.owns t ht
  have hprocs : k'.procs = k.procs.free p := by
    rw [hdes.procs, hp]
    rfl
  have hentry : ∀ q i, k'.entry q i = k.entry q i := by
    intro q i
    unfold entry proc
    rw [hprocs]
    rfl
  have hsub : ∀ u ∈ l.erase t, u ∈ l := fun u hu => List.mem_of_mem_erase hu
  have htn : t ∉ l.erase t := h.listed.nodup.not_mem_erase
  refine ⟨hl', fun u hu => h.sub u (hsub u hu), ?_, ?_, ?_, ?_, ?_, ?_⟩
  · intro u hu hn
    rw [state_of_body (hdes.body u), process_of_body (hdes.body u), hprocs, hdes.used]
    by_cases hut : u = t
    · rw [hut]
      refine ⟨hs, p, hp, by simp, by simp, fun i => ?_⟩
      rw [hentry]
      exact hz p hp i
    · have hnl : u ∉ l := fun hm => hn ((List.mem_erase_of_ne hut).mpr hm)
      obtain ⟨hdead, q, hq, hqu, huu, htype⟩ := h.gone u hu hnl
      refine ⟨hdead, q, hq, ?_, ?_, fun i => ?_⟩
      · exact fun hm => hqu (Finset.mem_of_mem_erase hm)
      · exact fun hm => huu (Finset.mem_of_mem_erase hm)
      · rw [hentry]
        exact htype i
  · intro u
    rw [parent_of_body (hdes.body u)]
    exact h.parent u
  · intro u
    rw [pid_of_body (hdes.body u)]
    exact h.pid u
  · rw [hdes.current]
    exact h.current
  · rw [hdes.head]
    split
    · rename_i hh
      have hfront := h.front
      rw [hh] at hfront
      obtain ⟨c, d, hl0, hcl⟩ := hfront
      have hnext := (h.behind c t d hl0).mono hsub
      rw [hl0]
      exact Ahead.skip (fun x hx hm => hcl x hx (hsub x hm)) htn hnext
    · exact h.front.mono hsub
  · intro a u b hl0
    rw [hdes.nexts]
    split
    · rename_i hu
      have hbeh := h.behind a u b hl0
      rw [hu.2] at hbeh
      obtain ⟨c, d, rfl, hcl⟩ := hbeh
      have hl0' : l0 = (a ++ u :: c) ++ t :: d := by simp [hl0]
      have hnext := (h.behind _ t d hl0').mono hsub
      exact Ahead.skip (fun x hx hm => hcl x hx (hsub x hm)) htn hnext
    · exact (h.behind a u b hl0).mono hsub

/-- What is left of the list after `t` has been killed; the current task stays in it. -/
def spare (k : Kernel) (l : List Nat) (t : Nat) : List Nat := if t = k.current then l else l.erase t

theorem spare_subset (k : Kernel) (l : List Nat) (t : Nat) : ∀ u ∈ k.spare l t, u ∈ l := by
  intro u hu
  unfold spare at hu
  split at hu
  · exact hu
  · exact List.mem_of_mem_erase hu

theorem Killing.killOne (h : Killing k0 l0 l k) (ht : t ∈ l) (hk : k.killOne env t = some k') :
    Killing k0 l0 (k.spare l t) k' := by
  obtain ⟨p, _, _, hp⟩ := h.listed.owns t ht
  have hcon := h.condemn ht
  have hcur := condemn_current hp
  rw [killOne_eq] at hk
  unfold spare
  split
  · rename_i hc
    simp only [removeAndDestroy, hcur, if_pos hc, Option.some.injEq] at hk
    rw [← hk]
    exact hcon
  · rename_i hc
    refine hcon.destroy ht (by rw [hcur]; exact hc) ?_ ?_ hk
    · rw [condemn_task hp, if_pos rfl]
    · intro q hq i
      rw [condemn_task hp, if_pos rfl] at hq
      have hqp : q = p := Option.some.inj (hq.symm.trans hp)
      rw [condemn_type hp, if_pos hqp]

section tree

variable {I : List Nat → Kernel → Prop} {D : Nat → Prop}

/-- One kill as part of a larger one keeps `I`; by then only the current task and tasks that may
not be killed are left below `t`. -/
def KillStep (env : Env) (k0 : Kernel) (l0 : List Nat) (D : Nat → Prop)
    (I : List Nat → Kernel → Prop) : Prop :=
  ∀ {k l t k'}, Killing k0 l0 l k → I l k → t ∈ l → D t → 1 < (k.task t).pid →
    (∀ u ∈ l, k0.isChild t u = true → u = k0.current ∨ (k0.task u).pid ≤ 1) →
    k.killOne env t = some k' → I (k.spare l t) k'

def Killed (k0 : Kernel) (l0 l : List Nat) (I : List Nat → Kernel → Prop) (t : Nat) (k' : Kernel) :
    Prop :=
  ∃ l', Killing k0 l0 l' k' ∧ I l' k' ∧ (∀ u ∈ l', u ∈ l) ∧
    (t ∈ l' → t = k0.current ∨ (k0.task t).pid ≤ 1)

/-- The loop over the children of `t`, given what it does for each of them. -/
theorem Killing.walk {visit : Kernel → Nat → Option Kernel} (hD : ∀ u, k0.isChild t u = true → D u)
    (hchild : ∀ {k l u k'}, Killing k0 l0 l k → I l k → u ∈ l0 → D u → visit k u = some k' →
      Killed k0 l0 l I u k') :
    ∀ {n : Nat} {k k' : Kernel} {l b : List Nat} {a : Option Nat}, Killing k0 l0 l k → I l k →
      (∃ a0, l0 = a0 ++ b) → Ahead l b a →
      Kernel.walk (fun k u => if k.isChild t u then visit k u else some k) n k a = some k' →
      ∃ l', Killing k0 l0 l' k' ∧ I l' k' ∧ (∀ u ∈ l', u ∈ l) ∧
        ∀ u ∈ b, u ∈ l' → k0.isChild t u = true → u = k0.current ∨ (k0.task u).pid ≤ 1 := by
  intro n
  induction n with
  | zero =>
    intro k k' l b a h hi hb ha hw
    cases a with
    | none =>
      cases hw
      exact ⟨l, h, hi, fun _ hu => hu, fun u hu hm => absurd hm (ha u hu)⟩
    | some u => cases hw
  | succ n ih =>
    intro k k' l b a h hi hb ha hw
    cases a with
    | none =>
      cases hw
      exact ⟨l, h, hi, fun _ hu => hu, fun u hu hm => absurd hm (ha u hu)⟩
    | some u =>
      obtain ⟨a0, hl0⟩ := hb
      obtain ⟨c, d, rfl, hc⟩ := ha
      have hl0' : l0 = (a0 ++ c) ++ u :: d := by simp [hl0]
      have hul0 : u ∈ l0 := by simp [hl0]
      obtain ⟨k1, h1, h2⟩ := Option.bind_eq_some_iff.mp hw
      -- the visit of `u`: it is killed if it is a child, and else stays
      have hvisit : ∃ l1, Killing k0 l0 l1 k1 ∧ I l1 k1 ∧ (∀ x ∈ l1, x ∈ l) ∧
          (u ∈ l1 → k0.isChild t u = true → u = k0.current ∨ (k0.task u).pid ≤ 1) := by
        simp only [h.isChild] at h1
        split at h1
        · rename_i hch
          obtain ⟨l1, hk1, hi1, hs1, hu1⟩ := hchild h hi hul0 (hD u hch) h1
          exact ⟨l1, hk1, hi1, hs1, fun hm _ => hu1 hm⟩
        · rename_i hch
          cases h1
          exact ⟨l, h, hi, fun _ hx => hx, fun _ hc => absurd hc hch⟩
      obtain ⟨l1, hk1, hi1, hs1, hu1⟩ := hvisit
      have hnext : Ahead l1 d (k.task u).next := (h.behind _ u d hl0').mono hs1
      obtain ⟨l2, hk2, hi2, hs2, hd2⟩ := ih hk1 hi1 ⟨a0 ++ c ++ [u], by simp [hl0]⟩ hnext h2
      refine ⟨l2, hk2, hi2, fun x hx => hs1 x (hs2 x hx), fun x hx hm => ?_⟩
      simp only [List.mem_append, List.mem_cons] at hx
      rcases hx with hx | hx | hx
      · exact absurd (hs1 x (hs2 x hm)) (hc x hx)
      · rw [hx] at hm ⊢
        exact hu1 (hs2 u hm)
      · exact hd2 x hx hm

/-- `kill_task_tree`, for an invariant that each single kill keeps. -/
theorem Killing.tree (hD : ∀ t u, D t → k0.isChild t u = true → D u)
    (hone : KillStep env k0 l0 D I) {n : Nat} (h : Killing k0 l0 l k) (hi : I l k)
    (ht : t ∈ l0) (hDt : D t) (hk : killTaskTree env n k t = some k') :
    Killed k0 l0 l I t k' := by
  induction n generalizing k l t k' with
  | zero => cases hk
  | succ n ih =>
    unfold killTaskTree at hk
    split at hk
    · rename_i hpid
      cases hk
      rw [h.pid] at hpid
      exact ⟨l, h, hi, fun _ hu => hu, fun _ => Or.inr hpid⟩
    · rename_i hpid
      obtain ⟨k1, hw, hk⟩ := Option.bind_eq_some_iff.mp hk
      obtain ⟨l1, hk1, hi1, hs1, hc1⟩ := Killing.walk (hD t · hDt)
        (fun hq hiq hu hDu hv => ih hq hiq hu hDu hv) h hi ⟨[], rfl⟩ h.front hw
      by_cases htl : t ∈ l1
      · have hpid1 : 1 < (k1.task t).pid := by
          rw [hk1.pid, ← h.pid]
          omega
        refine ⟨k1.spare l1 t, hk1.killOne htl hk, ?_, ?_, ?_⟩
        · exact hone hk1 hi1 htl hDt hpid1 (fun u hu hch => hc1 u (hk1.sub u hu) hu hch) hk
        · exact fun u hu => hs1 u (spare_subset k1 l1 t u hu)
        · intro hm
          unfold spare at hm
          split at hm
          · rename_i hc
            rw [hk1.current] at hc
            exact Or.inl hc
          · exact absurd hm hk1.listed.nodup.not_mem_erase
      · rw [hk1.killOne_gone ht htl hk]
        exact ⟨l1, hk1, hi1, hs1, fun hm => absurd hm htl⟩

end tree

end LosTacOS.Os.Kernel
