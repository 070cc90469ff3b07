import LosTacOS.Os.Parents

/-! `kill_task_tree` saves the successor of a task before it kills the task, and the kill may
destroy that successor too. Here `sys_kill` looks at every task before it reads it: what happens to
a target whose children have no children themselves, and what happens to every other one. -/
namespace LosTacOS.Os.Kernel

/-- A read of the task `t`, which must not have been destroyed. -/
def look (k : Kernel) (t : Nat) : Option Task :=
  if t ∈ k.tasks.used then some (k.task t) else none

namespace Checked

variable (env : Env)

def walk (visit : Kernel → Nat → Option Kernel) : Nat → Kernel → Option Nat → Option Kernel
  | _, k, none => some k
  | 0, _, some _ => none
  | n + 1, k, some t => do
    let x ← k.look t
    let k ← visit k t
    walk visit n k x.next

def before (k : Kernel) (x : Nat) : Nat → Option Nat → Option (Option Nat)
  | _, none => some none
  | 0, some _ => none
  | n + 1, some t => do
    let y ← k.look t
    if y.next = some x then some (some t) else before k x n y.next

def unlink (k : Kernel) (t : Nat) : Option Kernel :=
  if k.head = some t then do
    let x ← k.look t
    let k := { k with head := x.next }
    some (if k.tail = some t then { k with tail := k.head } else k)
  else do
    match ← before k t env.fuel k.head with
    | none => some k
    | some p =>
      let x ← k.look t
      let y ← k.look p
      let k := k.setTask p { y with next := x.next }
      some (if k.tail = some t then { k with tail := some p } else k)

def removeAndDestroy (k : Kernel) (t : Nat) : Option Kernel :=
  if t = k.current then some k
  else do
    let k ← unlink env k t
    let x ← k.look t
    if env.frees (.task t) then
      let k := match x.process with
        | some p => { k with procs := k.procs.free p }
        | none => k
      some { k with tasks := k.tasks.free t }
    else none

def isChild (k : Kernel) (target t : Nat) : Option Bool :=
  if t = target then some false
  else do
    let x ← k.look t
    match x.parent with
    | none => some false
    | some q =>
      if q = target then some true
      else do
        let y ← k.look q
        let z ← k.look target
        some (y.pid = z.pid)

def killOne (k : Kernel) (target : Nat) : Option Kernel := do
  let x ← k.look target
  let k := match x.process with
    | some p => k.sysCloseAll p
    | none => k
  let x ← k.look target
  removeAndDestroy env (k.setTask target { x with state := .dead }) target

def killTaskTree : Nat → Kernel → Nat → Option Kernel
  | 0, _, _ => none
  | n + 1, k, target => do
    let x ← k.look target
    if x.pid ≤ 1 then some k
    else do
      let k ← walk (fun k t => do
        let child ← isChild k target t
        if child then killTaskTree n k t else some k) env.fuel k k.head
      killOne env k target

def findTask (k : Kernel) (pid : Nat) : Nat → Option Nat → Option (Option Nat)
  | _, none => some none
  | 0, some _ => none
  | n + 1, some t => do
    let x ← k.look t
    if x.pid = pid then some (some t) else findTask k pid n x.next

/-- `sys_kill`, where a read of a destroyed task is no result. -/
def sysKill (k : Kernel) (pid : Nat) (sig : Int) : Option (Int × Kernel) :=
  if pid ≤ 1 then some (-1, k)
  else do
    let x ← k.look k.current
    if x.pid = pid then do
      let k ← k.exit env (if sig = 0 then 9 else sig)
      some (0, k)
    else do
      match ← findTask k pid env.fuel k.head with
      | some t =>
        let k ← killTaskTree env env.fuel k t
        some (0, k)
      | none => some (-1, k)

end Checked

variable {env : Env} {k k' k0 k1 : Kernel} {l l0 l1 b : List Nat} {t u p : Nat} {a : Option Nat}

theorem look_used (h : t ∈ k.tasks.used) : k.look t = some (k.task t) := if_pos h

theorem look_of_taskSide (h : k'.taskSide = k.taskSide) (t : Nat) : k'.look t = k.look t := by
  unfold look task
  rw [tasks_of_taskSide h]

section erasure

/-! A run that reads no destroyed task is the run of `sys_kill` itself. -/

end erasure

section alive

/-! While all tasks of the list are there, looking at them changes nothing. -/

theorem before_checked {x n : Nat} (hc : Chain k.nexts a l none)
    (hu : ∀ u ∈ l, u ∈ k.tasks.used) : Checked.before k x n a = k.before x n a := by
  induction l generalizing a n with
  | nil =>
    cases hc
    cases n with
    | zero => rfl
    | succ n => rfl
  | cons y l ih =>
    cases hc.1
    cases n with
    | zero => rfl
    | succ n =>
      have hrest : Checked.before k x n (k.task y).next = k.before x n (k.task y).next :=
        ih hc.2 fun u hm => hu u (List.mem_cons_of_mem y hm)
      unfold Checked.before before
      rw [look_used (hu y List.mem_cons_self), Option.bind_eq_bind, Option.bind_some, hrest]

theorem before_mem {x n : Nat} (hc : Chain k.nexts a l none)
    (h : k.before x n a = some (some p)) : p ∈ l := by
  induction l generalizing a n with
  | nil =>
    cases hc
    cases n with
    | zero => cases h
    | succ n => cases h
  | cons y l ih =>
    cases hc.1
    cases n with
    | zero => cases h
    | succ n =>
      unfold before at h
      split at h
      · cases h
        exact List.mem_cons_self
      · exact List.mem_cons_of_mem y (ih hc.2 h)

theorem Listed.mem_used (hl : Listed k l) (ht : t ∈ l) : t ∈ k.tasks.used :=
  (hl.used t).mpr (Or.inr ht)

theorem unlink_checked (hl : Listed k l) (ht : t ∈ l) :
    Checked.unlink env k t = k.unlink env t := by
  unfold Checked.unlink unlink
  rw [look_used (hl.mem_used ht), before_checked hl.chain fun u hu => hl.mem_used hu]
  by_cases hh : k.head = some t
  · rw [if_pos hh, if_pos hh]
    rfl
  · rw [if_neg hh, if_neg hh]
    cases hb : k.before t env.fuel k.head with
    | none => rfl
    | some r =>
      cases r with
      | none => rfl
      | some p =>
        simp only [Option.bind_eq_bind, Option.bind_some,
          look_used (hl.mem_used (before_mem hl.chain hb))]

theorem removeAndDestroy_checked (hl : Listed k l) (ht : t ∈ l) :
    Checked.removeAndDestroy env k t = k.removeAndDestroy env t := by
  unfold Checked.removeAndDestroy removeAndDestroy
  rw [unlink_checked hl ht]
  cases hu : k.unlink env t with
  | none => rfl
  | some k1 =>
    have hused : t ∈ k1.tasks.used := by
      rw [(hl.toTaskList.queued.unlink ht hu).used]
      exact hl.mem_used ht
    rw [Option.bind_eq_bind, Option.bind_some, Option.bind_eq_bind, Option.bind_some,
      look_used hused]
    rfl

theorem killOne_checked (hl : Listed k l) (ht : t ∈ l) :
    Checked.killOne env k t = k.killOne env t := by
  obtain ⟨p, _, _, hp⟩ := hl.owns t ht
  have hlook := look_of_taskSide (sysCloseAll_taskSide k p) t
  rw [killOne_eq, ← removeAndDestroy_checked (hl.condemn ht) ht, condemn_eq hp]
  unfold Checked.killOne
  rw [look_used (hl.mem_used ht), Option.bind_eq_bind, Option.bind_some, hp]
  dsimp only
  rw [hlook, look_used (hl.mem_used ht), Option.bind_some]

theorem isChild_checked (ht : t ∈ k.tasks.used) (hu : u ∈ k.tasks.used)
    (hq : ∀ q, (k.task u).parent = some q → q ∈ k.tasks.used) :
    Checked.isChild k t u = some (k.isChild t u) := by
  unfold Checked.isChild isChild
  by_cases hut : u = t
  · rw [if_pos hut]
    simp [hut]
  · rw [if_neg hut, look_used hu, Option.bind_eq_bind, Option.bind_some]
    cases hp : (k.task u).parent with
    | none => simp
    | some q =>
      dsimp only
      by_cases hqt : q = t
      · rw [if_pos hqt]
        simp [hut, hqt]
      · rw [if_neg hqt, look_used (hq q hp), Option.bind_some, look_used ht, Option.bind_some]
        simp [hut, hqt]

theorem killOne_isSome (hl : Listed k l) (ht : t ∈ l) (hf : l.length ≤ env.fuel)
    (hfree : t ≠ k.current → env.frees (.task t) = true) : ∃ k', k.killOne env t = some k' := by
  obtain ⟨p, _, _, hp⟩ := hl.owns t ht
  rw [killOne_eq]
  refine Option.isSome_iff_exists.mp ((hl.condemn ht).toTaskList.queued.destroy_isSome hf ?_)
  rw [condemn_current hp]
  exact hfree

theorem walk_idle {visit : Kernel → Nat → Option Kernel} {n : Nat} (hc : Chain k.nexts a l none)
    (hu : ∀ u ∈ l, u ∈ k.tasks.used) (hv : ∀ u ∈ l, visit k u = some k) (hn : l.length ≤ n) :
    Checked.walk visit n k a = some k := by
  induction l generalizing a n with
  | nil =>
    cases hc
    cases n with
    | zero => rfl
    | succ n => rfl
  | cons y l ih =>
    cases hc.1
    obtain ⟨m, rfl⟩ : ∃ m, n = m + 1 := ⟨n - 1, by simp at hn; omega⟩
    have hrest := ih hc.2 (fun u hm => hu u (List.mem_cons_of_mem y hm))
      (fun u hm => hv u (List.mem_cons_of_mem y hm)) (by simpa using hn)
    unfold Checked.walk
    rw [look_used (hu y List.mem_cons_self), Option.bind_eq_bind, Option.bind_some,
      hv y List.mem_cons_self]
    exact hrest

end alive

structure Same (k k' : Kernel) (u : Nat) : Prop where
  body : (k'.task u).body = (k.task u).body
  proc : ∀ p, (k.task u).process = some p → k'.proc p = k.proc p

theorem Same.refl (k : Kernel) (u : Nat) : Same k k u := ⟨rfl, fun _ _ => rfl⟩

theorem Same.trans {k2 : Kernel} (h : Same k k1 u) (h' : Same k1 k2 u) : Same k k2 u := by
  refine ⟨h'.body.trans h.body, fun p hp => ?_⟩
  rw [h'.proc p ((process_of_body h.body).trans hp)]
  exact h.proc p hp

section one

theorem closeEntry_proc (k : Kernel) (p : Nat) (i : Fin maxFds) {q : Nat} (hq : q ≠ p) :
    (closeEntry p k i).proc q = k.proc q := by
  cases closeEntry_rest k p i with
  | inl h => rw [h.1]
  | inr h =>
    obtain ⟨_, _, _, h⟩ := h
    rw [h]
    simp only [proc, setEntry, setProc, Arena.set_cell, if_neg hq]

theorem sysCloseAll_proc (k : Kernel) (p : Nat) {q : Nat} (hq : q ≠ p) :
    (k.sysCloseAll p).proc q = k.proc q := by
  have hfold : ∀ (is : List (Fin maxFds)) (k : Kernel),
      (is.foldl (closeEntry p) k).proc q = k.proc q := by
    intro is
    induction is with
    | nil => intro k; rfl
    | cons i is ih =>
      intro k
      rw [List.foldl_cons, ih, closeEntry_proc k p i hq]
  exact hfold _ k

theorem Listed.process_ne (hl : Listed k l) (ht : t ∈ l) (hu : u ∈ k.tasks.used) (hut : u ≠ t)
    {q : Nat} (hp : (k.task t).process = some p) (hq : (k.task u).process = some q) : q ≠ p := by
  intro he
  rw [he] at hq
  cases (hl.used u).mp hu with
  | inl h0 =>
    obtain ⟨r, _, hr0, hr⟩ := hl.owns t ht
    rw [h0, hl.idleProc] at hq
    rw [hp] at hr
    cases hq
    cases hr
    exact hr0 rfl
  | inr hm => exact hut (hl.distinct u hm t ht (hq.trans hp.symm))

/-- What one kill does to the tasks: the others stay as they are, the current task stays listed. -/
structure Struck (k : Kernel) (l : List Nat) (t : Nat) (k' : Kernel) : Prop where
  others : ∀ u ∈ k.tasks.used, u ≠ t → Same k k' u
  dead : (k'.task t).state = .dead
  behind : ∀ l1 l2, l = l1 ++ t :: l2 → Chain k.nexts (k.nexts t) l2 none →
    Chain k'.nexts (k.nexts t) l2 none

theorem Listed.struck (hl : Listed k l) (ht : t ∈ l) (hk : k.killOne env t = some k') :
    Struck k l t k' := by
  obtain ⟨p, _, _, hp⟩ := hl.owns t ht
  have hsame : ∀ u ∈ k.tasks.used, u ≠ t → Same k (k.condemn t) u := by
    intro u hu hut
    refine ⟨by rw [condemn_task hp, if_neg hut], fun q hq => ?_⟩
    unfold proc
    rw [condemn_procs hp]
    exact sysCloseAll_proc k p (hl.process_ne ht hu hut hp hq)
  have hdead : ((k.condemn t).task t).state = .dead := by rw [condemn_task hp, if_pos rfl]
  rw [killOne_eq] at hk
  by_cases hc : t = (k.condemn t).current
  · simp only [removeAndDestroy, if_pos hc, Option.some.injEq] at hk
    rw [← hk]
    refine ⟨hsame, hdead, fun l1 l2 _ hch => ?_⟩
    rw [condemn_nexts hp]
    exact hch
  · have hlc := hl.condemn ht
    obtain ⟨_, hdes⟩ := hlc.destroy ht hc hk
    refine ⟨fun u hu hut => (hsame u hu hut).trans ⟨hdes.body u, fun q hq => ?_⟩, ?_, ?_⟩
    · unfold proc
      rw [hdes.procs]
      cases ((k.condemn t).task t).process with
      | none => rfl
      | some r => rfl
    · rw [state_of_body (hdes.body t)]
      exact hdead
    · intro l1 l2 he _
      rw [he] at hdes hlc
      have hch := hdes.chain_behind hlc.chain hlc.nodup
      rw [condemn_nexts hp] at hch
      exact hch

end one

/-- The parents form a forest. The pids are different, and only the first process has one that
`kill_task_tree` would spare. -/
structure Forest (k : Kernel) (l : List Nat) : Prop extends Kin k l where
  acyclic : ∃ rank : Nat → Nat, ∀ u ∈ l, ∀ q, (k.task u).parent = some q → rank q < rank u
  pids : ∀ u ∈ k.tasks.used, ∀ v ∈ k.tasks.used, (k.task u).pid = (k.task v).pid → u = v
  first : ∀ u ∈ l, (k.task u).pid ≤ 1 → ∀ q ∈ l, (k.task u).parent ≠ some q

theorem Forest.parent_ne (h : Forest k l) (ht : t ∈ l) : (k.task t).parent ≠ some t := by
  obtain ⟨rank, hrank⟩ := h.acyclic
  exact fun he => Nat.lt_irrefl _ (hrank t ht t he)

/-- The children of a task are recognised, and nothing else is. -/
theorem Forest.isChild_eq (h : Forest k l) (ht : t ∈ l) (hu : u ∈ l) :
    k.isChild t u = decide ((k.task u).parent = some t) := by
  unfold isChild
  by_cases hut : u = t
  · rw [hut]
    simp [h.parent_ne ht]
  · cases hq : (k.task u).parent with
    | none => simp
    | some q =>
      have hpid : (k.task q).pid = (k.task t).pid → q = t :=
        h.pids q ((h.used q).mpr (h.alive u hu q hq)) t (h.mem_used ht)
      by_cases hqt : q = t
      · simp [hut, hqt]
      · simp [hut, hqt, mt hpid hqt]

theorem Forest.pid_of_child (h : Forest k l) (ht : t ∈ l) (hu : u ∈ l)
    (hp : (k.task u).parent = some t) : 1 < (k.task u).pid := by
  by_contra hle
  exact h.first u hu (by omega) t ht hp

inductive Descends (k : Kernel) (t : Nat) : Nat → Prop
  | self : Descends k t t
  | child {u v : Nat} (h : Descends k t u) (hv : (k.task v).parent = some u) : Descends k t v

section flat

def Flat (k : Kernel) (l : List Nat) (t : Nat) : Prop :=
  ∀ c ∈ l, (k.task c).parent = some t → ∀ g ∈ l, (k.task g).parent ≠ some c

/-- The loop over the children of `t`: those of `l1` have been visited. -/
structure Clearing (k0 : Kernel) (l0 : List Nat) (t : Nat) (l1 l2 : List Nat) (k : Kernel) :
    Prop where
  killing : Killing k0 l0 (l1 ++ l2) k
  kept : ∀ u ∈ l0, (k0.task u).parent ≠ some t → u ∈ l1 ++ l2
  others : ∀ u ∈ k0.tasks.used, (k0.task u).parent ≠ some t → Same k0 k u
  dead : (k0.task k0.current).parent = some t → k0.current ∈ l1 →
    (k.task k0.current).state = .dead

variable {l2 : List Nat}

/-- The parents of the tasks that are left are left as well. -/
theorem Clearing.parent_used (h : Clearing k0 l0 t l1 l2 k) (hf : Forest k0 l0)
    (hflat : Flat k0 l0 t) (hu : u ∈ l0) {q : Nat} (hq : (k0.task u).parent = some q) :
    q ∈ k.tasks.used := by
  rw [h.killing.listed.used]
  cases hf.alive u hu q hq with
  | inl h0 => exact Or.inl h0
  | inr hm => exact Or.inr (h.kept q hm fun hqt => hflat q hm hqt u hu hq)

theorem Clearing.isChild (h : Clearing k0 l0 t l1 l2 k) (hf : Forest k0 l0)
    (hflat : Flat k0 l0 t) {c : Nat} (hc : c ∈ l1 ++ l2) (hu : u ∈ l1 ++ l2) :
    Checked.isChild k c u = some (decide ((k0.task u).parent = some c)) := by
  have hcl0 := h.killing.sub c hc
  have hul0 := h.killing.sub u hu
  have hl := h.killing.listed
  rw [isChild_checked (hl.mem_used hc) (hl.mem_used hu), h.killing.isChild,
    hf.isChild_eq hcl0 hul0]
  intro q hq
  rw [h.killing.parent] at hq
  exact h.parent_used hf hflat hul0 hq

theorem Clearing.leaf {n : Nat} (h : Clearing k0 l0 t l1 l2 k) (hf : Forest k0 l0)
    (hflat : Flat k0 l0 t) (hfuel : l0.length ≤ env.fuel) {c : Nat} (hc : c ∈ l1 ++ l2)
    (hpid : 1 < (k0.task c).pid) (hno : ∀ g ∈ l0, (k0.task g).parent ≠ some c) :
    Checked.killTaskTree env (n + 1) k c = k.killOne env c := by
  have hl := h.killing.listed
  have hlen : (l1 ++ l2).length ≤ env.fuel :=
    Nat.le_trans (hl.nodup.subperm h.killing.sub).length_le hfuel
  have hwalk : Checked.walk (fun k u => do
      let child ← Checked.isChild k c u
      if child then Checked.killTaskTree env n k u else some k) env.fuel k k.head = some k := by
    refine walk_idle hl.chain (fun u hu => hl.mem_used hu) (fun u hu => ?_) hlen
    rw [h.isChild hf hflat hc hu, decide_eq_false (hno u (h.killing.sub u hu))]
    rfl
  unfold Checked.killTaskTree
  rw [look_used (hl.mem_used hc), Option.bind_eq_bind, Option.bind_some, h.killing.pid,
    if_neg (by omega), hwalk]
  exact killOne_checked hl hc

/-- The tasks of the list that the loop over the children of `t` leaves in it. -/
def stays (k : Kernel) (t u : Nat) : Bool := (k.task u).parent ≠ some t || u = k.current

/-- The kill of a child of `t`. -/
theorem Clearing.strike {c : Nat} (h : Clearing k0 l0 t l1 (c :: l2) k) (hf : Forest k0 l0)
    (hp : (k0.task c).parent = some t) (hk : k.killOne env c = some k') :
    Clearing k0 l0 t (l1 ++ [c].filter (k0.stays t)) l2 k' := by
  have hc : c ∈ l1 ++ c :: l2 := by simp
  have hl := h.killing.listed
  have hsplit : l1 ++ c :: l2 = (l1 ++ [c]) ++ l2 := by simp
  have hstruck := hl.struck hc hk
  have hkill := h.killing.killOne hc hk
  have hothers : ∀ u ∈ k0.tasks.used, (k0.task u).parent ≠ some t → Same k0 k' u := by
    intro u hu hup
    have huc : u ≠ c := fun he => hup (he ▸ hp)
    have hused : u ∈ k.tasks.used := by
      rw [hl.used]
      exact ((hf.used u).mp hu).imp_right fun hm => h.kept u hm hup
    exact (h.others u hu hup).trans (hstruck.others u hused huc)
  unfold spare at hkill
  rw [h.killing.current] at hkill
  by_cases hcur : c = k0.current
  · rw [if_pos hcur, hsplit] at hkill
    rw [List.filter_cons_of_pos (by simp [stays, hcur]), List.filter_nil]
    refine ⟨hkill, fun u hu hup => hsplit ▸ h.kept u hu hup, hothers, fun _ _ => ?_⟩
    rw [← hcur]
    exact hstruck.dead
  · have hcl1 : c ∉ l1 := fun hm =>
      (List.nodup_append.mp hl.nodup).2.2 c hm c List.mem_cons_self rfl
    rw [if_neg hcur, List.erase_append_right _ hcl1, List.erase_cons_head] at hkill
    rw [List.filter_cons_of_neg (by simp [stays, hp, hcur]), List.filter_nil, List.append_nil]
    refine ⟨hkill, fun u hu hup => ?_, hothers, fun hcp hcm => ?_⟩
    · have huc : u ≠ c := fun he => hup (he ▸ hp)
      simpa [huc] using h.kept u hu hup
    · have hused : k0.current ∈ k.tasks.used := hl.mem_used (List.mem_append_left _ hcm)
      rw [state_of_body (hstruck.others k0.current hused fun he => hcur he.symm).body]
      exact h.dead hcp hcm

/-- The visit of a task in the loop over the children of `t`. -/
theorem Clearing.visit {n c : Nat} (h : Clearing k0 l0 t l1 (c :: l2) k)
    (hf : Forest k0 l0) (hflat : Flat k0 l0 t) (ht : t ∈ l0) (hfuel : l0.length ≤ env.fuel)
    (hback : ∀ u ∈ l0, (k0.task u).parent = some t → u ≠ k0.current → env.frees (.task u) = true)
    (hbehind : Chain k.nexts (k.nexts c) l2 none) :
    ∃ k', (do
        let child ← Checked.isChild k t c
        if child then Checked.killTaskTree env (n + 1) k c else some k) = some k' ∧
      Clearing k0 l0 t (l1 ++ [c].filter (k0.stays t)) l2 k' ∧
      Chain k'.nexts (k.nexts c) l2 none := by
  have hc : c ∈ l1 ++ c :: l2 := by simp
  have hcl0 := h.killing.sub c hc
  have hl := h.killing.listed
  rw [h.isChild hf hflat (h.kept t ht (hf.parent_ne ht)) hc]
  by_cases hp : (k0.task c).parent = some t
  · have hpid := hf.pid_of_child ht hcl0 hp
    have hlen : (l1 ++ c :: l2).length ≤ env.fuel :=
      Nat.le_trans (hl.nodup.subperm h.killing.sub).length_le hfuel
    have hfree : c ≠ k.current → env.frees (.task c) = true := by
      rw [h.killing.current]
      exact hback c hcl0 hp
    obtain ⟨k', hk'⟩ : ∃ k', k.killOne env c = some k' := killOne_isSome hl hc hlen hfree
    refine ⟨k', ?_, h.strike hf hp hk', (hl.struck hc hk').behind l1 l2 rfl hbehind⟩
    rw [decide_eq_true hp]
    simp only [Option.bind_eq_bind, Option.bind_some, if_true]
    rw [h.leaf hf hflat hfuel hc hpid (hflat c hcl0 hp)]
    exact hk'
  · have hsplit : l1 ++ c :: l2 = (l1 ++ [c]) ++ l2 := by simp
    rw [decide_eq_false hp, List.filter_cons_of_pos (by simp [stays, hp]), List.filter_nil]
    refine ⟨k, rfl, ⟨?_, ?_, h.others, fun hcp hcm => ?_⟩, hbehind⟩
    · rw [← hsplit]
      exact h.killing
    · rw [← hsplit]
      exact h.kept
    · have hne : k0.current ≠ c := fun he => hp (he ▸ hcp)
      exact h.dead hcp (by simpa [hne] using hcm)

end flat

section grandchild

variable {c g n : Nat} {pre post : List Nat}

end grandchild

section orders

variable {k2 : Kernel} {l2 : List Nat} {pid : Nat}

def linkAll : List Nat → Kernel → Kernel
  | [], k => k
  | t :: l, k => (linkAll l k).setNext t l.head?

/-- The same tasks in the order `l`. -/
def relink (k : Kernel) (l : List Nat) : Kernel :=
  { linkAll l k with head := l.head?, tail := l.getLast? }

theorem linkAll_relinked (l : List Nat) (k : Kernel) : Relinked k (linkAll l k) := by
  induction l with
  | nil => exact Relinked.refl k
  | cons t l ih => exact ih.trans (setNext_relinked _ t l.head?)

theorem relink_relinked (k : Kernel) (l : List Nat) : Relinked k (k.relink l) := by
  have h := linkAll_relinked l k
  obtain ⟨tasks, _, _, hk⟩ := h.rest
  refine ⟨⟨tasks, l.head?, l.getLast?, ?_⟩, h.used, h.body⟩
  unfold relink
  rw [hk]

theorem linkAll_out (h : t ∉ l) : (linkAll l k).nexts t = k.nexts t := by
  induction l with
  | nil => rfl
  | cons u l ih =>
    have hne : t ≠ u := fun he => h (by simp [he])
    unfold linkAll
    rw [nexts_setNext, Function.update_of_ne hne]
    exact ih fun hm => h (List.mem_cons_of_mem u hm)

theorem linkAll_chain (h : l.Nodup) : Chain (linkAll l k).nexts l.head? l none := by
  induction l with
  | nil => rfl
  | cons t l ih =>
    have hn := List.nodup_cons.mp h
    refine ⟨rfl, ?_⟩
    unfold linkAll
    rw [nexts_setNext, Function.update_self]
    exact (ih hn.2).update hn.1 _

theorem Relinked.current_eq (h : Relinked k k2) : k2.current = k.current := by
  obtain ⟨_, _, _, hk⟩ := h.rest
  rw [hk]

theorem Relinked.procs_eq (h : Relinked k k2) : k2.procs = k.procs := by
  obtain ⟨_, _, _, hk⟩ := h.rest
  rw [hk]

theorem Listed.reorder (hl : Listed k l) (hr : Relinked k k2) (ht : TaskList k2 l2)
    (hm : ∀ u, u ∈ l2 ↔ u ∈ l) : Listed k2 l2 := by
  have hproc : ∀ u, (k2.task u).process = (k.task u).process := fun u =>
    process_of_body (hr.body u)
  refine ⟨ht, fun u => ?_, ?_, ?_, fun u hu => ?_, fun u hu v hv => ?_, fun u hu => ?_⟩
  · rw [hr.used, hl.used, hm]
  · rw [hproc]
    exact hl.idleProc
  · rw [hr.procs_eq]
    exact hl.idleUsed
  · rw [hproc, hr.procs_eq]
    exact hl.owns u ((hm u).mp hu)
  · rw [hproc, hproc]
    exact hl.distinct u ((hm u).mp hu) v ((hm v).mp hv)
  · rw [state_of_body (hr.body u), hr.current_eq]
    exact hl.running u ((hm u).mp hu)

theorem Listed.relink (hl : Listed k l) (hp : l2.Perm l) : Listed (k.relink l2) l2 := by
  have hd : l2.Nodup := hp.nodup_iff.mpr hl.nodup
  have h0 : 0 ∉ l2 := fun h => hl.idle (hp.mem_iff.mp h)
  refine hl.reorder (relink_relinked k l2) ⟨linkAll_chain hd, hd, rfl, h0, ?_, ?_⟩
    fun u => hp.mem_iff
  · exact (linkAll_out h0).trans hl.idleNext
  · rw [(relink_relinked k l2).current_eq]
    exact hl.current.imp_right hp.mem_iff.mpr

theorem Relinked.mem_iff (hr : Relinked k k2) (hl : Listed k l) (hl2 : Listed k2 l2) :
    u ∈ l2 ↔ u ∈ l := by
  have h2 := hl2.used u
  rw [hr.used, hl.used] at h2
  have hz : u = 0 → u ∉ l ∧ u ∉ l2 := by
    rintro rfl
    exact ⟨hl.idle, hl2.idle⟩
  tauto

theorem Forest.reorder (hf : Forest k l) (hr : Relinked k k2) (hl2 : Listed k2 l2) :
    Forest k2 l2 := by
  have hm : ∀ u, u ∈ l2 ↔ u ∈ l := fun u => hr.mem_iff hf.toListed hl2
  have hpar : ∀ u, (k2.task u).parent = (k.task u).parent := fun u => parent_of_body (hr.body u)
  have hpid : ∀ u, (k2.task u).pid = (k.task u).pid := fun u => pid_of_body (hr.body u)
  refine ⟨⟨hl2, fun u hu q => ?_, ?_⟩, ?_, ?_, fun u hu => ?_⟩
  · rw [hpar, hm]
    exact hf.alive u ((hm u).mp hu) q
  · rw [hpar]
    exact hf.idleParent
  · obtain ⟨rank, hrank⟩ := hf.acyclic
    refine ⟨rank, fun u hu q => ?_⟩
    rw [hpar]
    exact hrank u ((hm u).mp hu) q
  · rw [hr.used]
    intro u hu v hv
    rw [hpid, hpid]
    exact hf.pids u hu v hv
  · rw [hpid]
    intro hle q hq
    rw [hpar]
    exact hf.first u ((hm u).mp hu) hle q ((hm q).mp hq)

theorem Descends.keep (h : k.Descends t u)
    (hp : ∀ v, (k2.task v).parent = (k.task v).parent) : k2.Descends t u := by
  induction h with
  | self => exact .self
  | child _ hv ih =>
    rw [← hp] at hv
    exact .child ih hv

theorem Flat.reorder (h : Flat k l t) (hr : Relinked k k2) (hm : ∀ u, u ∈ l2 ↔ u ∈ l) :
    Flat k2 l2 t := by
  intro c hc
  rw [parent_of_body (hr.body c)]
  intro hp g hg
  rw [parent_of_body (hr.body g)]
  exact h c ((hm c).mp hc) hp g ((hm g).mp hg)

section back

def Lets (env : Env) (k k' : Kernel) : Prop :=
  ∀ u ∈ k.tasks.used, u ∉ k'.tasks.used → env.frees (.task u) = true

theorem Lets.of_used (h : k'.tasks.used = k.tasks.used) : Lets env k k' := by
  intro u hu hn
  rw [h] at hn
  exact absurd hu hn

theorem Lets.trans {k2 : Kernel} (h : Lets env k k1) (h' : Lets env k1 k2) : Lets env k k2 := by
  intro u hu hn
  by_cases hm : u ∈ k1.tasks.used
  · exact h' u hm hn
  · exact h u hu hm

end back

end orders

end LosTacOS.Os.Kernel
