import LosTacOS.Os.TaskList
import Mathlib.Data.List.Rotate

/-! `sched::schedule` picks tasks round robin. -/
namespace LosTacOS.Os.Kernel

variable {env : Env} {k k' : Kernel} {l r : List Nat} {c t h : Nat}

/-- The list in cyclic order from behind `c` on, with `c` last; from its head if `c` is not listed. -/
def ring (l : List Nat) (c : Nat) : List Nat :=
  if c ∈ l then (l.dropWhile (· ≠ c)).tail ++ l.takeWhile (· ≠ c) ++ [c] else l

theorem ring_split {a b : List Nat} (ha : c ∉ a) : ring (a ++ c :: b) c = b ++ a ++ [c] := by
  have hdrop : (a ++ c :: b).dropWhile (· ≠ c) = c :: b := by
    rw [List.dropWhile_append_of_pos]
    · simp
    · intro x hx
      simp only [ne_eq, decide_not, Bool.not_eq_eq_eq_not, Bool.not_true, decide_eq_false_iff_not]
      rintro rfl
      exact ha hx
  have htake : (a ++ c :: b).takeWhile (· ≠ c) = a := by
    rw [List.takeWhile_append_of_pos]
    · simp
    · intro x hx
      simp only [ne_eq, decide_not, Bool.not_eq_eq_eq_not, Bool.not_true, decide_eq_false_iff_not]
      rintro rfl
      exact ha hx
  rw [ring, if_pos (by simp), hdrop, htake, List.tail_cons]

theorem ring_perm (hd : l.Nodup) : (ring l c).Perm l := by
  by_cases hc : c ∈ l
  · obtain ⟨a, b, rfl⟩ := List.append_of_mem hc
    have ha : c ∉ a := fun hm => (List.nodup_append.mp hd).2.2 c hm c List.mem_cons_self rfl
    rw [ring_split ha, List.append_assoc]
    refine List.perm_append_comm.trans ?_
    simp
  · rw [ring, if_neg hc]

section cycle

def Cycle (f : Nat → Nat) (r : List Nat) : Prop :=
  ∀ a x b, r = a ++ x :: b → some (f x) = (b ++ r).head?

theorem cycle_of_chain (hc : Chain k.nexts k.head l none) (hh : k.head = some h) :
    Cycle (k.ringNext h) l := by
  intro a x b hr
  have hb : Chain k.nexts (k.nexts x) b none := by
    rw [hr] at hc
    exact (Chain.middle_iff.mp hc).2
  cases b with
  | nil =>
    have hx : (k.task x).next = none := hb
    cases l with
    | nil => simp at hr
    | cons y l =>
      have hy : h = y := Option.some.inj (hh.symm.trans hc.1)
      simp [ringNext, hx, hy]
  | cons y b =>
    have hx : (k.task x).next = some y := hb.1
    simp [ringNext, hx]

theorem Cycle.turn {f : Nat → Nat} {u v : List Nat} (hr : Cycle f (u ++ v)) : Cycle f (v ++ u) := by
  intro a x b hvu
  have hhead : ∀ {w : List Nat} {y z : List Nat}, w ≠ [] → (w ++ y).head? = (w ++ z).head? := by
    intro w y z hw
    cases w with
    | nil => exact absurd rfl hw
    | cons i w => rfl
  rcases List.append_eq_append_iff.mp hvu with ⟨w, ha, hu⟩ | ⟨w, hv, hb⟩
  · have hux : u ++ v = w ++ x :: (b ++ v) := by simp [hu]
    have hf := hr w x (b ++ v) hux
    rw [hf, hu]
    cases b with
    | nil =>
      cases v with
      | nil => simp
      | cons y v => simp
    | cons y b => simp
  · cases w with
    | nil =>
      simp only [List.nil_append] at hb
      have hux : u ++ v = [] ++ x :: (b ++ v) := by simp [← hb]
      have hf := hr [] x (b ++ v) hux
      rw [hf, ← hb]
      cases b with
      | nil =>
        cases v with
        | nil => simp
        | cons y v => simp
      | cons y b => simp
    | cons y w =>
      simp only [List.cons_append, List.cons.injEq] at hb
      have hux : u ++ v = (u ++ a) ++ x :: w := by simp [hv, hb.1]
      have hf := hr (u ++ a) x w hux
      rw [hf, hb.2]
      cases w with
      | nil =>
        cases u with
        | nil => simp
        | cons i u => simp
      | cons i w => simp

theorem cycle_ring (hc : Chain k.nexts k.head l none) (hd : l.Nodup) (hh : k.head = some h) :
    Cycle (k.ringNext h) (ring l c) := by
  have hl := cycle_of_chain hc hh
  by_cases hm : c ∈ l
  · obtain ⟨a, b, rfl⟩ := List.append_of_mem hm
    have ha : c ∉ a := fun hm => (List.nodup_append.mp hd).2.2 c hm c List.mem_cons_self rfl
    rw [ring_split ha, List.append_assoc]
    refine Cycle.turn ?_
    simpa using hl
  · rwa [ring, if_neg hm]

/-- The search stops at the first element that will do, or is back at its start. -/
theorem seek_from {p : Task → Bool} {start : Nat} {rest pre s : List Nat} {x n : Nat}
    (hcyc : Cycle (k.ringNext h) (start :: rest)) (hd : (start :: rest).Nodup)
    (hr : start :: rest = pre ++ x :: s) (hn : s.length < n) :
    k.seek p h start n x = some (((x :: s).find? fun t => p (k.task t)).getD start) := by
  induction s generalizing pre x n with
  | nil =>
    obtain ⟨m, rfl⟩ : ∃ m, n = m + 1 := ⟨n - 1, by simp at hn; omega⟩
    have hnext : k.ringNext h x = start := by
      have := hcyc pre x [] hr
      simpa using this
    unfold seek
    by_cases hp : p (k.task x) = true
    · simp [hp]
    · simp [hp, hnext]
  | cons y s ih =>
    obtain ⟨m, rfl⟩ : ∃ m, n = m + 1 := ⟨n - 1, by simp at hn; omega⟩
    have hnext : k.ringNext h x = y := by
      have := hcyc pre x (y :: s) hr
      simpa using this
    have hys : y ≠ start := by
      intro he
      rw [he] at hr
      rw [hr] at hd
      cases pre with
      | nil =>
        simp only [List.nil_append, List.cons.injEq] at hr
        rw [← hr.1] at hd
        simp at hd
      | cons z pre =>
        simp only [List.cons_append, List.cons.injEq] at hr
        rw [← hr.1] at hd
        simp at hd
    unfold seek
    by_cases hp : p (k.task x) = true
    · simp [hp]
    · rw [if_neg hp, hnext, if_neg hys,
        List.find?_cons_of_neg (p := fun t => p (k.task t)) hp]
      have hr' : start :: rest = (pre ++ [x]) ++ y :: s := by simpa using hr
      exact ih hr' (by simpa using hn)

theorem seek_ring {p : Task → Bool} {start : Nat} {rest : List Nat} {n : Nat}
    (hcyc : Cycle (k.ringNext h) (start :: rest)) (hd : (start :: rest).Nodup)
    (hn : (start :: rest).length ≤ n) :
    k.seek p h start n start =
      some (((start :: rest).find? fun t => p (k.task t)).getD start) :=
  seek_from hcyc hd (List.nil_append _).symm hn

end cycle

section pick

def ready (k : Kernel) (t : Nat) : Bool :=
  (k.task t).state = .ready || (t = k.current && (k.task t).state = .running)

theorem suspend_task (k : Kernel) (old u : Nat) : (k.suspend old).task u =
    if u = k.current then
      { k.task u with
        regs := old
        state := if (k.task u).state = .running then .ready else (k.task u).state }
    else k.task u := by
  simp only [suspend, setTask, task, Arena.set_cell]
  split
  · rename_i hu
    rw [hu]
  · rfl

@[simp] theorem suspend_current (k : Kernel) (old : Nat) :
    (k.suspend old).current = k.current := rfl

theorem suspend_ready (k : Kernel) (old u : Nat) :
    ((k.suspend old).task u).state = .ready ↔ k.ready u = true := by
  rw [suspend_task]
  by_cases hu : u = k.current
  · by_cases hr : (k.task u).state = .running
    · rw [if_pos hu]
      simp [ready, ← hu, hr]
    · rw [if_pos hu]
      simp [ready, ← hu, hr]
  · rw [if_neg hu]
    simp [ready, hu]

theorem suspend_dead (k : Kernel) (old u : Nat) :
    ((k.suspend old).task u).state = .dead ↔ (k.task u).state = .dead := by
  rw [suspend_task]
  split
  · dsimp only
    split
    · rename_i hr
      simp [hr]
    · rfl
  · rfl

theorem suspend_nexts (k : Kernel) (old : Nat) : (k.suspend old).nexts = k.nexts := by
  funext u
  simp only [nexts, suspend_task]
  split
  · rfl
  · rfl

theorem Queued.suspend (hl : Queued k l) (old : Nat) : Queued (k.suspend old) l := by
  refine ⟨?_, hl.nodup, hl.tail⟩
  rw [suspend_nexts]
  exact hl.chain

theorem TaskList.suspend (hl : TaskList k l) (old : Nat) : TaskList (k.suspend old) l := by
  refine ⟨?_, hl.nodup, hl.tail, hl.idle, ?_, hl.current⟩
  · rw [suspend_nexts]
    exact hl.chain
  · have hz : (k.suspend old).nexts 0 = none := by
      rw [suspend_nexts]
      exact hl.idleNext
    exact hz

theorem Queued.ring_head (hl : Queued k l) (hc : k.current ∈ l ∨ k.nexts k.current = none)
    (hh : k.head = some h) :
    ∃ rest, ring l k.current = k.ringNext h k.current :: rest := by
  have hhead : some (k.ringNext h k.current) = (ring l k.current).head? := by
    by_cases hm : k.current ∈ l
    · obtain ⟨a, b, hab⟩ := List.append_of_mem hm
      have hd := hl.nodup
      rw [hab] at hd
      have ha : k.current ∉ a := fun hm =>
        (List.nodup_append.mp hd).2.2 _ hm _ List.mem_cons_self rfl
      have hnext := cycle_of_chain hl.chain hh a k.current b hab
      rw [hnext, hab, ring_split ha]
      cases b with
      | nil =>
        cases a with
        | nil => simp
        | cons y a => simp
      | cons y b => simp
    · have hn : (k.task k.current).next = none := hc.resolve_left hm
      rw [ring, if_neg hm]
      cases l with
      | nil => cases hh.symm.trans hl.chain
      | cons y l =>
        have hy : h = y := Option.some.inj (hh.symm.trans hl.chain.1)
        simp [ringNext, hn, hy]
  cases hr : ring l k.current with
  | nil =>
    rw [hr] at hhead
    cases hhead
  | cons x rest =>
    rw [hr] at hhead
    exact ⟨rest, by rw [Option.some.inj hhead]⟩

def choice (k : Kernel) (l : List Nat) : Option Nat :=
  match (ring l k.current).find? k.ready with
  | some x => some x
  | none => l.find? fun t => (k.task t).state ≠ .dead

theorem Queued.seek_after (hl : Queued k l) (hc : k.current ∈ l ∨ k.nexts k.current = none)
    (hh : k.head = some h) {n : Nat} (hn : l.length ≤ n)
    (p : Task → Bool) :
    k.seek p h (k.ringNext h k.current) n (k.ringNext h k.current) =
      some (((ring l k.current).find? fun t => p (k.task t)).getD (k.ringNext h k.current)) := by
  have hperm := ring_perm (c := k.current) hl.nodup
  have hcyc := cycle_ring (c := k.current) hl.chain hl.nodup hh
  have hd := hperm.nodup_iff.mpr hl.nodup
  have hlen := hperm.length_eq
  obtain ⟨rest, hring⟩ := hl.ring_head hc hh
  rw [hring] at hcyc hd hlen ⊢
  exact seek_ring hcyc hd (hlen.le.trans hn)

theorem Queued.head_eq (hl : Queued k l) (hh : k.head = some h) : ∃ rest, l = h :: rest := by
  have hc := hl.chain
  cases l with
  | nil => cases hh.symm.trans hc
  | cons y l => exact ⟨l, by rw [Option.some.inj (hh.symm.trans hc.1)]⟩

theorem Queued.seek_head (hl : Queued k l) (hh : k.head = some h) {n : Nat}
    (hn : l.length ≤ n) (p : Task → Bool) :
    k.seek p h h n h = some ((l.find? fun t => p (k.task t)).getD h) := by
  have hcyc := cycle_of_chain hl.chain hh
  have hd := hl.nodup
  obtain ⟨rest, rfl⟩ := hl.head_eq hh
  exact seek_ring hcyc hd hn

theorem find_ready (k : Kernel) (old : Nat) (r : List Nat) :
    (r.find? fun t => ((k.suspend old).task t).state = .ready) = r.find? k.ready := by
  congr 1
  funext t
  rw [Bool.eq_iff_iff, decide_eq_true_iff]
  exact suspend_ready k old t

theorem find_alive (k : Kernel) (old : Nat) (r : List Nat) :
    (r.find? fun t => ((k.suspend old).task t).state ≠ .dead) =
      r.find? fun t => (k.task t).state ≠ .dead := by
  congr 1
  funext t
  rw [Bool.eq_iff_iff, decide_eq_true_iff, decide_eq_true_iff, ne_eq, ne_eq, suspend_dead k old t]

def resume (k : Kernel) (old : Nat) : Option Nat → Nat × Kernel
  | some x => ((k.task x).regs, k.run x)
  | none => (old, k)

theorem Queued.pick (hl : Queued k l) (hc : k.current ∈ l ∨ k.nexts k.current = none)
    (hf : l.length ≤ env.fuel) (old : Nat) (hh : (k.suspend old).head = some h) :
    (k.suspend old).pick env h old = some ((k.suspend old).resume old (k.choice l)) := by
  have hs := hl.suspend old
  have hc' : (k.suspend old).current ∈ l ∨ (k.suspend old).nexts (k.suspend old).current = none := by
    rw [suspend_nexts]
    exact hc
  have hfirst := hs.seek_after hc' hh hf (·.state = .ready)
  have hsecond := hs.seek_head hh hf (·.state ≠ .dead)
  rw [find_ready, suspend_current] at hfirst
  rw [find_alive] at hsecond
  simp only [Kernel.pick, suspend_current, Option.bind_eq_bind, hfirst, hsecond, Option.bind_some]
  unfold choice
  cases hr : (ring l k.current).find? k.ready with
  | some x =>
    have hx : ((k.suspend old).task x).state = .ready :=
      (suspend_ready k old x).mpr (List.find?_some hr)
    exact if_pos hx
  | none =>
    obtain ⟨rest, hring⟩ := hs.ring_head hc' hh
    rw [suspend_current] at hring
    have hstart : ¬ ((k.suspend old).task ((k.suspend old).ringNext h k.current)).state =
        .ready := by
      intro hx
      refine List.find?_eq_none.mp hr ((k.suspend old).ringNext h k.current) ?_
        ((suspend_ready k old _).mp hx)
      rw [hring]
      exact List.mem_cons_self
    refine (if_neg hstart).trans ?_
    cases ha : l.find? fun t => (k.task t).state ≠ .dead with
    | some x =>
      have hx : ((k.suspend old).task x).state ≠ .dead := by
        intro hd
        have hne := List.find?_some ha
        rw [decide_eq_true_iff] at hne
        exact hne ((suspend_dead k old x).mp hd)
      exact if_pos hx
    | none =>
      obtain ⟨rest', hl'⟩ := hs.head_eq hh
      have hx : ¬ ((k.suspend old).task h).state ≠ .dead := by
        intro hne
        refine List.find?_eq_none.mp ha h (by rw [hl']; exact List.mem_cons_self) ?_
        rw [decide_eq_true_iff]
        exact fun hd => hne ((suspend_dead k old h).mpr hd)
      exact if_neg hx

end pick

section schedule

theorem Reaped.ready {l1 : List Nat} (h : Reaped k l l1 k') : k'.ready = k.ready := by
  funext t
  simp only [Kernel.ready, state_of_body (h.body t), h.current]

theorem Reaped.choice {l1 : List Nat} (h : Reaped k l l1 k') (m : List Nat) :
    k'.choice m = k.choice m := by
  simp only [Kernel.choice, h.ready, h.current, state_of_body (h.body _)]

/-- One call with the list as `reap` leaves it. -/
theorem Queued.schedule_reaped (hl : Queued k1 l) (hc : k1.current ∈ l ∨ k1.nexts k1.current = none)
    (hf : l.length ≤ env.fuel) (hr : k.reap env = some k1) (old : Nat) :
    k.schedule env old = some ((k1.suspend old).resume old (k1.choice l)) := by
  simp only [Kernel.schedule, hr, Option.bind_eq_bind, Option.bind_some]
  have hs := hl.suspend old
  cases hh : (k1.suspend old).head with
  | none =>
    have hnil : l = [] := by
      have hchain := hs.chain
      rw [hh] at hchain
      cases l with
      | nil => rfl
      | cons x m => cases hchain.1
    rw [hnil]
    rfl
  | some h => exact hl.pick hc hf old hh

/-- One call: the dead tasks go, the current task steps back, the choice runs. -/
theorem TaskList.schedule (hl : TaskList k l) (hf : l.length ≤ env.fuel)
    (hback : ReapsBack env k l) (old : Nat) : ∃ k1, TaskList k1 (l.filter k.survives) ∧ Reaped k l (l.filter k.survives) k1 ∧
      k.schedule env old =
        some ((k1.suspend old).resume old (k.choice (l.filter k.survives))) := by
  obtain ⟨k1, hr⟩ := Option.isSome_iff_exists.mp (hl.queued.reap_isSome hf hback)
  obtain ⟨hl1, hreap⟩ := hl.reaped hr
  refine ⟨k1, hl1, hreap, ?_⟩
  rw [← hreap.choice]
  exact hl1.queued.schedule_reaped hl1.steady ((List.length_filter_le _ _).trans hf) hr old

theorem run_nexts (k : Kernel) (t : Nat) : (k.run t).nexts = k.nexts := by
  funext u
  simp only [nexts, Kernel.run, setTask, task, Arena.set_cell]
  split
  · rename_i hu
    rw [hu]
  · rfl

theorem Queued.run (hl : Queued k l) (t : Nat) : Queued (k.run t) l := by
  refine ⟨?_, hl.nodup, hl.tail⟩
  rw [run_nexts]
  exact hl.chain

theorem TaskList.run (hl : TaskList k l) (ht : t ∈ l) : TaskList (k.run t) l := by
  refine ⟨?_, hl.nodup, hl.tail, hl.idle, ?_, Or.inr ht⟩
  · rw [run_nexts]
    exact hl.chain
  · have hz : (k.run t).nexts 0 = none := by
      rw [run_nexts]
      exact hl.idleNext
    exact hz

theorem run_task (k : Kernel) (t u : Nat) :
    (k.run t).task u = if u = t then { k.task u with state := .running } else k.task u := by
  simp only [Kernel.run, setTask, task, Arena.set_cell]
  split
  · rename_i hu
    rw [hu]
  · rfl

theorem choice_mem (hd : l.Nodup) (hc : k.choice l = some t) : t ∈ l := by
  unfold choice at hc
  split at hc
  · rename_i x hx
    cases hc
    exact (ring_perm hd).mem_iff.mp (List.mem_of_find?_eq_some hx)
  · exact List.mem_of_find?_eq_some hc

theorem TaskList.resume (hl : TaskList k l) (old : Nat) (c : Option Nat)
    (hc : ∀ x, c = some x → x ∈ l) : TaskList (k.resume old c).2 l := by
  cases c with
  | none => exact hl
  | some x => exact hl.run (hc x rfl)

theorem ready_survives (h : k.ready t = true) : k.survives t = true := by
  unfold survives
  by_cases hr : (k.task t).state = .ready
  · simp [hr]
  · simp only [ready, hr, decide_false, Bool.false_or, Bool.and_eq_true, decide_eq_true_iff] at h
    simp [h.1]

theorem choice_of_ready (hd : l.Nodup) (hr : ∃ u ∈ l, k.ready u = true) : ∃ x before after,
    k.choice l = some x ∧ ring l k.current = before ++ x :: after ∧
      (∀ u ∈ before, k.ready u = false) ∧ k.ready x = true := by
  obtain ⟨u, hu, hru⟩ := hr
  cases hf : (ring l k.current).find? k.ready with
  | none =>
    have hnone := List.find?_eq_none.mp hf u ((ring_perm hd).mem_iff.mpr hu)
    exact absurd hru hnone
  | some x =>
    obtain ⟨hx, before, after, hring, hb⟩ := List.find?_eq_some_iff_append.mp hf
    refine ⟨x, before, after, ?_, hring, ?_, hx⟩
    · simp only [choice, hf]
    · intro v hv
      simpa using hb v hv

end schedule

section rounds

/-- The states after a call that goes on with `x`. -/
theorem Reaped.resume_state {l1 : List Nat} {k1 : Kernel} (hr : Reaped k l l1 k1) (old x u : Nat) :
    ((((k1.suspend old).resume old (some x)).2).task u).state =
      if u = x then .running
      else if u = k.current ∧ (k.task u).state = .running then .ready
      else (k.task u).state := by
  change (((k1.suspend old).run x).task u).state = _
  rw [run_task]
  by_cases hu : u = x
  · rw [if_pos hu, if_pos hu]
  · rw [if_neg hu, if_neg hu, suspend_task, hr.current, state_of_body (hr.body u)]
    by_cases hc : u = k.current
    · simp [hc]
    · simp only [hc, false_and, if_false]
      exact state_of_body (hr.body u)

/-- `kfree` comes back with every dead task of the list; with the current one only where a task of
the list is ready, since only then it stops being the current one. -/
def DeadBack (env : Env) (k : Kernel) (l : List Nat) : Prop :=
  ∀ t ∈ l, (k.task t).state = .dead → (t = k.current → ∃ u ∈ l, k.ready u = true) →
    env.frees (.task t) = true

theorem DeadBack.schedule {k1 : Kernel} {x : Nat} (h : DeadBack env k l)
    (hr : Reaped k l (l.filter k.survives) k1) (old : Nat)
    (hready : ∃ u ∈ l, k.ready u = true) :
    DeadBack env ((k1.suspend old).resume old (some x)).2 (l.filter k.survives) := by
  intro t ht hdead _
  refine h t (List.mem_of_mem_filter ht) ?_ fun _ => hready
  rw [hr.resume_state old x t] at hdead
  split at hdead
  · cases hdead
  · split at hdead
    · cases hdead
    · exact hdead

def distance (k : Kernel) (l : List Nat) (t : Nat) : Nat :=
  (ring (l.filter k.survives) k.current).idxOf t

end rounds

end LosTacOS.Os.Kernel
