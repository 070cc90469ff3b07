import LosTacOS.Lib.Chain
import LosTacOS.Os.Frame

/-! The task list: a chain of `next` pointers from `head` to `tail`, with the current task in it or
the kernel task outside. -/
namespace LosTacOS.Os

def Task.body (x : Task) : Task := { x with next := none }

theorem Task.of_body {α : Type} (f : Task → α) (hf : ∀ x : Task, f x.body = f x) {x y : Task}
    (h : x.body = y.body) : f x = f y := by
  rw [← hf x, ← hf y, h]

namespace Kernel

variable {env : Env} {k k' k1 : Kernel} {l pre post : List Nat} {t p : Nat} {a : Option Nat}

def nexts (k : Kernel) : Nat → Option Nat := fun t => (k.task t).next

structure TaskList (k : Kernel) (l : List Nat) : Prop where
  chain : Chain k.nexts k.head l none
  nodup : l.Nodup
  tail : k.tail = l.getLast?
  idle : 0 ∉ l
  idleNext : (k.task 0).next = none
  current : k.current = 0 ∨ k.current ∈ l

structure Queued (k : Kernel) (l : List Nat) : Prop where
  chain : Chain k.nexts k.head l none
  nodup : l.Nodup
  tail : k.tail = l.getLast?

theorem TaskList.queued (h : TaskList k l) : Queued k l := ⟨h.chain, h.nodup, h.tail⟩

/-- The current task is in the list, or comes before its head. -/
theorem TaskList.steady (h : TaskList k l) : k.current ∈ l ∨ k.nexts k.current = none := by
  cases h.current with
  | inl hz => exact Or.inr (by rw [hz]; exact h.idleNext)
  | inr hm => exact Or.inl hm

structure Relinked (k k' : Kernel) : Prop where
  rest : ∃ tasks head tail, k' = { k with tasks, head, tail }
  used : k'.tasks.used = k.tasks.used
  body : ∀ u, (k'.task u).body = (k.task u).body

theorem Relinked.refl (k : Kernel) : Relinked k k := ⟨⟨_, _, _, rfl⟩, rfl, fun _ => rfl⟩

theorem Relinked.trans {k2 : Kernel} (h : Relinked k k1) (h' : Relinked k1 k2) :
    Relinked k k2 := by
  refine ⟨?_, h'.used.trans h.used, fun u => (h'.body u).trans (h.body u)⟩
  obtain ⟨_, _, _, hk1⟩ := h.rest
  obtain ⟨tasks, head, tail, hk2⟩ := h'.rest
  exact ⟨tasks, head, tail, by rw [hk2, hk1]⟩

def setNext (k : Kernel) (t : Nat) (n : Option Nat) : Kernel :=
  k.setTask t { k.task t with next := n }

theorem nexts_setNext (k : Kernel) (t : Nat) (n : Option Nat) :
    (k.setNext t n).nexts = Function.update k.nexts t n := by
  funext u
  simp only [nexts, setNext, setTask, task, Arena.set_cell, Function.update_apply]
  split
  · rfl
  · rfl

theorem setNext_relinked (k : Kernel) (t : Nat) (n : Option Nat) : Relinked k (k.setNext t n) := by
  refine ⟨⟨_, _, _, rfl⟩, rfl, fun u => ?_⟩
  simp only [setNext, setTask, task, Arena.set_cell]
  split
  · rename_i hu
    rw [hu]
    rfl
  · rfl

section before

theorem before_mono {x n m : Nat} {r : Option Nat} (h : k.before x n a = some r) (hm : n ≤ m) :
    k.before x m a = some r := by
  induction n generalizing a m with
  | zero =>
    cases a with
    | none =>
      cases m with
      | zero => exact h
      | succ m => exact h
    | some t => cases h
  | succ n ih =>
    cases a with
    | none =>
      cases m with
      | zero => exact h
      | succ m => exact h
    | some t =>
      cases m with
      | zero => omega
      | succ m =>
        unfold before at h ⊢
        split at h
        · rename_i hx
          rw [if_pos hx]
          exact h
        · rename_i hx
          rw [if_neg hx]
          exact ih h (by omega)

theorem before_mid {x n : Nat} (h : Chain k.nexts a (pre ++ p :: x :: post) none)
    (hd : (pre ++ p :: x :: post).Nodup) (hn : pre.length < n) :
    k.before x n a = some (some p) := by
  induction pre generalizing a n with
  | nil =>
    obtain ⟨m, rfl⟩ : ∃ m, n = m + 1 := ⟨n - 1, by simp at hn; omega⟩
    rw [h.1]
    unfold before
    exact if_pos h.2.1
  | cons y pre ih =>
    obtain ⟨m, rfl⟩ : ∃ m, n = m + 1 := ⟨n - 1, by simp at hn; omega⟩
    have hxy : k.nexts y ≠ some x := by
      have hhead : k.nexts y = (pre ++ p :: x :: post).head? := by
        cases hpre : pre ++ p :: x :: post with
        | nil => simp at hpre
        | cons z zs =>
          have h2 : Chain k.nexts (k.nexts y) (z :: zs) none := hpre ▸ h.2
          exact h2.1
      intro hy
      rw [hhead] at hy
      have htail := (List.nodup_cons.mp hd).2
      cases pre with
      | nil =>
        simp only [List.nil_append, List.head?_cons, Option.some.injEq] at hy
        simp [hy] at htail
      | cons z zs =>
        simp only [List.cons_append, List.head?_cons, Option.some.injEq] at hy
        simp [hy] at htail
    rw [h.1]
    unfold before
    refine (if_neg hxy).trans ?_
    exact ih h.2 (List.nodup_cons.mp hd).2 (by simp at hn; omega)

theorem before_out {x n : Nat} (h : Chain k.nexts a l none) (hx : ∀ y ∈ l, k.nexts y ≠ some x)
    (hn : l.length ≤ n) : k.before x n a = some none := by
  induction l generalizing a n with
  | nil =>
    rw [h]
    cases n with
    | zero => rfl
    | succ n => rfl
  | cons y l ih =>
    obtain ⟨m, rfl⟩ : ∃ m, n = m + 1 := ⟨n - 1, by simp at hn; omega⟩
    rw [h.1]
    unfold before
    refine (if_neg (hx y List.mem_cons_self)).trans ?_
    exact ih h.2 (fun z hz => hx z (List.mem_cons_of_mem y hz)) (by simpa using hn)

end before

/-- The head of a list of tasks has no predecessor in it. -/
theorem no_next_head {x : Nat} (h : Chain k.nexts a (x :: l) none) (hd : (x :: l).Nodup) {y : Nat}
    (hy : y ∈ x :: l) : k.nexts y ≠ some x := by
  intro hn
  obtain ⟨u, v, huv⟩ := List.append_of_mem hy
  have hc : Chain k.nexts a (u ++ y :: v) none := by
    rw [← huv]
    exact h
  have hv := (Chain.middle_iff.mp hc).2
  rw [hn] at hv
  cases v with
  | nil => cases hv
  | cons z v =>
    have hz : x = z := Option.some.inj hv.1
    cases u with
    | nil =>
      simp only [List.nil_append, List.cons.injEq] at huv
      rw [huv.2, hz] at hd
      simp at hd
    | cons w u =>
      simp only [List.cons_append, List.cons.injEq] at huv
      rw [huv.2, hz] at hd
      simp at hd

structure Unlinked (k : Kernel) (l : List Nat) (t : Nat) (k' : Kernel) : Prop extends
    Relinked k k' where
  chain : Chain k'.nexts k'.head (l.erase t) none
  tail : k'.tail = (l.erase t).getLast?
  head : k'.head = if k.head = some t then k.nexts t else k.head
  nexts : ∀ u, k'.nexts u = if u ∈ l ∧ k.nexts u = some t then k.nexts t else k.nexts u

theorem nexts_pred (h : Chain k.nexts a (pre ++ p :: t :: post) none)
    (hd : (pre ++ p :: t :: post).Nodup) {u : Nat} (hu : u ∈ pre ++ p :: t :: post)
    (hn : k.nexts u = some t) : u = p := by
  have hb := before_mid h hd (Nat.lt_succ_self pre.length)
  obtain ⟨v, w, hvw⟩ := List.append_of_mem hu
  have hc : Chain k.nexts a (v ++ u :: w) none := hvw ▸ h
  have hw := (Chain.middle_iff.mp hc).2
  rw [hn] at hw
  cases w with
  | nil => cases hw
  | cons z w =>
    have hz : t = z := Option.some.inj hw.1
    rw [← hz] at hvw hc
    have hb' := before_mid hc (hvw ▸ hd) (Nat.lt_succ_self v.length)
    have h1 := before_mono hb (Nat.le_max_left (pre.length + 1) (v.length + 1))
    have h2 := before_mono hb' (Nat.le_max_right (pre.length + 1) (v.length + 1))
    rw [h1] at h2
    simpa using h2.symm

theorem Queued.unlink_head (h : Queued k (t :: post)) (hu : k.unlink env t = some k') :
    Unlinked k (t :: post) t k' := by
  have hhead : k.head = some t := h.chain.1
  simp only [Kernel.unlink, hhead, ite_true, Option.some.injEq] at hu
  have herase : (t :: post).erase t = post := List.erase_cons_head ..
  have hnexts : ∀ u, k.nexts u = if u ∈ t :: post ∧ k.nexts u = some t then k.nexts t else
      k.nexts u := by
    intro u
    split
    · rename_i hu
      exact absurd hu.2 (no_next_head h.chain h.nodup hu.1)
    · rfl
  have htail : (if k.tail = some t then k.nexts t else k.tail) = post.getLast? := by
    rw [h.tail]
    cases post with
    | nil =>
      have hnext : k.nexts t = none := h.chain.2
      simp [hnext]
    | cons x post =>
      have hne : (t :: x :: post).getLast? ≠ some t := by
        intro hl
        rw [List.getLast?_cons_cons] at hl
        exact (List.nodup_cons.mp h.nodup).1 (List.mem_of_getLast? hl)
      rw [if_neg hne, List.getLast?_cons_cons]
  rw [← hu]
  split
  · rename_i hl
    rw [if_pos hl] at htail
    refine ⟨⟨⟨_, _, _, rfl⟩, rfl, fun u => rfl⟩, ?_, ?_, ?_, hnexts⟩
    · rw [herase]
      exact h.chain.2
    · rw [herase]
      exact htail
    · exact (if_pos hhead).symm
  · rename_i hl
    rw [if_neg hl] at htail
    refine ⟨⟨⟨_, _, _, rfl⟩, rfl, fun u => rfl⟩, ?_, ?_, ?_, hnexts⟩
    · rw [herase]
      exact h.chain.2
    · rw [herase]
      exact htail
    · exact (if_pos hhead).symm

theorem Queued.unlink_mid (h : Queued k (pre ++ p :: t :: post))
    (hu : k.unlink env t = some k') : Unlinked k (pre ++ p :: t :: post) t k' := by
  have hd := h.nodup
  have htp : t ∉ pre ++ [p] := by
    intro ht
    rw [show pre ++ p :: t :: post = (pre ++ [p]) ++ t :: post by simp] at hd
    exact (List.nodup_append.mp hd).2.2 t ht t List.mem_cons_self rfl
  have hhead : k.head ≠ some t := by
    intro hh
    have hc := h.chain
    cases pre with
    | nil => exact htp (by simpa using Option.some.inj (hh.symm.trans hc.1))
    | cons x pre => exact htp (by simp [Option.some.inj (hh.symm.trans hc.1)])
  have herase : (pre ++ p :: t :: post).erase t = pre ++ p :: post := by
    rw [show pre ++ p :: t :: post = (pre ++ [p]) ++ t :: post by simp,
      List.erase_append_right _ htp, List.erase_cons_head]
    simp
  have hchain := h.chain.unlink hd
  rw [← nexts_setNext] at hchain
  have hnexts : ∀ u, (k.setNext p (k.nexts t)).nexts u =
      if u ∈ pre ++ p :: t :: post ∧ k.nexts u = some t then k.nexts t else k.nexts u := by
    intro u
    rw [nexts_setNext, Function.update_apply]
    have hp : k.nexts p = some t := ((Chain.middle_iff.mp h.chain).2).1
    by_cases hup : u = p
    · rw [if_pos hup, if_pos (by rw [hup]; exact ⟨by simp, hp⟩)]
    · rw [if_neg hup, if_neg]
      intro hu
      exact hup (nexts_pred h.chain hd hu.1 hu.2)
  have htail : (if k.tail = some t then some p else k.tail) = (pre ++ p :: post).getLast? := by
    rw [h.tail]
    cases post with
    | nil => simp
    | cons x post =>
      have hne : (pre ++ p :: t :: x :: post).getLast? ≠ some t := by
        intro hl
        rw [List.getLast?_append_cons, List.getLast?_cons_cons, List.getLast?_cons_cons] at hl
        have htail := (List.nodup_cons.mp (List.nodup_append.mp hd).2.1).2
        exact (List.nodup_cons.mp htail).1 (List.mem_of_getLast? hl)
      rw [if_neg hne]
      simp only [List.getLast?_append_cons, List.getLast?_cons_cons]
  have hbefore : ∀ r, k.before t env.fuel k.head = some r → r = some p := by
    intro r hr
    have h1 := before_mono hr (Nat.le_max_left env.fuel (pre.length + 1))
    have h2 := before_mid h.chain hd (Nat.lt_of_lt_of_le (Nat.lt_succ_self pre.length)
      (Nat.le_max_right env.fuel (pre.length + 1)))
    rw [h1] at h2
    exact Option.some.inj h2
  simp only [Kernel.unlink, if_neg hhead, Option.bind_eq_bind, Option.bind_eq_some_iff] at hu
  obtain ⟨r, hr, hu⟩ := hu
  cases hbefore r hr
  have hrel := setNext_relinked k p (k.nexts t)
  simp only [Option.some.injEq] at hu
  rw [← hu]
  split
  · rename_i hl
    refine ⟨⟨⟨_, _, _, rfl⟩, rfl, hrel.body⟩, ?_, ?_, (if_neg hhead).symm, hnexts⟩
    · rw [herase]
      exact hchain
    · rw [herase, ← htail]
      exact (if_pos hl).symm
  · rename_i hl
    refine ⟨⟨⟨_, _, _, rfl⟩, rfl, hrel.body⟩, ?_, ?_, (if_neg hhead).symm, hnexts⟩
    · rw [herase]
      exact hchain
    · rw [herase, ← htail]
      exact (if_neg hl).symm

theorem Queued.unlink (h : Queued k l) (ht : t ∈ l) (hu : k.unlink env t = some k') :
    Unlinked k l t k' := by
  obtain ⟨pre, post, rfl⟩ := List.append_of_mem ht
  cases List.eq_nil_or_concat pre with
  | inl hpre =>
    subst hpre
    exact h.unlink_head hu
  | inr hpre =>
    obtain ⟨pre, p, rfl⟩ := hpre
    rw [List.concat_append] at h ⊢
    exact h.unlink_mid hu

theorem Queued.unlink_out (h : Queued k l) (ht : t ∉ l) (hu : k.unlink env t = some k') :
    k' = k := by
  have hhead : k.head ≠ some t := by
    intro hh
    cases l with
    | nil => cases hh.symm.trans h.chain
    | cons x l => exact ht (by simp [Option.some.inj (hh.symm.trans h.chain.1)])
  have hout : ∀ y ∈ l, k.nexts y ≠ some t := by
    intro y hy hn
    cases h.chain.next_mem hy with
    | inl he => cases hn.symm.trans he
    | inr he =>
      obtain ⟨z, hz, he⟩ := he
      exact ht (Option.some.inj (hn.symm.trans he) ▸ hz)
  simp only [Kernel.unlink, if_neg hhead, Option.bind_eq_bind, Option.bind_eq_some_iff] at hu
  obtain ⟨r, hr, hu⟩ := hu
  have h1 := before_mono hr (Nat.le_max_left env.fuel l.length)
  have h2 := before_out h.chain hout (Nat.le_max_right env.fuel l.length)
  rw [h1] at h2
  cases Option.some.inj h2
  exact (Option.some.inj hu).symm

theorem Queued.unlink_isSome (h : Queued k l) (hf : l.length ≤ env.fuel) :
    (k.unlink env t).isSome := by
  have hb : ∃ r, k.before t env.fuel k.head = some r := by
    by_cases ht : ∃ y ∈ l, k.nexts y = some t
    · obtain ⟨y, hy, hn⟩ := ht
      obtain ⟨pre, post, rfl⟩ := List.append_of_mem hy
      have hpost := (Chain.middle_iff.mp h.chain).2
      rw [hn] at hpost
      cases post with
      | nil => cases hpost
      | cons z post =>
        cases hpost.1
        exact ⟨_, before_mid h.chain h.nodup (by simp at hf; omega)⟩
    · push Not at ht
      exact ⟨_, before_out h.chain ht hf⟩
  obtain ⟨r, hr⟩ := hb
  unfold Kernel.unlink
  split
  · rfl
  · rw [hr]
    cases r with
    | none => rfl
    | some p => rfl

section destroy

structure Destroyed (k : Kernel) (l : List Nat) (t : Nat) (k' : Kernel) : Prop where
  rest : ∃ tasks procs head tail, k' = { k with tasks, procs, head, tail }
  body : ∀ u, (k'.task u).body = (k.task u).body
  head : k'.head = if k.head = some t then k.nexts t else k.head
  nexts : ∀ u, k'.nexts u = if u ∈ l ∧ k.nexts u = some t then k.nexts t else k.nexts u
  used : k'.tasks.used = k.tasks.used.erase t
  procs : k'.procs = ((k.task t).process.map k.procs.free).getD k.procs

theorem state_of_body {x y : Task} (h : x.body = y.body) : x.state = y.state :=
  Task.of_body Task.state (fun _ => rfl) h

theorem process_of_body {x y : Task} (h : x.body = y.body) : x.process = y.process :=
  Task.of_body Task.process (fun _ => rfl) h

theorem parent_of_body {x y : Task} (h : x.body = y.body) : x.parent = y.parent :=
  Task.of_body Task.parent (fun _ => rfl) h

theorem pid_of_body {x y : Task} (h : x.body = y.body) : x.pid = y.pid :=
  Task.of_body Task.pid (fun _ => rfl) h

theorem Destroyed.current (h : Destroyed k l t k') : k'.current = k.current := by
  obtain ⟨_, _, _, _, hk⟩ := h.rest
  rw [hk]

theorem Queued.destroy (h : Queued k l) (ht : t ∈ l) (hc : t ≠ k.current)
    (hd : k.removeAndDestroy env t = some k') : Queued k' (l.erase t) ∧ Destroyed k l t k' := by
  simp only [removeAndDestroy, if_neg hc, Option.bind_eq_bind, Option.bind_eq_some_iff,
    Option.ite_none_right_eq_some] at hd
  obtain ⟨k1, hu, -, hd⟩ := hd
  have hun := h.unlink ht hu
  obtain ⟨_, _, _, hk1⟩ := hun.rest
  have hproc : (k1.task t).process = (k.task t).process := process_of_body (hun.body t)
  have hprocs : k1.procs = k.procs := by rw [hk1]
  rw [hproc] at hd
  cases hp : (k.task t).process with
  | none =>
    rw [hp] at hd
    cases hd
    refine ⟨⟨hun.chain, h.nodup.erase t, hun.tail⟩, ?_⟩
    refine ⟨⟨_, _, _, _, by rw [hk1]⟩, hun.body, hun.head, hun.nexts, ?_, ?_⟩
    · rw [← hun.used]
      rfl
    · rw [hp]
      exact hprocs
  | some p =>
    rw [hp] at hd
    cases hd
    refine ⟨⟨hun.chain, h.nodup.erase t, hun.tail⟩, ?_⟩
    refine ⟨⟨_, _, _, _, by rw [hk1]⟩, hun.body, hun.head, hun.nexts, ?_, ?_⟩
    · rw [← hun.used]
      rfl
    · rw [hp, ← hprocs]
      rfl

theorem TaskList.destroy (h : TaskList k l) (ht : t ∈ l) (hc : t ≠ k.current)
    (hd : k.removeAndDestroy env t = some k') : TaskList k' (l.erase t) ∧ Destroyed k l t k' := by
  obtain ⟨hq, hdes⟩ := h.queued.destroy ht hc hd
  have hidle : (k'.task 0).next = none := by
    have hnext := hdes.nexts 0
    rw [if_neg fun hz => h.idle hz.1] at hnext
    exact hnext.trans h.idleNext
  have hcurrent : k'.current = 0 ∨ k'.current ∈ l.erase t := by
    rw [hdes.current]
    cases h.current with
    | inl hz => exact Or.inl hz
    | inr hm => exact Or.inr ((List.mem_erase_of_ne fun he => hc he.symm).mpr hm)
  have hzero : 0 ∉ l.erase t := fun hz => h.idle (List.mem_of_mem_erase hz)
  exact ⟨⟨hq.chain, hq.nodup, hq.tail, hzero, hidle, hcurrent⟩, hdes⟩

theorem removeAndDestroy_frees (hc : t ≠ k.current) (hd : k.removeAndDestroy env t = some k') :
    env.frees (.task t) = true := by
  simp only [removeAndDestroy, if_neg hc, Option.bind_eq_bind, Option.bind_eq_some_iff,
    Option.ite_none_right_eq_some] at hd
  obtain ⟨_, _, hfree, _⟩ := hd
  exact hfree

theorem Queued.destroy_isSome (h : Queued k l) (hf : l.length ≤ env.fuel)
    (hfree : t ≠ k.current → env.frees (.task t) = true) : (k.removeAndDestroy env t).isSome := by
  unfold removeAndDestroy
  by_cases hc : t = k.current
  · rw [if_pos hc]
    rfl
  · obtain ⟨k1, hk1⟩ := Option.isSome_iff_exists.mp (h.unlink_isSome (t := t) hf)
    rw [if_neg hc, hk1, Option.bind_eq_bind, Option.bind_some, if_pos (hfree hc)]
    rfl

end destroy

section reap

def survives (k : Kernel) (t : Nat) : Bool := (k.task t).state ≠ .dead || t = k.current

def reapOne (env : Env) (k : Kernel) (t : Nat) : Option Kernel :=
  if (k.task t).state = .dead ∧ t ≠ k.current then k.removeAndDestroy env t else some k

theorem reapOne_of_survives (h : k.survives t = true) : reapOne env k t = some k := by
  refine if_neg fun hd => ?_
  simp [survives, hd.1, hd.2] at h

theorem reapOne_of_not_survives (h : k.survives t = false) :
    reapOne env k t = k.removeAndDestroy env t ∧ (k.task t).state = .dead ∧ t ≠ k.current := by
  have hd : (k.task t).state = .dead ∧ t ≠ k.current := by simpa [survives] using h
  exact ⟨if_pos hd, hd⟩

theorem Destroyed.survives (h : Destroyed k l t k') (u : Nat) : k'.survives u = k.survives u := by
  simp only [Kernel.survives, state_of_body (h.body u), h.current]

theorem Destroyed.chain_behind (h : Destroyed k (pre ++ t :: post) t k')
    (hc : Chain k.nexts a (pre ++ t :: post) none) (hd : (pre ++ t :: post).Nodup) :
    Chain k'.nexts (k.nexts t) post none := by
  refine (Chain.middle_iff.mp hc).2.congr fun u hu => ?_
  rw [h.nexts, if_neg]
  intro hn
  obtain ⟨v, w, rfl⟩ := List.append_of_mem hu
  have hsplit : pre ++ t :: (v ++ u :: w) = (pre ++ t :: v) ++ u :: w := by simp
  rw [hsplit] at hc hd
  have hw := (Chain.middle_iff.mp hc).2
  rw [hn.2] at hw
  cases w with
  | nil => cases hw
  | cons z w =>
    have htz : t = z := Option.some.inj hw.1
    rw [← htz] at hd
    exact (List.nodup_append.mp hd).2.2 t (by simp) t (by simp) rfl

/-- The loop of `reap` with an invariant of its own. -/
theorem Queued.reapFrom {I : List Nat → Kernel → Prop}
    (hI : ∀ {k l t k'}, Queued k l → I l k → t ∈ l → t ≠ k.current → (k.task t).state = .dead →
      k.removeAndDestroy env t = some k' → I (l.erase t) k') :
    ∀ {l2 l1 : List Nat} {k k' : Kernel} {a : Option Nat} {n : Nat}, Queued k (l1 ++ l2) →
      Chain k.nexts a l2 none → I (l1 ++ l2) k → walk (reapOne env) n k a = some k' →
      Queued k' (l1 ++ l2.filter k.survives) ∧ I (l1 ++ l2.filter k.survives) k' := by
  intro l2
  induction l2 with
  | nil =>
    intro l1 k k' a n h hc hi hw
    cases hc
    have hk : k' = k := by
      cases n with
      | zero => exact (Option.some.inj hw).symm
      | succ n => exact (Option.some.inj hw).symm
    rw [hk]
    exact ⟨h, hi⟩
  | cons t l2 ih =>
    intro l1 k k' a n h hc hi hw
    cases hc.1
    cases n with
    | zero => cases hw
    | succ n =>
      obtain ⟨k1, h1, h2⟩ := Option.bind_eq_some_iff.mp hw
      have hsplit : ∀ m : List Nat, l1 ++ t :: m = (l1 ++ [t]) ++ m := by simp
      cases hs : k.survives t with
      | true =>
        rw [reapOne_of_survives hs] at h1
        cases h1
        rw [hsplit] at h hi
        rw [List.filter_cons_of_pos hs, hsplit]
        exact ih h hc.2 hi h2
      | false =>
        have hgone : reapOne env k t = k.removeAndDestroy env t ∧ _ := reapOne_of_not_survives hs
        obtain ⟨he, hdead, hcur⟩ := hgone
        rw [he] at h1
        have ht : t ∈ l1 ++ t :: l2 := by simp
        obtain ⟨hlist, hdes⟩ := h.destroy ht hcur h1
        have hi1 := hI h hi ht hcur hdead h1
        have hnot : t ∉ l1 := fun hm =>
          (List.nodup_append.mp h.nodup).2.2 t hm t List.mem_cons_self rfl
        rw [List.erase_append_right _ hnot, List.erase_cons_head] at hlist hi1
        have hrest := ih hlist (hdes.chain_behind h.chain h.nodup) hi1 h2
        have hsurv : k1.survives = k.survives := funext hdes.survives
        rw [hsurv] at hrest
        rw [List.filter_cons_of_neg (by simp [hs])]
        exact hrest

theorem TaskList.reap {I : List Nat → Kernel → Prop}
    (hI : ∀ {k l t k'}, TaskList k l → I l k → t ∈ l → t ≠ k.current → (k.task t).state = .dead →
      k.removeAndDestroy env t = some k' → I (l.erase t) k')
    (h : TaskList k l) (hi : I l k) (hr : k.reap env = some k') :
    TaskList k' (l.filter k.survives) ∧ I (l.filter k.survives) k' := by
  refine (@Queued.reapFrom env (fun l k => TaskList k l ∧ I l k) ?_ l [] k k' _ _ h.queued h.chain
    ⟨h, hi⟩ hr).2
  intro k l t k' _ hboth ht hc hdead hd
  exact ⟨(hboth.1.destroy ht hc hd).1, hI hboth.1 hboth.2 ht hc hdead hd⟩

/-- What `reap` does: the dead tasks are gone, nothing else about tasks has changed. -/
structure Reaped (k : Kernel) (l l1 : List Nat) (k1 : Kernel) : Prop where
  rest : ∃ tasks procs head tail, k1 = { k with tasks, procs, head, tail }
  body : ∀ u, (k1.task u).body = (k.task u).body
  subset : ∀ u ∈ l1, u ∈ l
  used : ∀ u, u ∈ k1.tasks.used ↔ u ∈ k.tasks.used ∧ (u ∈ l → u ∈ l1)

theorem Reaped.current {l1 : List Nat} (h : Reaped k l l1 k1) : k1.current = k.current := by
  obtain ⟨_, _, _, _, hk⟩ := h.rest
  rw [hk]

theorem Reaped.start (k : Kernel) (l : List Nat) : Reaped k l l k :=
  ⟨⟨_, _, _, _, rfl⟩, fun _ => rfl, fun _ hu => hu, fun _ => by simp⟩

theorem Reaped.destroy {k2 k3 : Kernel} {l2 : List Nat} (hi : Reaped k l l2 k2) (hl : Queued k2 l2)
    (ht : t ∈ l2) (hdes : Destroyed k2 l2 t k3) : Reaped k l (l2.erase t) k3 := by
  obtain ⟨_, _, _, _, hk2⟩ := hi.rest
  obtain ⟨tasks, procs, head, tail, hk3⟩ := hdes.rest
  refine ⟨⟨tasks, procs, head, tail, by rw [hk3, hk2]⟩,
    fun u => (hdes.body u).trans (hi.body u), fun u hu => hi.subset u (List.mem_of_mem_erase hu),
    fun u => ?_⟩
  rw [hdes.used, Finset.mem_erase, hi.used]
  by_cases hu : u = t
  · have hnot : u ∉ l2.erase t := by
      rw [hu]
      exact hl.nodup.not_mem_erase
    have hin : u ∈ l := hi.subset u (hu ▸ ht)
    simp [hu ▸ hnot, hu ▸ hin, hu]
  · simp [hu, List.mem_erase_of_ne hu]

theorem TaskList.reaped (h : TaskList k l) (hr : k.reap env = some k1) :
    TaskList k1 (l.filter k.survives) ∧ Reaped k l (l.filter k.survives) k1 := by
  refine h.reap (I := Reaped k l) ?_ (.start k l) hr
  intro k2 l2 t k3 hl hi ht hc _ hd
  exact hi.destroy hl.queued ht (hl.destroy ht hc hd).2

/-- The same of the list alone; the links of tasks outside of it stay. -/
theorem Queued.reaped (h : Queued k l) (hr : k.reap env = some k1) :
    Queued k1 (l.filter k.survives) ∧ Reaped k l (l.filter k.survives) k1 ∧
      ∀ u, u ∉ l → k1.nexts u = k.nexts u := by
  refine @Queued.reapFrom env (fun l2 k2 => Reaped k l l2 k2 ∧ ∀ u, u ∉ l → k2.nexts u = k.nexts u)
    ?_ l [] k k1 _ _ h h.chain ⟨.start k l, fun _ _ => rfl⟩ hr
  intro k2 l2 t k3 hl hi ht hc _ hd
  have hdes := (hl.destroy ht hc hd).2
  refine ⟨hi.1.destroy hl ht hdes, fun u hu => ?_⟩
  rw [hdes.nexts, if_neg fun hmem => hu (hi.1.subset u hmem.1)]
  exact hi.2 u hu

/-- `kfree` comes back with every task that `reap` destroys. -/
def ReapsBack (env : Env) (k : Kernel) (l : List Nat) : Prop :=
  ∀ t ∈ l, (k.task t).state = .dead → t ≠ k.current → env.frees (.task t) = true

theorem ReapsBack.keep (h : ReapsBack env k l) (hsub : ∀ u ∈ l1, u ∈ l)
    (hsurv : k1.survives = k.survives) : ReapsBack env k1 l1 := by
  intro t ht hdead hcur
  have hgone : k.survives t = false := by
    rw [← hsurv]
    simp [survives, hdead, hcur]
  have hd : (k.task t).state = .dead ∧ t ≠ k.current := by simpa [survives] using hgone
  exact h t (hsub t ht) hd.1 hd.2

theorem Queued.reapFrom_isSome : ∀ {l2 l1 : List Nat} {k : Kernel} {a : Option Nat} {n : Nat},
    Queued k (l1 ++ l2) → Chain k.nexts a l2 none → l2.length ≤ n →
    (l1 ++ l2).length ≤ env.fuel → ReapsBack env k l2 → (walk (reapOne env) n k a).isSome := by
  intro l2
  induction l2 with
  | nil =>
    intro l1 k a n h hc hn hf _
    cases hc
    cases n with
    | zero => rfl
    | succ n => rfl
  | cons t l2 ih =>
    intro l1 k a n h hc hn hf hback
    cases hc.1
    obtain ⟨m, rfl⟩ : ∃ m, n = m + 1 := ⟨n - 1, by simp at hn; omega⟩
    have hm : l2.length ≤ m := by simpa using hn
    unfold walk
    cases hs : k.survives t with
    | true =>
      rw [reapOne_of_survives hs]
      have h' : Queued k ((l1 ++ [t]) ++ l2) := by simpa using h
      have hrest := hback.keep (fun u hu => List.mem_cons_of_mem t hu) rfl
      exact ih h' hc.2 hm (by simpa using hf) hrest
    | false =>
      have hgone : reapOne env k t = k.removeAndDestroy env t ∧ _ := reapOne_of_not_survives hs
      obtain ⟨he, hdead, hcur⟩ := hgone
      rw [he]
      have hfree := hback t List.mem_cons_self hdead hcur
      obtain ⟨k1, hk1⟩ := Option.isSome_iff_exists.mp (h.destroy_isSome hf fun _ => hfree)
      rw [hk1]
      obtain ⟨hlist, hdes⟩ := h.destroy (by simp) hcur hk1
      have hnot : t ∉ l1 := fun hm =>
        (List.nodup_append.mp h.nodup).2.2 t hm t List.mem_cons_self rfl
      rw [List.erase_append_right _ hnot, List.erase_cons_head] at hlist
      have hrest := hback.keep (fun u hu => List.mem_cons_of_mem t hu) (funext hdes.survives)
      exact ih hlist (hdes.chain_behind h.chain h.nodup) hm (by simp at hf ⊢; omega) hrest

theorem Queued.reap_isSome (h : Queued k l) (hf : l.length ≤ env.fuel) (hback : ReapsBack env k l) :
    (k.reap env).isSome :=
  @Queued.reapFrom_isSome env l [] k _ _ h h.chain hf hf hback

/-- `reap` comes back only if `kfree` does with every task. -/
theorem Queued.reapsBack (h : Queued k l) (hr : k.reap env = some k1) : ReapsBack env k l := by
  have hall := @Queued.reapFrom env (fun l2 k2 => k2.survives = k.survives ∧
    ∀ t ∈ l, t ∉ l2 → env.frees (.task t) = true) ?_ l [] k k1 _ _ h h.chain
    ⟨rfl, fun t ht hn => absurd ht hn⟩ hr
  · intro t ht hdead hcur
    refine hall.2.2 t ht ?_
    simp [survives, hdead, hcur]
  · intro k2 l2 t k3 hl hi ht hc _ hd
    refine ⟨(funext (hl.destroy ht hc hd).2.survives).trans hi.1, fun u hu hn => ?_⟩
    by_cases hut : u = t
    · rw [hut]
      exact removeAndDestroy_frees hc hd
    · exact hi.2 u hu fun hm => hn ((List.mem_erase_of_ne hut).mpr hm)

end reap

end Kernel

end LosTacOS.Os
