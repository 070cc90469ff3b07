import LosTacOS.Os.Runs

/-! The task list as a queue: what `add`, `remove_and_destroy`, `reap` and `schedule` do to it in any
order, whatever the rest of the kernel does in between. -/
namespace LosTacOS.Os.Kernel

variable {env : Env} {k k' k1 : Kernel} {l : List Nat} {t u : Nat}

/-- The operations that reach the list; `brokenOff` is what a call has done to it that ends in the
`kfree` of the task `t`, the last of those it destroys. -/
inductive ListOp where
  | add (t : Nat)
  | removeAndDestroy (t : Nat)
  | brokenOff (t : Nat)
  | reap
  | schedule (old : Nat)

namespace ListOp

def exec (env : Env) : ListOp → Kernel → Option Kernel
  | .add t, k => k.add t
  | .removeAndDestroy t, k => k.removeAndDestroy env t
  | .brokenOff t, k => if t = k.current then some k else k.unlink env t
  | .reap, k => k.reap env
  | .schedule old, k => (k.schedule env old).map Prod.snd

/-- `add` is of a task that is not in the list, `remove_and_destroy` of one that is. -/
def Allowed (l : List Nat) : ListOp → Prop
  | .add t => t ∉ l
  | .removeAndDestroy t | .brokenOff t => t ∈ l
  | .reap | .schedule _ => True

instance (l : List Nat) : (o : ListOp) → Decidable (o.Allowed l)
  | .add t => inferInstanceAs (Decidable (t ∉ l))
  | .removeAndDestroy t | .brokenOff t => inferInstanceAs (Decidable (t ∈ l))
  | .reap | .schedule _ => inferInstanceAs (Decidable True)

/-- The tasks taken out: the one named, or the dead ones; never the current one. -/
def takes (k : Kernel) : ListOp → Nat → Bool
  | .add _, _ => false
  | .removeAndDestroy t, u | .brokenOff t, u => u = t && u ≠ k.current
  | .reap, u | .schedule _, u => (k.task u).state = .dead && u ≠ k.current

def brings : ListOp → List Nat
  | .add t => [t]
  | _ => []

/-- `kfree` comes back with every task that is destroyed. -/
def ComesBack (env : Env) (k : Kernel) (l : List Nat) : ListOp → Prop
  | .add _ | .brokenOff _ => True
  | .removeAndDestroy t => t ≠ k.current → env.frees (.task t) = true
  | .reap | .schedule _ => ReapsBack env k l

def on (o : ListOp) (k : Kernel) (l : List Nat) : List Nat :=
  l.filter (fun u => !o.takes k u) ++ o.brings

end ListOp

structure Aside (l : List Nat) (k k' : Kernel) : Prop where
  head : k'.head = k.head
  tail : k'.tail = k.tail
  current : k'.current = k.current
  next : ∀ u, u ∈ l ∨ u = k.current → k'.nexts u = k.nexts u

/-- The runs of the list from an empty one, with the tasks that are to be in it. The loops get as many
rounds as there are tasks. -/
inductive Listing : Kernel → List Nat → Prop
  | empty {k : Kernel} : k.head = none → k.tail = none → k.nexts k.current = none → Listing k []
  | op {env : Env} {k k' : Kernel} {l : List Nat} (o : ListOp) : Listing k l → o.Allowed l →
      l.length ≤ env.fuel → o.exec env k = some k' → Listing k' (o.on k l)
  | aside {k k' : Kernel} {l : List Nat} : Listing k l → Aside l k k' → Listing k' l

/-- What holds in every run: the list is there, and `schedule` finds its way back into it. -/
structure Turning (k : Kernel) (l : List Nat) : Prop extends Queued k l where
  current : k.current ∈ l ∨ k.nexts k.current = none

theorem Turning.aside (h : Turning k l) (ha : Aside l k k') : Turning k' l := by
  refine ⟨⟨?_, h.nodup, ha.tail.trans h.tail⟩, ?_⟩
  · rw [ha.head]
    exact h.chain.congr fun u hu => ha.next u (Or.inl hu)
  · rw [ha.current, ha.next k.current (Or.inr rfl)]
    exact h.current

theorem Turning.add (h : Turning k l) (ht : t ∉ l) (hk : k.add t = some k') :
    Turning k' (l ++ [t]) := by
  obtain ⟨hq, _, hcur, hout⟩ := h.toQueued.add ht hk
  refine ⟨hq, ?_⟩
  rw [hcur]
  by_cases hm : k.current ∈ l ++ [t]
  · exact Or.inl hm
  · have hne : k.current ∉ l ∧ k.current ≠ t := by simpa using hm
    rw [hout k.current hne.1 hne.2]
    exact Or.inr (h.current.resolve_left hne.1)

theorem removed_eq (hd : l.Nodup) (hc : t ≠ k.current) :
    (ListOp.removeAndDestroy t).on k l = l.erase t := by
  rw [hd.erase_eq_filter]
  simp only [ListOp.on, ListOp.brings, List.append_nil]
  refine List.filter_congr fun u _ => ?_
  by_cases hu : u = t
  · simp [ListOp.takes, hu, hc]
  · simp [ListOp.takes, hu]

theorem removed_current : (ListOp.removeAndDestroy k.current).on k l = l := by
  simp [ListOp.on, ListOp.takes, ListOp.brings]

theorem brokenOff_on : (ListOp.brokenOff t).on k l = (ListOp.removeAndDestroy t).on k l := rfl

theorem reaped_eq : ListOp.reap.on k l = l.filter k.survives := by
  simp only [ListOp.on, ListOp.brings, List.append_nil]
  refine List.filter_congr fun u _ => ?_
  simp [ListOp.takes, survives, Bool.not_and]

theorem Turning.removeAndDestroy (h : Turning k l) (ht : t ∈ l)
    (hk : k.removeAndDestroy env t = some k') :
    Turning k' ((ListOp.removeAndDestroy t).on k l) := by
  by_cases hc : t = k.current
  · rw [hc, removed_current]
    simp only [Kernel.removeAndDestroy, if_pos hc, Option.some.injEq] at hk
    rw [← hk]
    exact h
  · rw [removed_eq h.nodup hc]
    obtain ⟨hq, hdes⟩ := h.toQueued.destroy ht hc hk
    refine ⟨hq, ?_⟩
    rw [hdes.current, hdes.nexts]
    by_cases hm : k.current ∈ l
    · exact Or.inl ((List.mem_erase_of_ne (Ne.symm hc)).mpr hm)
    · rw [if_neg fun hmem => hm hmem.1]
      exact Or.inr (h.current.resolve_left hm)

theorem Turning.brokenOff (h : Turning k l) (ht : t ∈ l)
    (hk : (ListOp.brokenOff t).exec env k = some k') : Turning k' ((ListOp.brokenOff t).on k l) := by
  simp only [ListOp.exec] at hk
  rw [brokenOff_on]
  split at hk
  · rename_i hc
    rw [hc, removed_current]
    cases hk
    exact h
  · rename_i hc
    have hun := h.toQueued.unlink ht hk
    obtain ⟨_, _, _, hrest⟩ := hun.rest
    have hcur : k'.current = k.current := by rw [hrest]
    rw [removed_eq h.nodup hc]
    refine ⟨⟨hun.chain, h.nodup.erase t, hun.tail⟩, ?_⟩
    rw [hcur, hun.nexts]
    by_cases hm : k.current ∈ l
    · exact Or.inl ((List.mem_erase_of_ne (Ne.symm hc)).mpr hm)
    · rw [if_neg fun hmem => hm hmem.1]
      exact Or.inr (h.current.resolve_left hm)

theorem Turning.reap (h : Turning k l) (hk : k.reap env = some k') :
    Turning k' (l.filter k.survives) := by
  obtain ⟨hq, hreap, hout⟩ := h.toQueued.reaped hk
  refine ⟨hq, ?_⟩
  rw [hreap.current]
  by_cases hm : k.current ∈ l
  · exact Or.inl (List.mem_filter.mpr ⟨hm, by simp [survives]⟩)
  · rw [hout k.current hm]
    exact Or.inr (h.current.resolve_left hm)

theorem Turning.resume (h : Turning k l) (old : Nat) {c : Option Nat} (hc : ∀ x, c = some x → x ∈ l) :
    Turning ((k.suspend old).resume old c).2 l := by
  have hs := h.toQueued.suspend old
  cases c with
  | none =>
    refine ⟨hs, ?_⟩
    change k.current ∈ l ∨ (k.suspend old).nexts k.current = none
    rw [suspend_nexts]
    exact h.current
  | some x => exact ⟨hs.run x, Or.inl (hc x rfl)⟩

theorem Turning.schedule (h : Turning k l) (hf : l.length ≤ env.fuel)
    (hback : ReapsBack env k l) (old : Nat) :
    ∃ regs k', k.schedule env old = some (regs, k') ∧ Turning k' (l.filter k.survives) := by
  obtain ⟨k1, hr⟩ := Option.isSome_iff_exists.mp (h.toQueued.reap_isSome hf hback)
  have h1 := h.reap hr
  have hf1 := (List.length_filter_le k.survives l).trans hf
  refine ⟨_, _, h1.toQueued.schedule_reaped h1.current hf1 hr old, h1.resume old fun x hx => ?_⟩
  exact choice_mem h1.nodup hx

theorem Queued.tail_none (h : Queued k l) : k.tail = none ↔ k.head = none := by
  rw [h.tail, List.getLast?_eq_none_iff]
  constructor
  · rintro rfl
    exact h.chain
  · intro hh
    cases l with
    | nil => rfl
    | cons x l => cases hh.symm.trans h.chain.1

theorem Queued.add_isSome (h : Queued k l) (t : Nat) : (k.add t).isSome := by
  unfold Kernel.add
  dsimp only
  split
  · rfl
  · rfl
  · rename_i hhead htail
    -- a list that has a head has a tail
    have hnone := h.tail_none.mp htail
    cases hhead.symm.trans hnone

theorem Turning.comesBack (h : Turning k l) {o : ListOp} (hk : o.exec env k = some k') :
    o.ComesBack env k l := by
  cases o with
  | add t => trivial
  | removeAndDestroy t => exact fun hc => removeAndDestroy_frees hc hk
  | brokenOff t => trivial
  | reap => exact h.toQueued.reapsBack hk
  | schedule old =>
    obtain ⟨r, hs, -⟩ := Option.map_eq_some_iff.mp hk
    obtain ⟨k1, hr, -⟩ := Option.bind_eq_some_iff.mp hs
    exact h.toQueued.reapsBack hr

/-- Every operation that is allowed ends, and leaves the list it is to leave. -/
theorem Turning.exec (h : Turning k l) (o : ListOp) (ha : o.Allowed l) (hf : l.length ≤ env.fuel)
    (hback : o.ComesBack env k l) : ∃ k', o.exec env k = some k' ∧ Turning k' (o.on k l) := by
  cases o with
  | add t =>
    obtain ⟨k', hk⟩ := Option.isSome_iff_exists.mp (h.toQueued.add_isSome t)
    have hon : (ListOp.add t).on k l = l ++ [t] := by simp [ListOp.on, ListOp.takes, ListOp.brings]
    rw [hon]
    exact ⟨k', hk, h.add ha hk⟩
  | removeAndDestroy t =>
    obtain ⟨k', hk⟩ := Option.isSome_iff_exists.mp (h.toQueued.destroy_isSome hf hback)
    exact ⟨k', hk, h.removeAndDestroy ha hk⟩
  | brokenOff t =>
    have hsome : ((ListOp.brokenOff t).exec env k).isSome := by
      simp only [ListOp.exec]
      split
      · rfl
      · exact h.toQueued.unlink_isSome hf
    obtain ⟨k', hk⟩ := Option.isSome_iff_exists.mp hsome
    exact ⟨k', hk, h.brokenOff ha hk⟩
  | reap =>
    obtain ⟨k', hk⟩ := Option.isSome_iff_exists.mp (h.toQueued.reap_isSome hf hback)
    rw [reaped_eq]
    exact ⟨k', hk, h.reap hk⟩
  | schedule old =>
    obtain ⟨regs, k', hk, h'⟩ := h.schedule hf hback old
    have hon : (ListOp.schedule old).on k l = l.filter k.survives := reaped_eq
    rw [hon]
    exact ⟨k', congrArg (Option.map Prod.snd) hk, h'⟩

theorem Listing.turning (h : Listing k l) : Turning k l := by
  induction h with
  | empty hh ht hn => exact ⟨⟨hh, List.nodup_nil, ht⟩, Or.inr hn⟩
  | op o _ ha hf hk ih =>
    obtain ⟨k', hk', h'⟩ := ih.exec o ha hf (ih.comesBack hk)
    cases hk.symm.trans hk'
    exact h'
  | aside _ ha ih => exact ih.aside ha

/-- In every run the list is there from `head` to `tail` without a task twice, and every operation on
it takes out no task but those it is to take out, puts a new one behind the others, and ends if
`kfree` does. -/
theorem list_kept (h : Listing k l) :
    Chain k.nexts k.head l none ∧ l.Nodup ∧ (k.tail = none ↔ k.head = none) ∧
      k.tail = l.getLast? ∧
      ∀ (o : ListOp) (env : Env), o.Allowed l → l.length ≤ env.fuel → o.ComesBack env k l →
        ∃ k', o.exec env k = some k' ∧
          Chain k'.nexts k'.head (l.filter (fun u => !o.takes k u) ++ o.brings) none ∧
          k'.tail = (l.filter (fun u => !o.takes k u) ++ o.brings).getLast? ∧
          Listing k' (l.filter (fun u => !o.takes k u) ++ o.brings) := by
  have ht := h.turning
  refine ⟨ht.chain, ht.nodup, ht.toQueued.tail_none, ht.tail, fun o env ha hf hback => ?_⟩
  obtain ⟨k', hk, h'⟩ := ht.exec o ha hf hback
  exact ⟨k', hk, h'.chain, h'.tail, .op o h ha hf hk⟩

/-- Two tasks, added after boot. -/
theorem list_kept_two : ∃ k1 k2, boot.add 5 = some k1 ∧ k1.add 6 = some k2 ∧
    Chain k2.nexts k2.head [5, 6] none ∧ k2.tail = some 6 ∧
      ∃ k', k2.removeAndDestroy quietEnv 5 = some k' ∧ Chain k'.nexts k'.head [6] none := by
  have hrun : ((boot.add 5).bind fun k1 => (k1.add 6).map fun k2 => k2.current) = some 0 := by
    decide
  obtain ⟨k1, hk1, h1⟩ := Option.bind_eq_some_iff.mp hrun
  obtain ⟨k2, hk2, hcur⟩ := Option.map_eq_some_iff.mp h1
  have hempty : Listing boot [] := .empty rfl rfl rfl
  have hone : Listing k1 [5] :=
    @Listing.op quietEnv _ _ _ (.add 5) hempty List.not_mem_nil (Nat.zero_le _) hk1
  have htwo : Listing k2 [5, 6] :=
    @Listing.op quietEnv _ _ _ (.add 6) hone (by decide) (by decide) hk2
  obtain ⟨hchain, -, -, htail, hops⟩ := list_kept htwo
  obtain ⟨k', hk', hchain', -⟩ := hops (.removeAndDestroy 5) quietEnv (by decide) (by decide) (fun _ => rfl)
  refine ⟨k1, k2, hk1, hk2, hchain, htail, k', hk', ?_⟩
  simpa [ListOp.takes, ListOp.brings, hcur] using hchain'

end LosTacOS.Os.Kernel
