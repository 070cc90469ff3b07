import LosTacOS.Os.Pointers

/-! The handles that file systems return: each is closed at most once and not used afterwards. -/
namespace LosTacOS.Os

def FsCall.Mentions (h : Nat) : FsCall → Prop
  | .opened _ _ _ => False
  | .used _ _ h' => h' = h
  | .closed _ h' => h' = h
  | .asProcFile h' => h' = h

/-- No call of `newer` is made with a handle that `older` closes. -/
def FsCall.Respects (newer older : FsCall) : Prop :=
  ∀ fs h, older = .closed fs h → ¬ newer.Mentions h

namespace Kernel

variable {env : Env} {k k' : Kernel} {l : List Nat} {p q : Nat} {i j : Fin maxFds} {h : Nat}

def Closed (k : Kernel) (h : Nat) : Prop := ∃ fs, FsCall.closed fs h ∈ k.fsLog

structure ClosedOnce (k : Kernel) : Prop where
  calls : k.fsLog.Pairwise FsCall.Respects
  entries : ∀ h, k.Closed h → ∀ p ∈ k.procs.used, ∀ i, (k.entry p i).fsHandle ≠ some h

/-- The invariant: in addition each handle is in one descriptor at most, and handles to come are
new. -/
structure Single (k : Kernel) : Prop extends ClosedOnce k where
  unique : ∀ h, ∀ p ∈ k.procs.used, ∀ i, (k.entry p i).fsHandle = some h →
    ∀ q ∈ k.procs.used, ∀ j, (k.entry q j).fsHandle = some h → q = p ∧ j = i
  known : ∀ p ∈ k.procs.used, ∀ i h, (k.entry p i).fsHandle = some h → h < k.handles
  past : ∀ h, k.Closed h → h < k.handles

section changes

theorem Single.congr (h : Single k) (hl : k'.fsLog = k.fsLog) (hh : k'.handles = k.handles)
    (he : ∀ p ∈ k'.procs.used, ∀ i x, (k'.entry p i).fsHandle = some x →
      p ∈ k.procs.used ∧ (k.entry p i).fsHandle = some x) : Single k' := by
  have hcl : ∀ x, k'.Closed x → k.Closed x := by
    intro x hc
    obtain ⟨fs, hc⟩ := hc
    rw [hl] at hc
    exact ⟨fs, hc⟩
  refine ⟨⟨?_, ?_⟩, ?_, ?_, ?_⟩
  · rw [hl]
    exact h.calls
  · intro x hx p hp i hpi
    obtain ⟨hp', hpi'⟩ := he p hp i x hpi
    exact h.entries x (hcl x hx) p hp' i hpi'
  · intro x p hp i hpi q hq j hqj
    obtain ⟨hp', hpi'⟩ := he p hp i x hpi
    obtain ⟨hq', hqj'⟩ := he q hq j x hqj
    exact h.unique x p hp' i hpi' q hq' j hqj'
  · intro p hp i x hx
    obtain ⟨hp', hx'⟩ := he p hp i x hx
    rw [hh]
    exact h.known p hp' i x hx'
  · intro x hx
    rw [hh]
    exact h.past x (hcl x hx)

theorem Single.same (h : Single k) (hl : k'.fsLog = k.fsLog) (hh : k'.handles = k.handles)
    (hp : k'.procs = k.procs) : Single k' := by
  refine h.congr hl hh fun p hu i x hx => ?_
  unfold entry proc at hx ⊢
  rw [hp] at hu hx
  exact ⟨hu, hx⟩

theorem Single.setEntry {e : FdEntry} (h : Single k)
    (he : e.fsHandle = none ∨ e.fsHandle = (k.entry p i).fsHandle) : Single (k.setEntry p i e) := by
  refine h.congr rfl rfl fun q hq j x hx => ⟨hq, ?_⟩
  rw [setEntry_entry] at hx
  split at hx
  · rename_i hqj
    rw [hqj.1, hqj.2]
    cases he with
    | inl h0 =>
      rw [h0] at hx
      cases hx
    | inr h0 =>
      rw [h0] at hx
      exact hx
  · exact hx

theorem Single.setProc {x : Process} (h : Single k) (hx : x.fds = (k.proc p).fds) :
    Single (k.setProc p x) := by
  refine h.congr rfl rfl fun q hq j y hy => ⟨hq, ?_⟩
  rw [setProc_entry hx] at hy
  exact hy

theorem Single.logged {c : FsCall} (hs : Single k) (hc : ∀ fs x, c ≠ .closed fs x)
    (hm : ∀ x, c.Mentions x → ¬ k.Closed x) {n : Nat} (hn : k.handles ≤ n) :
    Single { k with fsLog := c :: k.fsLog, handles := n } := by
  have hcl : ∀ x, Closed { k with fsLog := c :: k.fsLog, handles := n } x → k.Closed x := by
    intro x hx
    obtain ⟨fs, hx⟩ := hx
    cases hx with
    | head => exact absurd rfl (hc fs x)
    | tail _ hx => exact ⟨fs, hx⟩
  refine ⟨⟨?_, ?_⟩, hs.unique, ?_, ?_⟩
  · refine List.pairwise_cons.mpr ⟨fun d hd fs x he hmen => hm x hmen ⟨fs, ?_⟩, hs.calls⟩
    rw [← he]
    exact hd
  · exact fun x hx => hs.entries x (hcl x hx)
  · exact fun a ha b x hx => lt_of_lt_of_le (hs.known a ha b x hx) hn
  · exact fun x hx => lt_of_lt_of_le (hs.past x (hcl x hx)) hn

theorem Single.close {fs : FileSystem} (hs : Single k) (hlt : h < k.handles) (hno : ¬ k.Closed h)
    (hfree : ∀ p ∈ k.procs.used, ∀ i, (k.entry p i).fsHandle ≠ some h) :
    Single (k.fsClose fs h) := by
  have hcl : ∀ x, (k.fsClose fs h).Closed x → x = h ∨ k.Closed x := by
    intro x hx
    obtain ⟨fs', hx⟩ := hx
    cases hx with
    | head => exact Or.inl rfl
    | tail _ hx => exact Or.inr ⟨fs', hx⟩
  refine ⟨⟨?_, ?_⟩, hs.unique, hs.known, ?_⟩
  · refine List.pairwise_cons.mpr ⟨fun d hd fs' x he hmen => hno ⟨fs', ?_⟩, hs.calls⟩
    have hxh : h = x := hmen
    rw [hxh, ← he]
    exact hd
  · intro x hx
    cases hcl x hx with
    | inl hxh =>
      rw [hxh]
      exact hfree
    | inr hx => exact hs.entries x hx
  · intro x hx
    cases hcl x hx with
    | inl hxh =>
      rw [hxh]
      exact hlt
    | inr hx => exact hs.past x hx

theorem Single.opened {fs : FileSystem} {data : Nat} (hs : Single k) (found : Bool) :
    Single (k.opened fs data found) := by
  have hno : ∀ x, ¬ FsCall.Mentions x
      (.opened fs data (if found then some k.handles else none)) := fun _ hm => hm
  exact hs.logged (fun _ _ he => by cases he) (fun x hm => absurd hm (hno x)) (Nat.le_succ _)

theorem Single.asked {fs : FileSystem} {data : Nat} (hs : Single k) (found : Bool) :
    Single (k.asked fs data found) := by
  cases found with
  | false => exact hs.opened false
  | true =>
    refine (hs.opened true).close (Nat.lt_succ_self _) ?_ ?_
    · intro hc
      obtain ⟨fs', hc⟩ := hc
      cases hc with
      | tail _ hc => exact Nat.lt_irrefl _ (hs.past _ ⟨fs', hc⟩)
    · exact fun p hp i he => Nat.lt_irrefl _ (hs.known p hp i _ he)

theorem Single.take {fs : FileSystem} {data m : Nat} (hs : Single k) (p : Nat) (i : Fin maxFds) :
    Single ((k.opened fs data true).setEntry p i (mountedEntry m k.handles)) := by
  have ho : Single (k.opened fs data true) := hs.opened true
  -- an entry has the new handle exactly at the new place
  have hentry : ∀ q ∈ k.procs.used, ∀ j x, (((k.opened fs data true).setEntry p i
      (mountedEntry m k.handles)).entry q j).fsHandle = some x →
        if q = p ∧ j = i then x = k.handles else (k.entry q j).fsHandle = some x := by
    intro q _ j x hx
    rw [setEntry_entry] at hx
    split at hx
    · rename_i hqj
      rw [if_pos hqj]
      exact (Option.some.inj hx).symm
    · rename_i hqj
      rw [if_neg hqj]
      exact hx
  have hnew : ∀ x, (k.opened fs data true).Closed x → x < k.handles := by
    intro x hx
    obtain ⟨fs', hx⟩ := hx
    cases hx with
    | tail _ hx => exact hs.past x ⟨fs', hx⟩
  refine ⟨⟨ho.calls, ?_⟩, ?_, ?_, ho.past⟩
  · intro x hx q hq j hqj
    have he := hentry q hq j x hqj
    have hlt := hnew x hx
    split at he
    · omega
    · exact ho.entries x hx q hq j he
  · intro x a ha b hab q hq j hqj
    have h1 := hentry a ha b x hab
    have h2 := hentry q hq j x hqj
    split at h1
    · rename_i hab'
      split at h2
      · rename_i hqj'
        exact ⟨hqj'.1.trans hab'.1.symm, hqj'.2.trans hab'.2.symm⟩
      · have := hs.known q hq j x h2
        omega
    · split at h2
      · have := hs.known a ha b x h1
        omega
      · exact hs.unique x a ha b h1 q hq j h2
  · intro a ha b x hab
    have h1 := hentry a ha b x hab
    change x < k.handles + 1
    split at h1
    · omega
    · have := hs.known a ha b x h1
      omega

end changes

section rule

theorem Single.not_closed {fs : FileSystem} {c : Callback} (hs : Single k) (hp : p ∈ k.procs.used)
    (hf : k.fsOf (k.entry p i) c = some (fs, h)) : (k.entry p i).fsHandle = some h ∧
      ¬ k.Closed h := by
  obtain ⟨m, _, hh, _⟩ := fsOf_some hf
  exact ⟨hh, fun hc => hs.entries h hc p hp i hh⟩

theorem single_tree : TreeRule env Single (fun k k' => k'.procSide = k.procSide) (fun _ _ => True)
    (fun _ _ _ => True) where
  refl _ := rfl
  trans h h' := h'.trans h
  keep _ _ := trivial
  root _ := trivial
  cwd _ := trivial
  parent _ _ _ := trivial
  child _ _ _ := trivial
  alloc h := ⟨h.same rfl rfl rfl, rfl⟩
  device _ h := ⟨h.same rfl rfl rfl, rfl⟩
  dev := by
    intro k name dir n k' dev h _ _ hc
    obtain ⟨_, rfl⟩ := createNode_eq env hc
    exact ⟨h.same rfl rfl rfl, rfl⟩
  ask := by
    intro k k' n fs found _ _ _ _ _ h' _
    refine ⟨h'.asked found, ?_⟩
    cases found with
    | false => rfl
    | true => rfl
  create := by
    intro k name d dir n k' h _ hc
    obtain ⟨_, rfl⟩ := createNode_eq env hc
    exact ⟨h.same rfl rfl rfl, rfl, trivial⟩
  link _ h _ := ⟨h.same rfl rfl rfl, rfl⟩
  file _ h _ := ⟨h.same rfl rfl rfl, rfl⟩
  data _ _ _ _ _ h := ⟨h.same rfl rfl rfl, rfl⟩
  carry _ _ := trivial
  null := trivial
  volume _ _ h := ⟨h.same rfl rfl rfl, rfl, trivial⟩
  retype h _ _ := ⟨h.same rfl rfl rfl, rfl⟩
  table h _ _ := ⟨h.same rfl rfl rfl, rfl⟩

theorem single_calls : CallRule env Single (fun k k' => k'.procSide = k.procSide) (fun _ _ => True)
    (fun _ _ _ => True) (fun e => e.fsHandle = none) where
  tree := single_tree.alive id
  procs h := h
  tasks _ _ _ _ _ h := h.same rfl rfl rfl
  thread _ h := h.setProc rfl
  newProcess := by
    intro k c h hc
    refine h.congr rfl rfl fun q hq i x hx => ?_
    rw [newProcess_entry] at hx
    split at hx
    · cases hx
    · rename_i hqc
      exact ⟨Finset.mem_of_mem_insert_of_ne hq hqc, hx⟩
  discard h _ := h.congr rfl rfl fun _ hp _ _ hx => ⟨Finset.mem_of_mem_erase hp, hx⟩
  inherit := by
    intro k parent c q h hnew hc
    obtain ⟨pipes, hr⟩ := inherit_rest q parent c
    rw [hr]
    refine h.congr rfl rfl fun a ha i x hx => ⟨ha, ?_⟩
    change (Process.fds ((q.procs.set c (q.heir parent c)).cell a) i).fsHandle = some x at hx
    rw [Arena.set_cell] at hx
    split at hx
    · have hnone : ((q.heir parent c).fds i).fsHandle = none := hc i
      rw [hnone] at hx
      cases hx
    · exact hx
  home h := h.setProc rfl
  enterDir h _ := h.setProc rfl
  pipes _ _ h := h.same rfl rfl rfl
  altered _ _ _ h _ := h.setEntry (Or.inr rfl)
  plain h _ _ _ hh := h.setEntry (Or.inl hh)
  copied h _ hc := h.setEntry (Or.inl hc)
  held _ _ _ := trivial
  node h _ _ _ := h.setEntry (Or.inl rfl)
  mounted := by
    intro k q m fs found _ _ _ _ hq _
    refine ⟨hq.opened found, fun p i _ hf _ => ?_⟩
    rw [hf]
    exact hq.take p i
  used := by
    intro k p i fs hd c h hp hf
    obtain ⟨_, hno⟩ := h.not_closed hp hf
    refine h.logged (fun _ _ he => by cases he) (fun x hx => ?_) (Nat.le_refl _)
    have hxh : hd = x := hx
    rw [← hxh]
    exact hno
  closed := by
    intro k p i fs hd h hp hf
    obtain ⟨hh, hno⟩ := h.not_closed hp hf
    have h1 : Single (k.setEntry p i FdEntry.zero) := h.setEntry (Or.inl rfl)
    refine h1.close (h.known p hp i hd hh) hno fun q hq j hqj => ?_
    rw [setEntry_entry] at hqj
    split at hqj
    · cases hqj
    · rename_i hne
      exact hne (h.unique hd p hp i hh q hq j hqj)

end rule

section runs

def copiesNoHandle (_ : Env) (k : Kernel) (ev : Event) : Prop :=
  Copies (fun e => e.fsHandle = none) k ev

theorem Single.step {ev : Event} {r : Reply} (h : Single k) (hl : Listed k l)
    (hok : copiesNoHandle env k ev) (hs : k.step env ev = some (r, k')) : Single k' := by
  refine single_calls.step h hl hok (fun _ _ _ _ => trivial) ?_ ?_ ?_ hs
  · intro path r q _ hu
    exact single_tree.umount h (fun _ => h.same rfl rfl rfl)
      (fun hq _ => ⟨hq.same rfl rfl rfl, rfl⟩) (fun _ hq _ => hq.same rfl rfl rfl) hu
  · intro path r q _ hr
    exact single_tree.remove h (fun hi _ _ _ _ _ _ => hi.same rfl rfl rfl) hr
  · intro fd p i m fs hd _ hfd _ _ _ hh
    have hp := hl.currentProc_used (openFd_current hfd).1
    refine h.logged (fun _ _ he => by cases he) (fun x hx hc => ?_) (Nat.le_refl _)
    have hxh : hd = x := hx
    exact h.entries x hc p hp i (hxh ▸ hh)

end runs

end Kernel

end LosTacOS.Os
