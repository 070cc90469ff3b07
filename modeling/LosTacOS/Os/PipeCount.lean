import LosTacOS.Os.Tables
import Mathlib.Algebra.BigOperators.Fin

/-! The reader and writer counts of pipes against the descriptors that hold their ends. -/
namespace LosTacOS.Os

def Pipe.ends (q : Pipe) (reading : Bool) : Int := if reading then q.readers else q.writers

/-- Whether an entry holds a read end or a write end of pipe `i`. -/
def FdEntry.Holds (e : FdEntry) (reading : Bool) (i : Fin 32) : Prop :=
  e.type = .pipe ∧ e.pipe = some i ∧ (if reading then e.readable else e.writable) = true

instance (e : FdEntry) (b : Bool) (i : Fin 32) : Decidable (e.Holds b i) :=
  inferInstanceAs (Decidable (_ ∧ _ ∧ _))

def FdEntry.holds (b : Bool) (i : Fin 32) (e : FdEntry) : Nat := if e.Holds b i then 1 else 0

namespace Kernel

variable {env : Env} {k k' : Kernel} {l : List Nat} {p : Nat} {i : Fin 32} {b : Bool}

def count (k : Kernel) (b : Bool) (i : Fin 32) : Nat :=
  k.procs.total fun P => tableTotal (FdEntry.holds b i) P.fds

structure PipesCounted (k : Kernel) : Prop where
  ends : ∀ i b, (k.pipes i).ends b = k.count b i
  used : ∀ i, k.pipeUsed i = true ↔ ∃ b, 0 < k.count b i

theorem holds_of_type {e : FdEntry} (h : e.type ≠ .pipe) : e.holds b i = 0 :=
  if_neg fun hh => h hh.1

theorem holds_congr {e e' : FdEntry} (ht : e'.type = e.type) (hp : e'.pipe = e.pipe)
    (hr : e'.readable = e.readable) (hw : e'.writable = e.writable) :
    e'.holds b i = e.holds b i := by
  have h : e'.Holds b i ↔ e.Holds b i := by simp only [FdEntry.Holds, ht, hp, hr, hw]
  exact if_congr h rfl rfl

@[simp] theorem holds_zero : FdEntry.zero.holds b i = 0 := holds_of_type (by decide)

theorem boot_count : boot.count b i = 0 := by
  have h : ∀ P : Process, (∀ j, P.fds j = FdEntry.zero) →
      tableTotal (FdEntry.holds b i) P.fds = 0 := by
    intro P hP
    simp [tableTotal, hP]
  unfold count Arena.total
  refine Finset.sum_eq_zero fun c _ => h _ fun j => rfl

theorem boot_pipesCounted : PipesCounted boot where
  ends i b := by
    rw [boot_count]
    cases b with
    | false => rfl
    | true => rfl
  used i := by
    have hu : boot.pipeUsed i = false := rfl
    simp [boot_count, hu]

/-- Neither the number of holders nor the counts change. -/
theorem PipesCounted.of_count (h : PipesCounted k) (hc : ∀ b i, k'.count b i = k.count b i)
    (he : ∀ i b, (k'.pipes i).ends b = (k.pipes i).ends b) (hu : k'.pipeUsed = k.pipeUsed) :
    PipesCounted k' := by
  refine ⟨fun i b => ?_, fun i => ?_⟩
  · rw [he, hc]
    exact h.ends i b
  · rw [hu]
    simp only [hc]
    exact h.used i

theorem PipesCounted.congr (h : PipesCounted k) (hp : k'.procs = k.procs)
    (he : ∀ i b, (k'.pipes i).ends b = (k.pipes i).ends b) (hu : k'.pipeUsed = k.pipeUsed) :
    PipesCounted k' := by
  refine h.of_count (fun b i => ?_) he hu
  unfold count
  rw [hp]

theorem PipesCounted.keep (h : PipesCounted k) (hs : k'.procSide = k.procSide) :
    PipesCounted k' := by
  have hpipes : k'.pipes = k.pipes := congrArg ProcSide.pipes hs
  refine h.congr (congrArg ProcSide.procs hs) (fun i b => ?_) (congrArg ProcSide.pipeUsed hs)
  rw [hpipes]

section entries

theorem count_setEntry (hp : p ∈ k.procs.used) (j : Fin maxFds) (e : FdEntry) :
    (k.setEntry p j e).count b i + (k.entry p j).holds b i = k.count b i + e.holds b i := by
  have h1 := k.procs.total_set { k.proc p with fds := Function.update (k.proc p).fds j e }
    (fun P => tableTotal (FdEntry.holds b i) P.fds) hp
  have h2 := tableTotal_update (FdEntry.holds b i) (k.proc p).fds j e
  simp only [count, setEntry, setProc, entry, proc] at *
  omega

theorem adjust_ends (q : Pipe) (e : FdEntry) (d : Int) : (adjust q e d).ends b =
    q.ends b + if (if b then e.readable else e.writable) = true then d else 0 := by
  cases b with
  | false =>
    simp only [adjust, Pipe.ends, Bool.false_eq_true, if_false]
    split
    · rfl
    · simp
  | true =>
    simp only [adjust, Pipe.ends, if_true]
    split
    · rfl
    · simp

/-- The effect of `retain` and of `release` on the counts. -/
theorem update_adjust_ends {e : FdEntry} {j : Fin 32} (k : Kernel) (d : Int)
    (ht : e.type = .pipe) (hj : e.pipe = some j) :
    (Function.update k.pipes j (adjust (k.pipes j) e d) i).ends b =
      (k.pipes i).ends b + d * e.holds b i := by
  by_cases hij : i = j
  · subst hij
    rw [Function.update_self, adjust_ends]
    simp only [FdEntry.holds, FdEntry.Holds, ht, hj, true_and]
    split
    · simp
    · simp
  · have h0 : e.holds b i = 0 := if_neg fun hh => hij (Option.some.inj (hh.2.1.symm.trans hj))
    rw [Function.update_of_ne hij, h0]
    simp

theorem retain_ends (k : Kernel) (e : FdEntry) :
    ((k.retain e).pipes i).ends b = (k.pipes i).ends b + e.holds b i := by
  unfold retain
  split
  · rename_i j ht hj
    have h := update_adjust_ends (i := i) (b := b) k 1 ht hj
    rw [one_mul] at h
    exact h
  · rename_i hno
    have h0 : e.holds b i = 0 := if_neg fun hh => hno i hh.1 hh.2.1
    simp [h0]

theorem release_ends {e : FdEntry} (k : Kernel) (gone : Int → Bool) (ht : e.type = .pipe) :
    ((k.release e gone).pipes i).ends b = (k.pipes i).ends b - e.holds b i := by
  unfold release
  split
  · rename_i j hj
    have h := update_adjust_ends (i := i) (b := b) k (-1) ht hj
    rw [neg_one_mul] at h
    exact h
  · rename_i hno
    have h0 : e.holds b i = 0 := if_neg fun hh => by
      have := hh.2.1
      rw [hno] at this
      cases this
    simp [h0]

/-- The slot of the pipe is given back when both its counts say so. -/
theorem release_used {e : FdEntry} (k : Kernel) (gone : Int → Bool) :
    (k.release e gone).pipeUsed i = if e.pipe = some i ∧
      (∀ b, gone (((k.release e gone).pipes i).ends b) = true) then false else k.pipeUsed i := by
  unfold release
  split
  · rename_i j hj
    by_cases hij : i = j
    · subst hij
      simp only [hj, Function.update_self, true_and, Bool.forall_bool, Pipe.ends, if_true,
        Bool.false_eq_true, if_false]
      generalize adjust (k.pipes i) e (-1) = q
      by_cases hg : gone q.writers = true ∧ gone q.readers = true
      · simp [hg.1, hg.2]
      · have hg' : (gone q.readers && gone q.writers) ≠ true := by
          rw [ne_eq, Bool.and_eq_true]
          exact fun h => hg ⟨h.2, h.1⟩
        rw [if_neg hg, if_neg hg']
    · have hne : e.pipe ≠ some i := fun he => hij (Option.some.inj (he.symm.trans hj))
      simp only [hne, false_and, if_false]
      generalize (gone (adjust (k.pipes j) e (-1)).readers &&
        gone (adjust (k.pipes j) e (-1)).writers) = g
      cases g with
      | false => rfl
      | true => exact Function.update_of_ne hij _ _
  · rename_i hno
    simp [hno]

theorem PipesCounted.setEntry {e : FdEntry} {j : Fin maxFds} (h : PipesCounted k)
    (hp : p ∈ k.procs.used) (he : ∀ i b, e.holds b i = (k.entry p j).holds b i) :
    PipesCounted (k.setEntry p j e) := by
  have hcount : ∀ b i, (k.setEntry p j e).count b i = k.count b i := by
    intro b i
    have := count_setEntry (b := b) (i := i) hp j e
    rw [he i b] at this
    omega
  exact h.of_count hcount (fun _ _ => rfl) rfl

theorem PipesCounted.drop {j : Fin maxFds} {gone : Int → Bool} (h : PipesCounted k)
    (hp : p ∈ k.procs.used) (ht : (k.entry p j).type = .pipe)
    (hg : ∀ x : Int, 0 ≤ x → (gone x = true ↔ x = 0)) :
    PipesCounted ((k.release (k.entry p j) gone).setEntry p j FdEntry.zero) := by
  obtain ⟨pipes, pipeUsed, hrest⟩ := release_rest k (k.entry p j) gone
  have hcount : ∀ b i, ((k.release (k.entry p j) gone).setEntry p j FdEntry.zero).count b i +
      (k.entry p j).holds b i = k.count b i := by
    intro b i
    have hc := count_setEntry (b := b) (i := i) (k := k.release (k.entry p j) gone) (p := p)
      (by rw [hrest]; exact hp) j FdEntry.zero
    have hsame : (k.release (k.entry p j) gone).entry p j = k.entry p j := by
      rw [hrest]
      rfl
    have hsame' : (k.release (k.entry p j) gone).count b i = k.count b i := by
      rw [hrest]
      rfl
    rw [hsame, hsame', holds_zero] at hc
    exact hc
  have hends : ∀ i b, ((k.release (k.entry p j) gone).pipes i).ends b =
      ((k.release (k.entry p j) gone).setEntry p j FdEntry.zero).count b i := by
    intro i b
    rw [release_ends k gone ht, h.ends i b]
    have := hcount b i
    omega
  refine ⟨hends, fun i => ?_⟩
  change (k.release (k.entry p j) gone).pipeUsed i = true ↔ _
  rw [release_used]
  have hgone : ∀ b, gone (((k.release (k.entry p j) gone).pipes i).ends b) = true ↔
      ((k.release (k.entry p j) gone).setEntry p j FdEntry.zero).count b i = 0 := by
    intro b
    rw [hends i b, hg _ (by omega)]
    omega
  simp only [hgone]
  split
  · rename_i hz
    simp [hz.2]
  · rename_i hz
    rw [h.used i]
    constructor
    · intro ⟨b, hb⟩
      by_cases hpipe : (k.entry p j).pipe = some i
      · by_contra hnone
        push Not at hnone
        exact hz ⟨hpipe, fun b => by have := hnone b; omega⟩
      · have h0 : (k.entry p j).holds b i = 0 := if_neg fun hh => hpipe hh.2.1
        exact ⟨b, by have := hcount b i; omega⟩
    · intro ⟨b, hb⟩
      exact ⟨b, by have := hcount b i; omega⟩

theorem PipesCounted.copy {e : FdEntry} {j : Fin maxFds} (h : PipesCounted k)
    (hp : p ∈ k.procs.used) (hj : ∀ i b, (k.entry p j).holds b i = 0)
    (he : ∀ i b, e.holds b i ≤ k.count b i) : PipesCounted ((k.setEntry p j e).retain e) := by
  obtain ⟨pipes, hrest⟩ := retain_rest (k.setEntry p j e) e
  have hcount : ∀ b i, ((k.setEntry p j e).retain e).count b i = k.count b i + e.holds b i := by
    intro b i
    have hc := count_setEntry (b := b) (i := i) hp j e
    have hsame : ((k.setEntry p j e).retain e).count b i = (k.setEntry p j e).count b i := by
      rw [hrest]
      rfl
    rw [hj i b] at hc
    rw [hsame]
    omega
  refine ⟨fun i b => ?_, fun i => ?_⟩
  · rw [retain_ends, hcount]
    change (k.pipes i).ends b + _ = _
    rw [h.ends i b]
    omega
  · have hu : ((k.setEntry p j e).retain e).pipeUsed = k.pipeUsed := by
      rw [hrest]
      rfl
    rw [hu, h.used i]
    simp only [hcount]
    refine exists_congr fun b => ?_
    have := he i b
    omega

theorem holds_le_count (hp : p ∈ k.procs.used) (j : Fin maxFds) :
    (k.entry p j).holds b i ≤ k.count b i := by
  have hc := count_setEntry (b := b) (i := i) hp j FdEntry.zero
  rw [holds_zero] at hc
  omega

end entries

section descriptors

theorem openFd_some {fd : Int} {j : Fin maxFds} (hl : Listed k l) (h : k.openFd fd = some (p, j)) :
    p ∈ k.procs.used ∧ k.currentProc = some p ∧ (k.entry p j).type ≠ .none := by
  obtain ⟨hcur, hne⟩ := openFd_current h
  exact ⟨hl.currentProc_used hcur, hcur, hne⟩

theorem holds_of_none {j : Fin maxFds} (h : (k.entry p j).type = .none) :
    (k.entry p j).holds b i = 0 := holds_of_type (by rw [h]; decide)

theorem PipesCounted.sysClose (h : PipesCounted k) (hl : Listed k l) (fd : Int) :
    PipesCounted (k.sysClose fd).2 := by
  unfold Kernel.sysClose
  split
  · exact h
  · rename_i p j hfd
    obtain ⟨hp, _, _⟩ := openFd_some hl hfd
    -- the call to the file system changes nothing that counts here
    have hfs : ∀ log, PipesCounted ((if (k.entry p j).type = FdType.pipe then
        { k with fsLog := log }.release (k.entry p j) (· = 0) else
        { k with fsLog := log }).setEntry p j FdEntry.zero) := by
      intro log
      have h1 : PipesCounted { k with fsLog := log } := h.congr rfl (fun _ _ => rfl) rfl
      split
      · rename_i ht
        refine PipesCounted.drop h1 hp ht fun x _ => ?_
        simp
      · rename_i ht
        refine h1.setEntry hp fun i b => ?_
        rw [holds_zero]
        exact (holds_of_type ht).symm
    dsimp only
    cases k.fsOf (k.entry p j) .close with
    | none => exact hfs k.fsLog
    | some x => exact hfs _

theorem PipesCounted.closeEntry (h : PipesCounted k) (hp : p ∈ k.procs.used) (j : Fin maxFds) :
    PipesCounted (Kernel.closeEntry p k j) := by
  unfold Kernel.closeEntry
  dsimp only
  split
  · exact h
  · split
    · rename_i ht
      refine PipesCounted.drop h hp ht.1 fun x hx => ?_
      rw [decide_eq_true_iff]
      omega
    · rename_i ht
      have h0 : ∀ i b, FdEntry.zero.holds b i = (k.entry p j).holds b i := by
        intro i b
        rw [holds_zero]
        refine (if_neg fun hh => ht ⟨hh.1, ?_⟩).symm
        rw [hh.2.1]
        rfl
      cases k.fsOf (k.entry p j) .close with
      | none => exact h.setEntry hp h0
      | some x =>
        have h1 : PipesCounted (k.fsClose x.1 x.2) := h.congr rfl (fun _ _ => rfl) rfl
        exact h1.setEntry hp h0

theorem PipesCounted.sysDup (h : PipesCounted k) (hl : Listed k l) (fd : Int) :
    PipesCounted (k.sysDup fd).2 := by
  unfold Kernel.sysDup
  split
  · exact h
  · rename_i p j hfd
    obtain ⟨hp, _, _⟩ := openFd_some hl hfd
    split
    · exact h
    · rename_i j' hj
      exact h.copy hp (fun _ _ => holds_of_none (firstFree_none hj)) fun _ _ => holds_le_count hp j

theorem PipesCounted.dupFrom {j : Fin maxFds} {min : Int} (h : PipesCounted k)
    (hp : p ∈ k.procs.used) (ht : k.HasFree p min → (k.entry p j).type ≠ .pipe) :
    PipesCounted (k.dupFrom p j min).2 := by
  unfold Kernel.dupFrom
  split
  · rename_i hmin
    split
    · rename_i j' hj
      refine h.setEntry hp fun i b => ?_
      rw [holds_of_type (ht ⟨hmin.1, hmin.2, by rw [hj]; rfl⟩), holds_of_none (firstFree_none hj)]
    · exact h
  · exact h

/-- The copies that are not counted: those of `F_DUPFD`, and those of `dup2` over another end. -/
def countsPipes (env : Env) (k : Kernel) : Event → Prop
  | .fcntl fd cmd arg => cmd = 0 ∨ cmd = 1030 → ∀ p j, k.openFd fd = some (p, j) →
      k.HasFree p (cInt arg) → (k.entry p j).type ≠ .pipe
  | .dup2 old new => ∀ p i j, k.openFd old = some (p, i) → fdIndex new = some j →
      (k.entry p j).type ≠ .pipe
  | ev => discards (· ≠ .pipe) env k ev

theorem PipesCounted.sysDup2 (h : PipesCounted k) (hl : Listed k l) (old new : Int)
    (hok : countsPipes env k (.dup2 old new)) : PipesCounted (k.sysDup2 old new).2 := by
  unfold Kernel.sysDup2
  split
  · rename_i p j j' hfd hj
    obtain ⟨hp, _, _⟩ := openFd_some hl hfd
    exact h.copy hp (fun _ _ => holds_of_type (hok p j j' hfd hj)) fun _ _ => holds_le_count hp j
  · exact h

theorem PipesCounted.sysFcntl (h : PipesCounted k) (hl : Listed k l) (fd cmd : Int) (arg : UInt64)
    (hok : countsPipes env k (.fcntl fd cmd arg)) : PipesCounted (k.sysFcntl fd cmd arg).2 := by
  unfold Kernel.sysFcntl
  split
  · exact h
  · rename_i p j hfd
    obtain ⟨hp, _, _⟩ := openFd_some hl hfd
    dsimp only
    split
    · rename_i h0
      exact h.dupFrom hp (hok (Or.inl h0) p j hfd)
    · split
      · exact h
      · split
        · exact h.setEntry hp fun _ _ => holds_congr rfl rfl rfl rfl
        · split
          · exact h
          · split
            · exact h.setEntry hp fun _ _ => holds_congr rfl rfl rfl rfl
            · split
              · rename_i h1
                exact h.dupFrom hp (hok (Or.inr h1) p j hfd)
              · exact h

theorem firstFree_pair {r w : Fin maxFds}
    (h : (do
      let r ← k.firstFree p 3
      let w ← (List.finRange maxFds).find? fun j =>
        3 ≤ j.val ∧ (k.entry p j).type = .none ∧ j ≠ r
      some (r, w)) = some (r, w)) :
    (k.entry p r).type = .none ∧ (k.entry p w).type = .none ∧ w ≠ r := by
  simp only [Option.bind_eq_bind, Option.bind_eq_some_iff, Option.some.injEq, Prod.mk.injEq] at h
  obtain ⟨r', hr, w', hw, rfl, rfl⟩ := h
  have hw' := List.find?_some hw
  simp only [decide_eq_true_iff] at hw'
  exact ⟨firstFree_none hr, hw'.2.1, hw'.2.2⟩

theorem count_pair {r w : Fin maxFds} (hp : p ∈ k.procs.used) (hr : (k.entry p r).type = .none)
    (hw : (k.entry p w).type = .none) (hne : w ≠ r) (e1 e2 : FdEntry) :
    ((k.setEntry p r e1).setEntry p w e2).count b i =
      k.count b i + e1.holds b i + e2.holds b i := by
  have h1 := count_setEntry (b := b) (i := i) hp r e1
  have h2 := count_setEntry (k := k.setEntry p r e1) (b := b) (i := i) hp w e2
  rw [holds_of_none hr] at h1
  rw [setEntry_entry, if_neg fun hh => hne hh.2, holds_of_none hw] at h2
  omega

/-- The two entries `sys_pipe` builds hold one end each. -/
theorem holds_readEnd (b : Bool) (i : Fin 32) :
    FdEntry.holds b i { FdEntry.zero with type := .pipe, pipe := some i, readable := true } =
      if b = true then 1 else 0 := by
  cases b with
  | false => exact if_neg fun h => by cases h.2.2
  | true => exact if_pos ⟨rfl, rfl, rfl⟩

theorem holds_writeEnd (b : Bool) (i : Fin 32) :
    FdEntry.holds b i { FdEntry.zero with type := .pipe, pipe := some i, writable := true } =
      if b = false then 1 else 0 := by
  cases b with
  | false => exact if_pos ⟨rfl, rfl, rfl⟩
  | true => exact if_neg fun h => by cases h.2.2

theorem PipesCounted.sysPipe (h : PipesCounted k) (hl : Listed k l) : PipesCounted k.sysPipe.2 := by
  unfold Kernel.sysPipe
  split
  · exact h
  · rename_i p hcur
    have hp := hl.currentProc_used hcur
    split
    · exact h
    · rename_i i hi
      have hunused : k.pipeUsed i = false := by simpa using List.find?_some hi
      have hcount0 : ∀ b, k.count b i = 0 := by
        intro b
        by_contra hne
        have := (h.used i).mpr ⟨b, by omega⟩
        rw [hunused] at this
        cases this
      dsimp only
      split
      · refine h.congr rfl (fun j b => ?_) rfl
        by_cases hj : j = i
        · rw [hj, h.ends i b, hcount0 b]
          cases b with
          | false => simp [Function.update_self, Pipe.ends, Pipe.zero]
          | true => simp [Function.update_self, Pipe.ends, Pipe.zero]
        · change (Function.update k.pipes i Pipe.zero j).ends b = _
          rw [Function.update_of_ne hj]
      · rename_i r w hrw
        obtain ⟨hr, hw, hne⟩ := firstFree_pair hrw
        have hcount : ∀ b j, ((k.setEntry p r { FdEntry.zero with
            type := .pipe, pipe := some i, readable := true }).setEntry p w { FdEntry.zero with
              type := .pipe, pipe := some i, writable := true }).count b j =
            if j = i then 1 else k.count b j := by
          intro b j
          rw [count_pair hp hr hw hne]
          by_cases hj : j = i
          · rw [if_pos hj, hj, hcount0 b, holds_readEnd, holds_writeEnd]
            cases b with
            | false => rfl
            | true => rfl
          · have hz : ∀ e : FdEntry, e.pipe = some i → e.holds b j = 0 := fun e he =>
              if_neg fun hh => hj (Option.some.inj (hh.2.1.symm.trans he))
            rw [if_neg hj, hz _ rfl, hz _ rfl]
            rfl
        refine ⟨fun j b => ?_, fun j => ?_⟩
        · refine Eq.trans ?_ (congrArg Nat.cast (hcount b j).symm)
          change (Function.update k.pipes i _ j).ends b = _
          by_cases hj : j = i
          · rw [hj, Function.update_self, if_pos rfl]
            cases b with
            | false => rfl
            | true => rfl
          · rw [Function.update_of_ne hj, if_neg hj]
            exact h.ends j b
        · change Function.update k.pipeUsed i true j = true ↔ ∃ b, 0 < _
          have hiff : (∃ b, 0 < if j = i then 1 else k.count b j) ↔
              Function.update k.pipeUsed i true j = true := by
            by_cases hj : j = i
            · simp [hj]
            · simp only [if_neg hj, Function.update_of_ne hj]
              exact (h.used j).symm
          rw [← hiff]
          exact exists_congr fun b => by rw [← hcount b j]; rfl

end descriptors

section tables

theorem PipesCounted.setProc {x : Process} (h : PipesCounted k) (hx : x.fds = (k.proc p).fds) :
    PipesCounted (k.setProc p x) := by
  refine h.of_count (fun b i => ?_) (fun _ _ => rfl) rfl
  unfold count Arena.total
  refine Finset.sum_congr rfl fun c _ => ?_
  have hfds : ((k.procs.set p x).cell c).fds = (k.procs.cell c).fds := by
    rw [Arena.set_cell]
    split
    · rename_i hc
      rw [hx, hc]
      rfl
    · rfl
  exact congrArg (tableTotal (FdEntry.holds b i)) hfds

theorem tableTotal_zero {f : Fin maxFds → FdEntry} (h : ∀ j, (f j).type ≠ .pipe) :
    tableTotal (FdEntry.holds b i) f = 0 :=
  Finset.sum_eq_zero fun j _ => holds_of_type (h j)

theorem PipesCounted.newProcess {c : Nat} (h : PipesCounted k) (hc : c ∉ k.procs.used) :
    PipesCounted (k.newProcess c) := by
  refine h.of_count (fun b i => ?_) (fun _ _ => rfl) rfl
  have ht := k.procs.total_alloc { Process.zero with pid := k.pidCounter }
    (fun P => tableTotal (FdEntry.holds b i) P.fds) hc
  refine ht.trans ?_
  rw [tableTotal_zero fun j => by simp [Process.zero, FdEntry.zero]]
  rfl

theorem PipesCounted.freeProcess (h : PipesCounted k) (hp : p ∈ k.procs.used)
    (hno : ∀ j, (k.entry p j).type ≠ .pipe) : PipesCounted (k.freeProcess p) := by
  refine h.of_count (fun b i => ?_) (fun _ _ => rfl) rfl
  have ht := k.procs.total_free (fun P => tableTotal (FdEntry.holds b i) P.fds) hp
  rw [tableTotal_zero (f := (k.procs.cell p).fds) hno] at ht
  exact ht

theorem pipesCounted_tables : TableRule PipesCounted (· ≠ .pipe) where
  free := by decide
  tasks _ _ _ _ _ h := h.congr rfl (fun _ _ => rfl) rfl
  thread _ h := h.setProc rfl
  home h := h.setProc rfl
  create h hc := h.newProcess hc
  discard h hp hq := h.freeProcess hp hq
  close j h hp := h.closeEntry hp j

theorem foldl_retain_ends (is : List (Fin maxFds)) (k : Kernel) (c : Nat) :
    ((is.foldl (fun k j => k.retain (k.entry c j)) k).pipes i).ends b =
      (k.pipes i).ends b + (is.map fun j => (k.entry c j).holds b i).sum := by
  induction is generalizing k with
  | nil => simp
  | cons j is ih =>
    obtain ⟨pipes, hrest⟩ := retain_rest k (k.entry c j)
    have hentry : ∀ j', (k.retain (k.entry c j)).entry c j' = k.entry c j' := by
      intro j'
      rw [hrest]
      rfl
    rw [List.foldl_cons, ih, retain_ends]
    simp only [hentry, List.map_cons, List.sum_cons]
    push_cast
    omega

/-- The table of the child adds as many holders as `inherit` counts. -/
theorem PipesCounted.inherit {parent c : Nat} {q : Kernel} (h : PipesCounted q)
    (hnew : TableRule.Fresh k parent c q) : PipesCounted (q.inherit parent c) := by
  obtain ⟨pipes, hrest⟩ := inherit_rest q parent c
  have hcount : ∀ b i, (q.inherit parent c).count b i =
      q.count b i + tableTotal (FdEntry.holds b i) (q.proc parent).fds := by
    intro b i
    have ht := q.procs.total_set (q.heir parent c)
      (fun P => tableTotal (FdEntry.holds b i) P.fds) hnew.child
    have hz : tableTotal (FdEntry.holds b i) (q.procs.cell c).fds = 0 := by
      refine tableTotal_zero fun j => ?_
      have he : (q.procs.cell c).fds j = FdEntry.zero := hnew.zero j
      rw [he]
      decide
    rw [hz] at ht
    rw [hrest]
    exact ht
  refine ⟨fun i b => ?_, fun i => ?_⟩
  · have hf := foldl_retain_ends (i := i) (b := b) (List.finRange maxFds)
      (q.setProc c (q.heir parent c)) c
    have hentry : ∀ j, (q.setProc c (q.heir parent c)).entry c j = (q.proc parent).fds j := by
      intro j
      unfold Kernel.entry Kernel.proc Kernel.setProc
      rw [Arena.set_cell_self]
      rfl
    simp only [hentry] at hf
    have hsum : (List.map (fun j => ((q.proc parent).fds j).holds b i) (List.finRange maxFds)).sum =
        tableTotal (FdEntry.holds b i) (q.proc parent).fds := (Fin.sum_univ_def _).symm
    have hpipes : (q.setProc c (q.heir parent c)).pipes = q.pipes := rfl
    rw [hsum, hpipes, h.ends i b] at hf
    rw [hcount]
    exact hf.trans (by push_cast; rfl)
  · have hu : (q.inherit parent c).pipeUsed = q.pipeUsed := by
      rw [hrest]
      rfl
    rw [hu, h.used i]
    simp only [hcount]
    refine exists_congr fun b => ?_
    -- what the parent holds is counted already
    have hle := q.procs.total_free (fun P => tableTotal (FdEntry.holds b i) P.fds) hnew.old
    have hc : q.count b i = q.procs.total fun P => tableTotal (FdEntry.holds b i) P.fds := rfl
    rw [← hc] at hle
    change _ + tableTotal (FdEntry.holds b i) (q.proc parent).fds = _ at hle
    omega

theorem PipesCounted.fileCall (h : PipesCounted k) (hl : Listed k l) (hc : FileCall k k') :
    PipesCounted k' := by
  cases hc with
  | same hs => exact h.keep hs
  | moved hp hs =>
    refine PipesCounted.keep (h.setEntry (hl.currentProc_used hp) fun i b => ?_) hs
    exact holds_congr rfl rfl rfl rfl
  | taken hp hfree ht hpipe hs =>
    refine PipesCounted.keep (h.setEntry (hl.currentProc_used hp) fun i b => ?_) hs
    rw [holds_of_none hfree]
    refine holds_of_type ?_
    rw [ht]
    decide
  | left hp hs =>
    rename_i p cwd
    have h1 : PipesCounted (k.setProc p { k.proc p with cwd }) := h.setProc rfl
    exact h1.keep hs

theorem PipesCounted.pipeCall {j : Fin 32} {q : Pipe} (h : PipesCounted k)
    (hc : PipeCall k k' j q) : PipesCounted k' := by
  rw [hc.rest]
  refine h.congr rfl (fun i b => ?_) rfl
  dsimp only
  by_cases hi : i = j
  · rw [hi, Function.update_self]
    unfold Pipe.ends
    rw [hc.readers, hc.writers]
  · rw [Function.update_of_ne hi]

end tables

section runs

theorem PipesCounted.step {ev : Event} {r : Reply} (h : PipesCounted k) (hl : Listed k l)
    (hok : countsPipes env k ev) (hs : k.step env ev = some (r, k')) : PipesCounted k' := by
  cases hq : ev.lifecycle with
  | true =>
    have hd : discards (· ≠ .pipe) env k ev := by
      cases ev with
      | dup2 old new => trivial
      | fcntl fd cmd arg => trivial
      | _ => exact hok
    exact pipesCounted_tables.lifecycle hl h hq hd
      (fun _ hi hf => hi.keep (find_procSide _ _ _ _ hf))
      (fun _ _ _ _ _ hi hnew => hi.inherit hnew) hs
  | false =>
    cases ht : ev.onTable with
    | false =>
      cases step_fileCall hq ht hs with
      | inl hc => exact h.fileCall hl hc
      | inr hc =>
        obtain ⟨j, q, hc⟩ := hc
        exact h.pipeCall hc
    | true =>
      cases ev with
      | pipe =>
        simp only [Kernel.step] at hs
        have hk : k' = k.sysPipe.2 := answer_pure hs
        rw [hk]
        exact h.sysPipe hl
      | close fd =>
        have hk : k' = (k.sysClose fd).2 := answer_pure hs
        rw [hk]
        exact h.sysClose hl fd
      | dup fd =>
        have hk : k' = (k.sysDup fd).2 := answer_pure hs
        rw [hk]
        exact h.sysDup hl fd
      | dup2 old new =>
        have hk : k' = (k.sysDup2 old new).2 := answer_pure hs
        rw [hk]
        exact h.sysDup2 hl old new hok
      | fcntl fd cmd arg =>
        have hk : k' = (k.sysFcntl fd cmd arg).2 := answer_pure hs
        rw [hk]
        exact h.sysFcntl hl fd cmd arg hok
      | _ => cases ht

/-- In every run without the uncounted copies, and in which no table with a pipe in it is thrown
away, the counts of all pipes are right. -/
theorem pipes_counted (h : Reached countsPipes k) : PipesCounted k := by
  refine (h.invariant (I := fun k => (∃ l, Listed k l) ∧ PipesCounted k)
    ⟨⟨[], boot_listed⟩, boot_pipesCounted⟩ ?_).2
  intro k k' env ev r hi hok hs
  obtain ⟨⟨l, hl⟩, hp⟩ := hi
  exact ⟨step_listed hl hs, hp.step hl hok hs⟩

theorem Reaps.of_alive {Q : FdType → Prop} (h : ∀ u ∈ k.tasks.used, k.survives u = true) :
    k.Reaps Q := by
  intro u hu hs
  rw [h u hu] at hs
  cases hs

theorem pipes_counted_first_pipe : ∃ k, boot.runAll pipeRun = some k ∧ k.count true 0 = 1 ∧
    PipesCounted k := by
  have hrun : (boot.runAll pipeRun).any (fun k => k.count true 0 = 1) = true := by decide +kernel
  have hspawn : (boot.runAll [(freshEnv, .spawn [])]).any
      (fun k => ∀ u ∈ k.tasks.used, k.survives u = true) = true := by decide +kernel
  obtain ⟨k, hk, hcount⟩ := any_exists hrun
  obtain ⟨k1, hk1, hr1, hk⟩ := Reached.first (Reached.boot : Reached countsPipes boot) hk trivial
  obtain ⟨k1', hk1', halive⟩ := any_exists hspawn
  cases hk1.symm.trans hk1'
  have hreaps : k1.Reaps (· ≠ .pipe) := Reaps.of_alive (of_decide_eq_true halive)
  obtain ⟨k2, _, hr2, hk⟩ := hr1.first hk hreaps
  obtain ⟨k3, _, hr3, hk⟩ := hr2.first hk trivial
  cases hk
  exact ⟨_, by assumption, of_decide_eq_true hcount, pipes_counted hr3⟩

/-- The copy of `F_DUPFD` is not counted. -/
theorem dupfd_uncounted : ¬ ∀ k, Reached (fun _ _ ev => ev.lifecycle = true ∨ ev.onTable = true) k →
    PipesCounted k := by
  intro hall
  have hrun : (boot.runAll (pipeRun ++ [(freshEnv, .fcntl 3 0 0)])).any
      (fun k => k.count true 0 = 2 ∧ (k.pipes 0).readers = 1) = true := by decide +kernel
  obtain ⟨k, hk, h⟩ := any_exists hrun
  obtain ⟨hcount, hreaders⟩ := of_decide_eq_true h
  have hreach : Reached (fun _ _ ev => ev.lifecycle = true ∨ ev.onTable = true) k := by
    refine Reached.boot.runAll (fun q s hs => ?_) hk
    revert s
    decide
  have hends := (hall k hreach).ends 0 true
  rw [hcount] at hends
  unfold Pipe.ends at hends
  rw [if_pos rfl, hreaders] at hends
  cases hends

end runs

end Kernel

end LosTacOS.Os
