import LosTacOS.Os.PipeCount
import LosTacOS.Os.PipeWait

/-! The bytes that go through a pipe: what was read, followed by what is still there, is what was
written. -/
namespace LosTacOS.Os

namespace Kernel

variable {env : Env} {k k' : Kernel} {l : List Nat} {p : Nat} {i : Fin 32}

section stream

def Still (k k' : Kernel) : Prop := ∀ i, (k'.pipes i).stream = (k.pipes i).stream

theorem adjust_stream (q : Pipe) (e : FdEntry) (d : Int) : (adjust q e d).stream = q.stream := rfl

theorem update_stream {j : Fin 32} {q : Pipe} (h : q.stream = (k.pipes j).stream) (i : Fin 32) :
    (Function.update k.pipes j q i).stream = (k.pipes i).stream := by
  by_cases hi : i = j
  · rw [hi, Function.update_self]
    exact h
  · rw [Function.update_of_ne hi]

theorem retain_still (k : Kernel) (e : FdEntry) : Still k (k.retain e) := by
  unfold retain
  split
  · exact update_stream (adjust_stream ..)
  · exact fun _ => rfl

theorem release_still (k : Kernel) (e : FdEntry) (gone : Int → Bool) :
    Still k (k.release e gone) := by
  unfold release
  split
  · exact update_stream (adjust_stream ..)
  · exact fun _ => rfl

theorem Still.trans {k1 : Kernel} (h : Still k k1) (h' : Still k1 k') : Still k k' :=
  fun i => (h' i).trans (h i)

theorem foldl_retain_still (f : Kernel → Fin maxFds → FdEntry) (is : List (Fin maxFds))
    (k : Kernel) : Still k (is.foldl (fun k i => k.retain (f k i)) k) := by
  induction is generalizing k with
  | nil => exact fun _ => rfl
  | cons i is ih => exact (retain_still k _).trans (ih _)

theorem inherit_still (k : Kernel) (parent c : Nat) : Still k (k.inherit parent c) :=
  have h : Still k (k.setProc c (k.heir parent c)) := fun _ => rfl
  h.trans (foldl_retain_still _ _ _)

theorem closeEntry_still (k : Kernel) (p : Nat) (j : Fin maxFds) :
    Still k (closeEntry p k j) := by
  unfold closeEntry
  dsimp only
  split
  · exact fun _ => rfl
  · split
    · exact release_still k _ _
    · split
      · exact fun _ => rfl
      · exact fun _ => rfl

theorem still_tables (k0 : Kernel) : TableRule (Still k0) (fun _ => True) where
  free := trivial
  tasks _ _ _ _ _ h := h
  thread _ h := h
  home h := h
  create h _ := h
  discard h _ _ := h
  close j h _ := h.trans (closeEntry_still _ _ j)

theorem FileCall.still (h : FileCall k k') : Still k k' := by
  have hp : k'.pipes = k.pipes := by
    cases h with
    | same hs => exact congrArg ProcSide.pipes hs
    | moved _ hs => exact congrArg ProcSide.pipes hs
    | taken _ _ _ _ hs => exact congrArg ProcSide.pipes hs
    | left _ hs => exact congrArg ProcSide.pipes hs
  intro i
  rw [hp]

end stream

section runs

def accepted (k : Kernel) (i : Fin 32) (r : Reply) : Event → List UInt8
  | .write fd data => if k.writeEnd fd = some i then data.take r.value.toNat else []
  | _ => []

def returned (k : Kernel) (i : Fin 32) (r : Reply) : Event → List UInt8
  | .read fd _ => if k.readEnd fd = some i then r.bytes else []
  | _ => []

/-- A kernel with the bytes that went into a pipe, those that came out, and the reads of it that have
waited and not yet returned. -/
structure Traffic where
  sent : List UInt8
  got : List UInt8
  readers : List Reader
  kernel : Kernel

/-- What happens: a call, which is one step; a read that begins to wait; a step of a read that has
waited; and the end of a process in such a read. -/
inductive PipeMove where
  | call (ev : Event)
  | wait (fd : Int) (len : Nat)
  | turn (r : Reader)
  | lost (r : Reader)

def setPipe (k : Kernel) (i : Fin 32) (q : Pipe) : Kernel :=
  { k with pipes := Function.update k.pipes i q }

def Traffic.move (i : Fin 32) (env : Env) (t : Traffic) : PipeMove → Option Traffic
  | .call ev => (t.kernel.step env ev).map fun (r, k) =>
    ⟨t.sent ++ t.kernel.accepted i r ev, t.got ++ t.kernel.returned i r ev, t.readers, k⟩
  | .wait fd len =>
    let q := t.kernel.pipes i
    if fd ≠ 0 ∧ t.kernel.readEnd fd = some i ∧ q.writePos ≤ q.readPos ∧ 0 < q.writers then
      some { t with readers := ⟨len, [], .halted⟩ :: t.readers }
    else none
  | .turn r =>
    if r ∈ t.readers then
      match r.step (t.kernel.pipes i) with
      | (.inl r', q) =>
        some { t with readers := r' :: t.readers.erase r, kernel := t.kernel.setPipe i q }
      | (.inr bytes, q) =>
        some ⟨t.sent, t.got ++ bytes, t.readers.erase r, t.kernel.setPipe i q⟩
    else none
  | .lost r => some { t with readers := t.readers.erase r }

/-- The runs since `sys_pipe` made pipe `i`, for as long as its slot is in use. -/
inductive Piped (ok : Traffic → PipeMove → Prop) (i : Fin 32) : Traffic → Prop
  | made {k k' : Kernel} {env : Env} {r : Reply} (hk : Reached (fun _ _ _ => True) k)
      (hs : k.step env .pipe = some (r, k')) (hold : k.pipeUsed i = false)
      (hnew : k'.pipeUsed i = true) : Piped ok i ⟨[], [], [], k'⟩
  | move {t t' : Traffic} {env : Env} {m : PipeMove} (h : Piped ok i t)
      (hu : t.kernel.pipeUsed i = true) (hok : ok t m) (hm : t.move i env m = some t') :
      Piped ok i t'

/-- Descriptor 0 is not asked for the bytes of the pipe: a read of it goes to the terminal. -/
def NotStdin (i : Fin 32) (t : Traffic) : PipeMove → Prop
  | .call (.read fd _) => t.kernel.readEnd fd = some i → fd ≠ 0
  | _ => True

/-- Nor is a read that has waited disturbed. Past its wait loop no other read of the pipe comes in
between and its process is not killed; while it acts on having seen the pipe empty nothing is
written. -/
def Undisturbed (i : Fin 32) (t : Traffic) : PipeMove → Prop
  | .call (.read fd _) => t.kernel.readEnd fd = some i → fd ≠ 0 ∧ ∀ r ∈ t.readers, r.past = false
  | .call (.write fd _) => t.kernel.writeEnd fd = some i → ∀ r ∈ t.readers, r.tested = false
  | .turn r => ∀ r' ∈ t.readers.erase r, r'.past = false
  | .lost r => r.past = false
  | _ => True

theorem pipe_unmounted : EntryRule fun e => e.type = .pipe → e.mount = none where
  zero _ := rfl
  altered _ _ _ h ht := h ht
  reading _ _ := rfl
  writing _ _ := rfl
  file := by
    intro e ht _ hp
    rw [ht] at hp
    cases hp

/-- `sys_pipe` clears a pipe that is not in use, and takes it if it finds two descriptors. -/
theorem sysPipe_pipes (k : Kernel) : (k.sysPipe.2.pipes = k.pipes ∧
    k.sysPipe.2.pipeUsed = k.pipeUsed) ∨ ∃ j q, k.pipeUsed j = false ∧
      q.stream = Pipe.zero.stream ∧ k.sysPipe.2.pipes = Function.update k.pipes j q ∧
      ∀ i, k.sysPipe.2.pipeUsed i = true → k.pipeUsed i = true ∨ i = j := by
  unfold sysPipe
  split
  · exact Or.inl ⟨rfl, rfl⟩
  · split
    · exact Or.inl ⟨rfl, rfl⟩
    · rename_i j hj
      have hfree : k.pipeUsed j = false := by simpa using List.find?_some hj
      refine Or.inr ⟨j, ?_⟩
      dsimp only
      split
      · exact ⟨Pipe.zero, hfree, rfl, rfl, fun _ hi => Or.inl hi⟩
      · refine ⟨{ Pipe.zero with readers := 1, writers := 1 }, hfree, rfl, rfl, fun i hi => ?_⟩
        change Function.update k.pipeUsed j true i = true at hi
        by_cases hij : i = j
        · exact Or.inr hij
        · rw [Function.update_of_ne hij] at hi
          exact Or.inl hi

theorem sysPipe_made (hold : k.pipeUsed i = false) (hnew : k.sysPipe.2.pipeUsed i = true) :
    (k.sysPipe.2.pipes i).InOrder ∧ (k.sysPipe.2.pipes i).unread = [] := by
  cases sysPipe_pipes k with
  | inl h =>
    rw [h.2, hold] at hnew
    cases hnew
  | inr h =>
    obtain ⟨j, q, _, hq, hpipes, hused⟩ := h
    cases hused i hnew with
    | inl hu =>
      rw [hold] at hu
      cases hu
    | inr hij =>
      rw [hpipes, hij, Function.update_self]
      exact InOrder.of_stream (q := Pipe.zero) ⟨le_refl 0, Nat.zero_le _⟩ hq

/-- A call of `sys_pipe` leaves the pipes in use alone. -/
theorem sysPipe_stream (hu : k.pipeUsed i = true) :
    (k.sysPipe.2.pipes i).stream = (k.pipes i).stream := by
  cases sysPipe_pipes k with
  | inl h => rw [h.1]
  | inr h =>
    obtain ⟨j, q, hfree, _, hpipes, _⟩ := h
    have hij : i ≠ j := by
      intro he
      rw [he, hfree] at hu
      cases hu
    rw [hpipes, Function.update_of_ne hij]

theorem sysClose_still (k : Kernel) (fd : Int) : Still k (k.sysClose fd).2 := by
  unfold sysClose
  split
  · exact fun _ => rfl
  · rename_i p j hfd
    dsimp only
    cases k.fsOf (k.entry p j) .close with
    | none =>
      dsimp only
      split
      · exact release_still k _ _
      · exact fun _ => rfl
    | some x =>
      dsimp only
      split
      · exact release_still (k.fsClose x.1 x.2) _ _
      · exact fun _ => rfl

theorem dupFrom_still (k : Kernel) (p : Nat) (j : Fin maxFds) (min : Int) :
    Still k (k.dupFrom p j min).2 := by
  unfold dupFrom
  split
  · split
    · exact fun _ => rfl
    · exact fun _ => rfl
  · exact fun _ => rfl

theorem sysFcntl_still (k : Kernel) (fd cmd : Int) (arg : UInt64) :
    Still k (k.sysFcntl fd cmd arg).2 := by
  unfold sysFcntl
  split
  · exact fun _ => rfl
  · dsimp only
    split
    · exact dupFrom_still _ _ _ _
    · split
      · exact fun _ => rfl
      · split
        · exact fun _ => rfl
        · split
          · exact fun _ => rfl
          · split
            · exact fun _ => rfl
            · split
              · exact dupFrom_still _ _ _ _
              · exact fun _ => rfl

/-- Only reads and writes move the bytes of a pipe in use. -/
theorem step_stream {ev : Event} {r : Reply} (hl : Listed k l) (hu : k.pipeUsed i = true)
    (hw : ∀ fd data, ev ≠ .write fd data) (hr : ∀ fd len, ev ≠ .read fd len)
    (hs : k.step env ev = some (r, k')) : (k'.pipes i).stream = (k.pipes i).stream := by
  cases hq : ev.lifecycle with
  | true =>
    refine (still_tables k).lifecycle hl (fun _ => rfl) hq (discards_true env k ev) ?_ ?_ hs i
    · intro q m path x q' _ h hf
      have hp : q'.pipes = q.pipes := congrArg ProcSide.pipes (find_procSide _ _ _ _ hf)
      intro j
      rw [hp]
      exact h j
    · exact fun _ _ _ _ _ h _ => h.trans (inherit_still _ _ _)
  | false =>
    cases ev with
    | pipe =>
      simp only [Kernel.step] at hs
      have hk : k' = k.sysPipe.2 := answer_pure hs
      rw [hk]
      exact sysPipe_stream hu
    | close fd =>
      have hk : k' = (k.sysClose fd).2 := answer_pure hs
      rw [hk]
      exact sysClose_still k fd i
    | dup fd =>
      have hk : k' = (k.sysDup fd).2 := answer_pure hs
      rw [hk]
      unfold sysDup
      split
      · rfl
      · split
        · rfl
        · exact retain_still (k.setEntry _ _ _) _ i
    | dup2 old new =>
      have hk : k' = (k.sysDup2 old new).2 := answer_pure hs
      rw [hk]
      unfold sysDup2
      split
      · exact retain_still (k.setEntry _ _ _) _ i
      · rfl
    | fcntl fd cmd arg =>
      have hk : k' = (k.sysFcntl fd cmd arg).2 := answer_pure hs
      rw [hk]
      exact sysFcntl_still k fd cmd arg i
    | write fd data => exact absurd rfl (hw fd data)
    | read fd len => exact absurd rfl (hr fd len)
    | «open» path flags =>
      obtain ⟨a, hs⟩ := answer_some hs
      exact (sysOpen_calls k path flags a k' hs).still i
    | lseek fd offset whence =>
      have hk : k' = (k.sysLseek env fd offset whence).2 := answer_pure hs
      rw [hk]
      exact (sysLseek_calls k fd offset whence).still i
    | ioctl fd =>
      have hk : k' = (k.sysIoctl env fd).2 := answer_pure hs
      rw [hk]
      exact (FileCall.same (sysIoctl_procSide k fd)).still i
    | readdir fd =>
      have hk : k' = (k.sysReaddir env fd).2 := answer_pure hs
      rw [hk]
      exact (sysReaddir_calls k fd).still i
    | chdir path =>
      obtain ⟨a, hs⟩ := answer_some hs
      exact (sysChdir_calls k path a k' hs).still i
    | fork => cases hq
    | exit code => cases hq
    | fault code => cases hq
    | kill pid sig => cases hq
    | wait pid old => cases hq
    | spawn path => cases hq
    | schedule old => cases hq
    | _ => exact (FileCall.same (step_procSide rfl hs)).still i

/-- A read from a pipe, when the descriptor is not taken for the terminal. -/
theorem sysRead_pipe {fd : Int} (h0 : fd ≠ 0) (hi : k.readEnd fd = some i)
    (hm : AllEntries (fun e => e.type = .pipe → e.mount = none) k) (len : Nat) :
    k.sysRead env fd len =
      if (k.pipes i).readPos < (k.pipes i).writePos then
        some (((pipeRead (k.pipes i) len).1.length : Int), (pipeRead (k.pipes i) len).1,
          { k with pipes := Function.update k.pipes i (pipeRead (k.pipes i) len).2 })
      else if (k.pipes i).writers ≤ 0 then some (0, [], k) else none := by
  obtain ⟨p, j, hfd, ht, hr, hj⟩ := pipeEnd_some hi
  have hfs : (if (k.entry p j).node.isNone then k.fsOf (k.entry p j) .read else none) = none := by
    have hmount : (k.entry p j).mount = none := hm p j ht
    split
    · simp [fsOf, hmount]
    · rfl
  simp only [sysRead, if_neg h0, hfd, hfs, if_pos ht, hr, if_true, hj]

/-- A read of the pipe that finds it empty, with a writer, is not done in one step. -/
theorem wait_stuck {fd : Int} {len : Nat} (h0 : fd ≠ 0) (hi : k.readEnd fd = some i)
    (hm : AllEntries (fun e => e.type = .pipe → e.mount = none) k)
    (hempty : (k.pipes i).writePos ≤ (k.pipes i).readPos) (hw : 0 < (k.pipes i).writers) :
    k.step env (.read fd len) = none := by
  have hread := @sysRead_pipe env _ _ _ h0 hi hm len
  rw [if_neg (Nat.not_lt.mpr hempty), if_neg (Int.not_le.mpr hw)] at hread
  simp [Kernel.step, hread]

structure Flows (i : Fin 32) (t : Traffic) : Prop where
  listed : ∃ l, Listed t.kernel l
  unmounted : AllEntries (fun e => e.type = .pipe → e.mount = none) t.kernel
  order : (t.kernel.pipes i).InOrder
  waits : Waits t.readers (t.kernel.pipes i)
  bytes : t.got ++ held t.readers ++ (settled t.readers (t.kernel.pipes i)).unread = t.sent

theorem settled_order {rs : List Reader} {q : Pipe} (h : Waits rs q) (ho : q.InOrder) :
    (settled rs q).InOrder := by
  by_cases hc : rs.any (·.phase = .clearing)
  · obtain ⟨r, hr, he⟩ := List.any_eq_true.mp hc
    have hfit := h.fits r hr
    rw [Reader.Fits, of_decide_eq_true he] at hfit
    unfold settled at hfit ⊢
    rw [if_pos hc] at hfit ⊢
    exact ⟨hfit.2.1.le, Nat.zero_le _⟩
  · unfold settled
    rw [if_neg hc]
    exact ho

theorem Flows.still {t : Traffic} {ev : Event} {r : Reply} (h : Flows i t)
    (hs : t.kernel.step env ev = some (r, k'))
    (hq : (k'.pipes i).stream = (t.kernel.pipes i).stream) :
    Flows i ⟨t.sent, t.got, t.readers, k'⟩ := by
  obtain ⟨l, hl⟩ := h.listed
  obtain ⟨ho, -⟩ := InOrder.of_stream h.order hq
  have hsettled : (settled t.readers (k'.pipes i)).stream =
      (settled t.readers (t.kernel.pipes i)).stream := settled_stream hq
  obtain ⟨-, hu⟩ := InOrder.of_stream (settled_order h.waits h.order) hsettled
  refine ⟨step_listed hl hs, pipe_unmounted.step hl h.unmounted hs, ho, h.waits.of_stream hq, ?_⟩
  dsimp only
  rw [hu]
  exact h.bytes

theorem Flows.write {t : Traffic} {data : List UInt8} {fd : Int} {r : Reply} (h : Flows i t)
    (hok : Undisturbed i t (.call (.write fd data)))
    (hs : t.kernel.step env (.write fd data) = some (r, k')) :
    Flows i ⟨t.sent ++ t.kernel.accepted i r (.write fd data), t.got, t.readers, k'⟩ := by
  obtain ⟨⟨a, k1⟩, hw, he⟩ := Option.map_eq_some_iff.mp hs
  obtain ⟨hr, rfl⟩ := Prod.mk.inj he
  have hvalue : r.value = a := by rw [← hr]; rfl
  unfold accepted
  dsimp only
  rw [hvalue]
  by_cases hi : t.kernel.writeEnd fd = some i
  · rw [if_pos hi]
    by_cases hd : data = []
    · subst hd
      cases hw
      have hstill := h.still hs rfl
      simpa using hstill
    · have htest := hok hi
      rw [sysWrite_pipe hi hd] at hw
      obtain ⟨hn, rfl⟩ := Prod.mk.inj (Option.some.inj hw)
      obtain ⟨l, hl⟩ := h.listed
      obtain ⟨ho, hu⟩ := pipeWrite_unread h.order data
      have hwaits : Waits t.readers (pipeWrite (t.kernel.pipes i) data).2 :=
        h.waits.grow htest rfl (Nat.le_add_right _ _)
      have hbytes := h.bytes
      rw [settled_of_not_tested htest] at hbytes
      refine ⟨step_listed hl hs, pipe_unmounted.step hl h.unmounted hs, ?_, ?_, ?_⟩
      all_goals
        dsimp only
        rw [Function.update_self]
      · exact ho
      · exact hwaits
      · rw [settled_of_not_tested htest, hu, ← List.append_assoc, hbytes, ← hn]
        rfl
  · rw [if_neg hi, List.append_nil]
    refine h.still hs ?_
    cases hj : t.kernel.writeEnd fd with
    | none => exact (sysWrite_calls data hj a k1 hw).still i
    | some j =>
      have hij : i ≠ j := fun he => hi (he ▸ hj)
      by_cases hd : data = []
      · subst hd
        cases hw
        rfl
      · rw [sysWrite_pipe hj hd] at hw
        cases hw
        dsimp only
        rw [Function.update_of_ne hij]

theorem Flows.read {t : Traffic} {fd : Int} {len : Nat} {r : Reply} (h : Flows i t)
    (hok : Undisturbed i t (.call (.read fd len)))
    (hs : t.kernel.step env (.read fd len) = some (r, k')) :
    Flows i ⟨t.sent, t.got ++ t.kernel.returned i r (.read fd len), t.readers, k'⟩ := by
  obtain ⟨⟨a, bytes, k1⟩, hr, he⟩ := Option.map_eq_some_iff.mp hs
  obtain ⟨hreply, rfl⟩ := Prod.mk.inj he
  have hvalue : r.bytes = bytes := by rw [← hreply]
  unfold returned
  dsimp only
  rw [hvalue]
  by_cases hi : t.kernel.readEnd fd = some i
  · rw [if_pos hi]
    obtain ⟨h0, hpast⟩ := hok hi
    rw [sysRead_pipe h0 hi h.unmounted] at hr
    split at hr
    · rename_i hlt
      cases hr
      obtain ⟨l, hl⟩ := h.listed
      obtain ⟨ho, hu⟩ := pipeRead_unread h.order len
      have hwaits : Waits t.readers (pipeRead (t.kernel.pipes i) len).2 :=
        h.waits.calm hpast fun hge => absurd hlt (Nat.not_lt.mpr hge)
      have hnone : held t.readers = [] := held_of_not_past h.waits.fits hpast
      have hbytes := h.bytes
      rw [settled_of_not_past hpast, hnone, List.append_nil] at hbytes
      refine ⟨step_listed hl hs, pipe_unmounted.step hl h.unmounted hs, ?_, ?_, ?_⟩
      all_goals
        dsimp only
        rw [Function.update_self]
      · exact ho
      · exact hwaits
      · rw [settled_of_not_past hpast, hnone, List.append_nil, List.append_assoc, hu, hbytes]
    · split at hr
      · cases hr
        have hstill := h.still hs rfl
        simpa using hstill
      · cases hr
  · rw [if_neg hi, List.append_nil]
    refine h.still hs ?_
    cases sysRead_calls hr with
    | inl hc => exact hc.still i
    | inr hc =>
      obtain ⟨j, hj, hc⟩ := hc
      have hij : i ≠ j := fun he => hi (he ▸ hj)
      rw [hc.rest]
      dsimp only
      rw [Function.update_of_ne hij]

theorem Flows.call {t t' : Traffic} {ev : Event} (h : Flows i t) (hu : t.kernel.pipeUsed i = true)
    (hok : Undisturbed i t (.call ev)) (hm : t.move i env (.call ev) = some t') : Flows i t' := by
  obtain ⟨⟨r, k1⟩, hs, rfl⟩ := Option.map_eq_some_iff.mp hm
  obtain ⟨l, hl⟩ := h.listed
  cases ev with
  | write fd data =>
    have hgot : t.kernel.returned i r (.write fd data) = [] := rfl
    dsimp only
    rw [hgot, List.append_nil]
    exact h.write hok hs
  | read fd len =>
    have hsent : t.kernel.accepted i r (.read fd len) = [] := rfl
    dsimp only
    rw [hsent, List.append_nil]
    exact h.read hok hs
  | _ =>
    have hstill := h.still hs (step_stream hl hu (fun _ _ he => by cases he)
      (fun _ _ he => by cases he) hs)
    simpa [accepted, returned] using hstill

theorem Flows.turn {t t' : Traffic} {r : Reader} (h : Flows i t) (hok : Undisturbed i t (.turn r))
    (hm : t.move i env (.turn r) = some t') : Flows i t' := by
  unfold Traffic.move at hm
  dsimp only at hm
  split at hm
  · rename_i hr
    have ho : ∀ x ∈ t.readers.erase r, x.past = false := hok
    have hfit := h.waits.fits r hr
    have hheld := held_erase h.waits.fits hr ho
    have hbytes := h.bytes
    rw [settled_erase hr ho, hheld] at hbytes
    rw [settled_erase hr ho] at hfit
    obtain ⟨l, hl⟩ := h.listed
    split at hm
    · rename_i r' q hs
      cases hm
      have hturned := Reader.turned hfit h.order hs
      have hwaits := h.waits.turned hr ho hturned
      have hfits := fun x hx => hwaits.fits x (List.mem_cons_of_mem r' hx)
      refine ⟨⟨l, hl.keep rfl⟩, h.unmounted, ?_, ?_, ?_⟩
      all_goals
        dsimp only [setPipe]
        rw [Function.update_self]
      · exact hturned.order
      · exact hwaits
      · rw [held_cons hfits ho, settled_cons ho, List.append_assoc, hturned.bytes,
          ← List.append_assoc, hbytes]
    · rename_i out q hs
      cases hm
      have hreturned := Reader.returned hfit h.order hs
      have hwaits := h.waits.returned hr ho hreturned
      refine ⟨⟨l, hl.keep rfl⟩, h.unmounted, ?_, ?_, ?_⟩
      all_goals
        dsimp only [setPipe]
        rw [Function.update_self]
      · exact hreturned.order
      · exact hwaits
      · rw [held_of_not_past hwaits.fits ho, settled_of_not_past ho, List.append_nil,
          List.append_assoc, hreturned.bytes, ← List.append_assoc, hbytes]
  · cases hm

theorem Flows.move {t t' : Traffic} {m : PipeMove} (h : Flows i t)
    (hu : t.kernel.pipeUsed i = true) (hok : Undisturbed i t m) (hm : t.move i env m = some t') :
    Flows i t' := by
  cases m with
  | call ev => exact h.call hu hok hm
  | wait fd len =>
    unfold Traffic.move at hm
    dsimp only at hm
    split at hm
    · cases hm
      obtain ⟨hwaits, hsettled, hheld⟩ := @Waits.wait _ _ len h.waits
      refine ⟨h.listed, h.unmounted, h.order, hwaits, ?_⟩
      dsimp only
      rw [hsettled, hheld]
      exact h.bytes
    · cases hm
  | turn r => exact h.turn hok hm
  | lost r =>
    cases hm
    obtain ⟨hwaits, hsettled, hheld⟩ := h.waits.lost hok
    refine ⟨h.listed, h.unmounted, h.order, hwaits, ?_⟩
    dsimp only
    rw [hsettled, hheld]
    exact h.bytes

theorem Piped.flows {t : Traffic} (h : Piped (Undisturbed i) i t) : Flows i t := by
  induction h with
  | made hk hs hold hnew =>
    rename_i k k' env r
    obtain ⟨l, hl⟩ := hk.listed
    have hlisted := step_listed hl hs
    have hunmounted := pipe_unmounted.step hl (pipe_unmounted.reached hk) hs
    have hk' : k' = k.sysPipe.2 := by
      simp only [Kernel.step] at hs
      exact answer_pure hs
    obtain ⟨ho, hu⟩ := sysPipe_made hold (hk' ▸ hnew)
    rw [← hk'] at ho hu
    refine ⟨hlisted, hunmounted, ho, ⟨fun r hr => ?_, fun r hr => ?_⟩, hu⟩
    · exact absurd hr List.not_mem_nil
    · exact absurd hr List.not_mem_nil
  | move _ hu hok hm ih => exact ih.move hu hok hm

/-- Through every pipe and over every run in which descriptor 0 does not read from it and no read
that has waited is disturbed: no byte is lost, doubled or out of order, those being counted that such
a read has copied but not yet returned, and the end of file is told only when it is reached. -/
theorem pipe_flow {t : Traffic} (h : Piped (Undisturbed i) i t) :
    (t.kernel.pipes i).readPos ≤ (t.kernel.pipes i).writePos ∧
      (t.kernel.pipes i).writePos ≤ 4096 ∧
      t.got ++ held t.readers ++ (settled t.readers (t.kernel.pipes i)).unread = t.sent ∧
      ((∀ r ∈ t.readers, r.past = false) → t.got ++ (t.kernel.pipes i).unread = t.sent) ∧
      (∀ env fd len r k', t.kernel.readEnd fd = some i →
        Undisturbed i t (.call (.read fd len)) → 0 < len →
        t.kernel.step env (.read fd len) = some (r, k') → r.value = 0 →
          (t.kernel.pipes i).unread = [] ∧ (t.kernel.pipes i).writers ≤ 0) ∧
      ∀ r ∈ t.readers, Undisturbed i t (.turn r) → 0 < r.len →
        ∀ q, r.step (t.kernel.pipes i) = (.inr [], q) →
          (t.kernel.pipes i).unread = [] ∧ (t.kernel.pipes i).writers ≤ 0 := by
  have hf := h.flows
  refine ⟨hf.order.read, hf.order.room, hf.bytes, fun hp => ?_, ?_, ?_⟩
  · have hbytes := hf.bytes
    rwa [settled_of_not_past hp, held_of_not_past hf.waits.fits hp, List.append_nil] at hbytes
  · intro env fd len r k' hi hok hlen hs hv
    obtain ⟨⟨a, bytes, k1⟩, hr, he⟩ := Option.map_eq_some_iff.mp hs
    cases he
    rw [sysRead_pipe (hok hi).1 hi hf.unmounted] at hr
    split at hr
    · rename_i hlt
      cases hr
      -- a read of a pipe that is not empty returns at least one byte
      have hn : 0 < (pipeRead (t.kernel.pipes i) len).1.length := by
        unfold pipeRead
        dsimp only
        split
        · simp only [List.length_map, List.length_range]
          omega
        · simp only [List.length_map, List.length_range]
          omega
      dsimp only at hv
      omega
    · rename_i hge
      split at hr
      · rename_i hw
        exact ⟨Pipe.unread_empty (Nat.le_of_not_lt hge), hw⟩
      · cases hr
  · intro r hr hok hlen q hs
    have hfit := hf.waits.fits r hr
    rw [settled_erase hr hok] at hfit
    exact (Reader.returned hfit hf.order hs).nothing hlen rfl

instance (i : Fin 32) (t : Traffic) (m : PipeMove) : Decidable (Undisturbed i t m) := by
  unfold Undisturbed
  split <;> infer_instance

instance (i : Fin 32) (t : Traffic) (m : PipeMove) : Decidable (NotStdin i t m) := by
  unfold NotStdin
  split <;> infer_instance

section checked

variable (ok : Traffic → PipeMove → Prop) [∀ t m, Decidable (ok t m)]

def Traffic.moves (i : Fin 32) (t : Traffic) : List PipeMove → Option Traffic
  | [] => some t
  | m :: ms =>
    if t.kernel.pipeUsed i ∧ ok t m then do
      let t ← t.move i freshEnv m
      t.moves i ms
    else none

theorem Piped.moves {t t' : Traffic} {ms : List PipeMove} (h : Piped ok i t)
    (hm : t.moves ok i ms = some t') : Piped ok i t' := by
  induction ms generalizing t with
  | nil =>
    cases hm
    exact h
  | cons m ms ih =>
    obtain ⟨⟨hu, hok⟩, hm⟩ := Option.ite_none_right_eq_some.mp hm
    obtain ⟨t1, h1, hm⟩ := Option.bind_eq_some_iff.mp hm
    exact ih (h.move hu hok h1) hm

def newPipe (i : Fin 32) (ms : List PipeMove) : Option Traffic := do
  let k ← boot.runAll [(freshEnv, .spawn []), (freshEnv, .schedule 0)]
  let (_, k') ← k.step freshEnv .pipe
  if k.pipeUsed i = false ∧ k'.pipeUsed i then (⟨[], [], [], k'⟩ : Traffic).moves ok i ms else none

theorem newPipe_piped {t : Traffic} {ms : List PipeMove} (h : newPipe ok i ms = some t) :
    Piped ok i t := by
  unfold newPipe at h
  obtain ⟨k, hk, h⟩ := Option.bind_eq_some_iff.mp h
  obtain ⟨⟨r, k'⟩, hs, h⟩ := Option.bind_eq_some_iff.mp h
  obtain ⟨⟨hold, hnew⟩, h⟩ := Option.ite_none_right_eq_some.mp h
  exact (Piped.made (Reached.boot.runAll (fun _ _ _ => trivial) hk) hs hold hnew).moves ok h

end checked

/-- The program waits for two bytes, its child writes three, and the program reads its two. -/
theorem pipe_flow_first_bytes : ∃ t, Piped (Undisturbed 0) 0 t ∧ t.sent = [1, 2, 3] ∧
    t.got = [1, 2] ∧ t.got ++ (t.kernel.pipes 0).unread = t.sent := by
  have hrun : (newPipe (Undisturbed 0) 0 [.call .fork, .wait 3 2, .call (.schedule 0),
      .call (.write 4 [1, 2, 3]), .call (.schedule 0), .turn ⟨2, [], .halted⟩,
      .turn ⟨2, [], .copying⟩, .turn ⟨2, [], .taking 0⟩, .turn ⟨2, [1], .copying⟩,
      .turn ⟨2, [1], .taking 1⟩, .turn ⟨2, [1, 2], .copying⟩, .turn ⟨2, [1, 2], .leaving⟩]).any
        (fun t => t.sent = [1, 2, 3] ∧ t.got = [1, 2] ∧ t.readers = []) = true := by
    decide +kernel
  obtain ⟨t, ht, hend⟩ := any_exists hrun
  obtain ⟨hsent, hgot, hnone⟩ := of_decide_eq_true hend
  have hpiped := newPipe_piped _ ht
  refine ⟨t, hpiped, hsent, hgot, (pipe_flow hpiped).2.2.2.1 fun r hr => ?_⟩
  rw [hnone] at hr
  cases hr

def keyEnv : Env := { freshEnv with answer := 1, bytes := [7] }

/-- With the read end at descriptor 0, what comes back never was in the pipe. And a byte that is
written between the test for the reset and the reset of a read that has waited is lost. -/
theorem stdin_not_piped :
    (¬ ∀ i t, Piped (fun _ _ => True) i t → t.readers = [] →
      t.got ++ (t.kernel.pipes i).unread = t.sent) ∧
    ¬ ∀ i t, Piped (NotStdin i) i t → t.readers = [] →
      t.got ++ (t.kernel.pipes i).unread = t.sent := by
  constructor
  · intro hall
    have hrun : (newPipe (fun _ _ => True) 0 [.call (.dup2 3 0)]).any (fun t =>
        t.kernel.pipeUsed 0 = true ∧ t.readers = [] ∧ t.kernel.readEnd 0 = some 0) = true := by
      decide +kernel
    obtain ⟨t, ht, hend⟩ := any_exists hrun
    obtain ⟨hused, hnone, hend⟩ := of_decide_eq_true hend
    have hkey : t.move 0 keyEnv (.call (.read 0 1)) =
        some ⟨t.sent ++ [], t.got ++ t.kernel.returned 0 ⟨1, [7]⟩ (.read 0 1), t.readers, t.kernel⟩ :=
      rfl
    have hpiped := newPipe_piped _ ht
    have hbefore := hall 0 t hpiped hnone
    have hafter := hall 0 _ (hpiped.move hused trivial hkey) hnone
    have hlen := congrArg List.length hafter
    have hlen' := congrArg List.length hbefore
    simp only [returned, hend, if_true, List.append_nil, List.length_append, List.length_cons,
      List.length_nil] at hlen hlen'
    omega
  · intro hall
    have hrun : (newPipe (NotStdin 0) 0 [.call .fork, .wait 3 1, .call (.schedule 0),
        .call (.write 4 [1]), .call (.schedule 0), .turn ⟨1, [], .halted⟩, .turn ⟨1, [], .copying⟩,
        .turn ⟨1, [], .taking 0⟩, .turn ⟨1, [1], .copying⟩, .turn ⟨1, [1], .leaving⟩,
        .call (.schedule 0), .call (.write 4 [2]), .call (.schedule 0),
        .turn ⟨1, [1], .resetting⟩, .turn ⟨1, [1], .clearing⟩]).any (fun t =>
          t.readers = [] ∧ t.sent = [1, 2] ∧ t.got ++ (t.kernel.pipes 0).unread = [1]) = true := by
      decide +kernel
    obtain ⟨t, ht, hend⟩ := any_exists hrun
    obtain ⟨hnone, hsent, hgot⟩ := of_decide_eq_true hend
    have hbytes := hall 0 t (newPipe_piped _ ht) hnone
    rw [hsent, hgot] at hbytes
    cases hbytes

end runs

end Kernel

end LosTacOS.Os
