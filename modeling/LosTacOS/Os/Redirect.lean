import LosTacOS.Os.Queries
import LosTacOS.Os.Parents
import LosTacOS.Os.FileCalls

/-! What a call on a descriptor acts on, and which calls follow a redirected descriptor. -/
namespace LosTacOS.Os

inductive Object where
  | tty
  | pipe (j : Fin 32)
  | node (n : Nat)
  | handle (fs : FileSystem) (h : Nat)
  /-- the call fails or answers without looking at any object -/
  | nothing
deriving DecidableEq

inductive FdCall where
  | read
  | write
  | poll
  | ioctl
  | fstat

def FdCall.console : FdCall → Int → Bool
  | .read, fd => fd = 0
  | .poll, fd => fd = 0 || fd = 1 || fd = 2
  | .ioctl, fd => fd = 0 || fd = 1 || fd = 2
  | _, _ => false

namespace Kernel

variable {env : Env} {k k1 k2 : Kernel} {p : Nat} {i j : Fin maxFds}

section dispatch

def nodeObject (e : FdEntry) : Object := (e.node.map Object.node).getD .nothing

def fsObject (k : Kernel) (e : FdEntry) (c : Callback) : Option Object :=
  (if e.node.isNone then k.fsOf e c else none).map fun x => .handle x.1 x.2

/-- What each call acts on through an entry of the table; a pipe may be null. -/
def entryObject (k : Kernel) (e : FdEntry) : FdCall → Option Object
  | .read =>
    match k.fsObject e .read with
    | some x => some x
    | none =>
      if e.type = .pipe then
        if e.readable then e.pipe.map .pipe else some .nothing
      else some (nodeObject e)
  | .write =>
    if e.type = .tty then some .tty
    else if e.type = .pipe then
      if e.writable then e.pipe.map .pipe else some .nothing
    else some ((k.fsObject e .write).getD (nodeObject e))
  | .poll => if e.type = .pipe then e.pipe.map .pipe else some .nothing
  | .ioctl =>
    match k.fsObject e .ioctl with
    | some x => some x
    | none =>
      match e.node with
      | some n => some (if (k.node n).dev.isSome then .node n else .tty)
      | none => some .tty
  | .fstat => some (nodeObject e)

/-- The entry a call looks at: `sys_ioctl` takes also one that is not open. -/
def slot (k : Kernel) (c : FdCall) (fd : Int) : Option (Nat × Fin maxFds) :=
  match c with
  | .ioctl => k.getFdEntry fd
  | _ => k.openFd fd

def object (k : Kernel) (c : FdCall) (fd : Int) : Option Object :=
  if c.console fd then some .tty
  else
    match k.slot c fd with
    | some (p, i) => k.entryObject (k.entry p i) c
    | none =>
      match c with
      | .write => some (if fd = 1 ∨ fd = 2 then .tty else .nothing)
      | .ioctl => some .tty
      | _ => some .nothing

end dispatch

section acts

variable (env)

/-- The part of `sys_read` that acts; the offset is that of the entry at `p`, `i`. -/
def readOn (k : Kernel) (p : Nat) (i : Fin maxFds) (len : Nat) :
    Object → Option (Int × List UInt8 × Kernel)
  | .tty => some (env.answer, env.bytes, k)
  | .handle fs h => some (env.answer, env.bytes, { k with fsLog := .used fs .read h :: k.fsLog })
  | .pipe j =>
    if (k.pipes j).readPos < (k.pipes j).writePos then
      some ((pipeRead (k.pipes j) len).1.length, (pipeRead (k.pipes j) len).1,
        { k with pipes := Function.update k.pipes j (pipeRead (k.pipes j) len).2 })
    else if (k.pipes j).writers ≤ 0 then some (0, [], k)
    else none
  | .node n =>
    let e := k.entry p i
    if ((k.node n).dev.any fun d => d.read) then
      some (env.answer, env.bytes, k.setEntry p i { e with offset := e.offset + env.answer.toNat })
    else if (k.node n).directory then some (-1, [], k)
    else
      match (k.node n).file with
      | none => some (0, [], k)
      | some f =>
        match (k.files.cell f).privateData with
        | none => some (0, [], k)
        | some q =>
          if (k.files.cell f).size ≤ e.offset then some (0, [], k)
          else
            let m := min len ((k.files.cell f).size - e.offset)
            some (m, k.bytesAt ⟨q.block, q.off + e.offset⟩ m,
              k.setEntry p i { e with offset := e.offset + m })
  | .nothing => some (-1, [], k)

def writeOn (k : Kernel) (p : Nat) (i : Fin maxFds) (data : List UInt8) :
    Object → Option (Int × Kernel)
  | .tty => some (data.length, k)
  | .handle fs h => some (env.answer, { k with fsLog := .used fs .write h :: k.fsLog })
  | .pipe j => some ((pipeWrite (k.pipes j) data).1,
      { k with pipes := Function.update k.pipes j (pipeWrite (k.pipes j) data).2 })
  | .node n =>
    if ((k.node n).dev.any fun d => d.write) then
      some (env.answer, k.setEntry p i
        { k.entry p i with offset := (k.entry p i).offset + env.answer.toNat })
    else if (k.node n).directory then some (-1, k)
    else k.writeNode env p i n data
  | .nothing => some (-1, k)

def ioctlOn (k : Kernel) : Object → Int × Kernel
  | .handle fs h => (env.answer, { k with fsLog := .used fs .ioctl h :: k.fsLog })
  | _ => (env.answer, k)

def pollOn (k : Kernel) (e : FdEntry) (events : PollSet) : Object → PollSet × Nat
  | .pipe j => pollPipe (k.pipes j) e.readable e.writable events
  | _ => ({ PollSet.none with pollin := events.pollin, pollout := events.pollout }, 1)

def statOn (k : Kernel) (p : Nat) (i : Fin maxFds) : Object → Stat
  | .node n => ⟨.inl n, (k.node n).directory, k.nodeSize n⟩
  | _ => ⟨.inr (p, i), false, 0⟩

variable {env}

theorem console_iff (fd : Int) : FdCall.console .poll fd = true ↔ fd = 0 ∨ fd = 1 ∨ fd = 2 := by
  simp [FdCall.console, or_assoc]

theorem console_false {fd : Int} (h0 : FdCall.console .poll fd = false) :
    ¬(fd = 0 ∨ fd = 1 ∨ fd = 2) := fun h => absurd ((console_iff fd).mpr h) (by rw [h0]; decide)

/-- Through an open slot a call acts on what the entry holds. -/
theorem object_of_slot {c : FdCall} {fd : Int} (h0 : FdCall.console c fd = false)
    (h : k.slot c fd = some (p, i)) : k.object c fd = k.entryObject (k.entry p i) c := by
  unfold object
  rw [h0, h]
  rfl

theorem sysRead_console (len : Nat) : k.object .read 0 = some .tty ∧
    k.sysRead env 0 len = k.readOn env p i len .tty := ⟨rfl, rfl⟩

/-- `sys_read` is the dispatch to an object and the act on it. -/
theorem sysRead_eq {fd : Int} (h0 : fd ≠ 0) (h : k.openFd fd = some (p, i)) (len : Nat) :
    k.sysRead env fd len = (k.object .read fd).bind (k.readOn env p i len) := by
  have hobj : k.object .read fd = k.entryObject (k.entry p i) .read :=
    object_of_slot (decide_eq_false h0) h
  rw [hobj]
  unfold sysRead
  rw [if_neg h0, h]
  dsimp only [entryObject, fsObject]
  cases hfs : (if (k.entry p i).node.isNone then k.fsOf (k.entry p i) .read else none) with
  | some x => rfl
  | none =>
    dsimp only [Option.map_none]
    by_cases hp : (k.entry p i).type = .pipe
    · rw [if_pos hp, if_pos hp]
      cases hr : (k.entry p i).readable with
      | false => rfl
      | true =>
        cases hj : (k.entry p i).pipe with
        | none => rfl
        | some j => rfl
    · rw [if_neg hp, if_neg hp]
      unfold nodeObject
      cases hn : (k.entry p i).node with
      | none => rfl
      | some n =>
        dsimp only [Option.map_some, Option.getD_some, Option.bind_some, readOn]
        rewrite [hn]
        rfl

theorem sysWrite_eq {fd : Int} {data : List UInt8} (hd : data ≠ [])
    (h : k.openFd fd = some (p, i)) :
    k.sysWrite env fd data = (k.object .write fd).bind (k.writeOn env p i data) := by
  have hobj : k.object .write fd = k.entryObject (k.entry p i) .write := object_of_slot rfl h
  rw [hobj]
  unfold sysWrite
  rw [if_neg hd, h]
  dsimp only [entryObject, fsObject]
  by_cases ht : (k.entry p i).type = .tty
  · rw [if_pos ht, if_pos ht]
    rfl
  rw [if_neg ht, if_neg ht]
  by_cases hp : (k.entry p i).type = .pipe
  · rw [if_pos hp, if_pos hp]
    cases hw : (k.entry p i).writable with
    | false => rfl
    | true =>
      cases hj : (k.entry p i).pipe with
      | none => rfl
      | some j => rfl
  · rw [if_neg hp, if_neg hp]
    unfold nodeObject
    cases hn : (k.entry p i).node with
    | none =>
      cases hfs : k.fsOf (k.entry p i) .write with
      | none => rfl
      | some x => rfl
    | some n =>
      simp only [Option.isNone_some, Bool.false_eq_true, if_false, Option.map_none, Option.getD_none,
        Option.map_some, Option.getD_some, Option.bind_some, writeOn, hn]
      cases hdev : (k.node n).dev with
      | none => simp
      | some dev => simp

theorem sysIoctl_eq {fd : Int} (h0 : FdCall.console .ioctl fd = false)
    (h : k.getFdEntry fd = some (p, i)) :
    k.sysIoctl env fd = k.ioctlOn env ((k.object .ioctl fd).getD .tty) := by
  have hobj : k.object .ioctl fd = k.entryObject (k.entry p i) .ioctl := object_of_slot h0 h
  have hno : ¬(fd = 0 ∨ fd = 1 ∨ fd = 2) := console_false h0
  rw [hobj]
  unfold sysIoctl
  rw [if_neg hno, h]
  dsimp only [entryObject, fsObject]
  cases hfs : (if (k.entry p i).node.isNone then k.fsOf (k.entry p i) .ioctl else none) with
  | some x => rfl
  | none =>
    cases hn : (k.entry p i).node with
    | none => rfl
    | some n =>
      dsimp only [Option.map_none, Option.getD]
      split <;> rfl

theorem pollFd_eq {fd : Int} {stdinLen : Nat} {events : PollSet}
    (h0 : FdCall.console .poll fd = false) (h : k.openFd fd = some (p, i)) :
    k.pollFd stdinLen fd events = (k.object .poll fd).map (k.pollOn (k.entry p i) events) := by
  have hobj : k.object .poll fd = k.entryObject (k.entry p i) .poll := object_of_slot h0 h
  have hno : fd ≠ 0 ∧ ¬(fd = 1 ∨ fd = 2) := not_or.mp (console_false h0)
  rw [hobj]
  unfold pollFd
  rw [if_neg hno.1, if_neg hno.2, h]
  dsimp only [entryObject]
  split
  · cases hj : (k.entry p i).pipe with
    | none => rfl
    | some j => rfl
  · rfl

/-- The answer for the first three descriptors does not depend on the table. -/
theorem pollFd_console {fd : Int} (h0 : FdCall.console .poll fd = true) (k k' : Kernel)
    (stdinLen : Nat) (events : PollSet) : k.pollFd stdinLen fd events = k'.pollFd stdinLen fd events := by
  have hyes : fd = 0 ∨ fd = 1 ∨ fd = 2 := (console_iff fd).mp h0
  unfold pollFd
  by_cases hz : fd = 0
  · rw [if_pos hz, if_pos hz]
  · rw [if_neg hz, if_neg hz, if_pos (hyes.resolve_left hz), if_pos (hyes.resolve_left hz)]

theorem sysFstat_eq {fd : Int} (h : k.openFd fd = some (p, i)) :
    k.sysFstat fd = (k.object .fstat fd).map (k.statOn p i) := by
  have hobj : k.object .fstat fd = k.entryObject (k.entry p i) .fstat := object_of_slot rfl h
  rw [hobj]
  unfold sysFstat
  rw [h]
  dsimp only [entryObject, Option.map_some, nodeObject]
  cases hn : (k.entry p i).node with
  | none => rfl
  | some n => rfl

end acts

section redirect

structure Alike (e e' : FdEntry) : Prop where
  type : e'.type = e.type
  node : e'.node = e.node
  pipe : e'.pipe = e.pipe
  mount : e'.mount = e.mount
  fsHandle : e'.fsHandle = e.fsHandle
  readable : e'.readable = e.readable
  writable : e'.writable = e.writable

theorem Alike.trans {a b c : FdEntry} (h : Alike a b) (h' : Alike b c) : Alike a c :=
  ⟨h'.type.trans h.type, h'.node.trans h.node, h'.pipe.trans h.pipe, h'.mount.trans h.mount,
    h'.fsHandle.trans h.fsHandle, h'.readable.trans h.readable, h'.writable.trans h.writable⟩

theorem Alike.symm {a b : FdEntry} (h : Alike a b) : Alike b a :=
  ⟨h.type.symm, h.node.symm, h.pipe.symm, h.mount.symm, h.fsHandle.symm, h.readable.symm,
    h.writable.symm⟩

theorem Alike.fsObject {e e' : FdEntry} (h : Alike e e') (k : Kernel) (c : Callback) :
    k.fsObject e' c = k.fsObject e c := by
  unfold Kernel.fsObject fsOf
  rw [h.node, h.mount, h.fsHandle]

theorem Alike.entryObject {e e' : FdEntry} (h : Alike e e') (k : Kernel) (c : FdCall) :
    k.entryObject e' c = k.entryObject e c := by
  simp only [Kernel.entryObject, nodeObject, h.fsObject, h.type, h.readable, h.writable, h.pipe,
    h.node]

structure Twins (k : Kernel) (p : Nat) (i j : Fin maxFds) : Prop where
  current : k.currentProc = some p
  used : (k.entry p i).type ≠ .none
  alike : Alike (k.entry p i) (k.entry p j)

theorem getFdEntry_of_index {fd : Int} (hc : k.currentProc = some p) (hi : fdIndex fd = some i) :
    k.getFdEntry fd = some (p, i) := by
  simp [getFdEntry, hi, hc]

theorem openFd_of_index {fd : Int} (hc : k.currentProc = some p) (hi : fdIndex fd = some i)
    (ht : (k.entry p i).type ≠ .none) : k.openFd fd = some (p, i) := by
  unfold openFd
  rw [getFdEntry_of_index hc hi]
  simp [Option.filter, ht]

theorem fdIndex_val {fd : Int} (h : fdIndex fd = some i) : fd = (i.val : Int) := by
  unfold fdIndex at h
  split at h
  · cases h
    rename_i hfd
    exact (Int.toNat_of_nonneg hfd.1).symm
  · cases h

/-- The entry that a call comes to through an open descriptor. -/
theorem slot_of_index {fd : Int} (hc : k.currentProc = some p) (hi : fdIndex fd = some i)
    (ht : (k.entry p i).type ≠ .none) (c : FdCall) : k.slot c fd = some (p, i) := by
  cases c with
  | ioctl => exact getFdEntry_of_index hc hi
  | read => exact openFd_of_index hc hi ht
  | write => exact openFd_of_index hc hi ht
  | poll => exact openFd_of_index hc hi ht
  | fstat => exact openFd_of_index hc hi ht

theorem object_of_index {fd : Int} (hc : k.currentProc = some p) (hi : fdIndex fd = some i)
    (ht : (k.entry p i).type ≠ .none) (c : FdCall) :
    k.object c fd = if c.console fd then some .tty else k.entryObject (k.entry p i) c := by
  unfold object
  rw [slot_of_index hc hi ht]

/-- Through the table neither a read nor a poll comes to the terminal. -/
theorem entryObject_ne_tty (e : FdEntry) :
    k.entryObject e .read ≠ some .tty ∧ k.entryObject e .poll ≠ some .tty := by
  have hnode : nodeObject e ≠ .tty := by
    unfold nodeObject
    cases e.node with
    | none => exact nofun
    | some n => exact nofun
  have hpipe : e.pipe.map Object.pipe ≠ some .tty := by
    cases e.pipe with
    | none => exact nofun
    | some j => exact nofun
  constructor
  · unfold entryObject fsObject
    cases (if e.node.isNone then k.fsOf e .read else none) with
    | some x => exact nofun
    | none =>
      dsimp only [Option.map_none]
      split
      · split
        · exact hpipe
        · exact nofun
      · exact fun h => hnode (Option.some.inj h)
  · simp only [entryObject]
    split
    · exact hpipe
    · exact nofun

def SameClass (old new : Int) : Prop := (old = 0 ↔ new = 0) ∧ (old < 3 ↔ new < 3)

instance (old new : Int) : Decidable (SameClass old new) := inferInstanceAs (Decidable (_ ∧ _))

theorem Twins.object_iff {old new : Int} (h : Twins k p i j) (hi : fdIndex old = some i)
    (hj : fdIndex new = some j) :
    (∀ c, k.object c new = k.object c old) ↔ SameClass old new := by
  have hused : (k.entry p j).type ≠ .none := by
    rw [h.alike.type]
    exact h.used
  have hold := fun c => object_of_index h.current hi h.used c
  have hnew := fun c => object_of_index h.current hj hused c
  have hread := fun fd => show FdCall.console .read fd = decide (fd = 0) from rfl
  have h0 : 0 ≤ old ∧ 0 ≤ new := by
    rw [fdIndex_val hi, fdIndex_val hj]
    exact ⟨Int.natCast_nonneg _, Int.natCast_nonneg _⟩
  have hpoll : ∀ fd : Int, 0 ≤ fd → FdCall.console .poll fd = decide (fd < 3) := by
    intro fd hfd
    rw [Bool.eq_iff_iff]
    rw [console_iff, decide_eq_true_eq]
    omega
  constructor
  · intro hall
    have hr := hall .read
    have hp := hall .poll
    rw [hold, hnew, h.alike.entryObject, hread, hread] at hr
    rw [hold, hnew, h.alike.entryObject, hpoll old h0.1, hpoll new h0.2] at hp
    obtain ⟨hnr, hnp⟩ := entryObject_ne_tty (k := k) (k.entry p i)
    constructor
    · by_cases ho : old = 0
      · by_cases hn : new = 0
        · exact ⟨fun _ => hn, fun _ => ho⟩
        · rw [decide_eq_true ho, decide_eq_false hn] at hr
          exact absurd hr hnr
      · by_cases hn : new = 0
        · rw [decide_eq_false ho, decide_eq_true hn] at hr
          exact absurd hr.symm hnr
        · exact ⟨fun h => absurd h ho, fun h => absurd h hn⟩
    · by_cases ho : old < 3
      · by_cases hn : new < 3
        · exact ⟨fun _ => hn, fun _ => ho⟩
        · rw [decide_eq_true ho, decide_eq_false hn] at hp
          exact absurd hp hnp
      · by_cases hn : new < 3
        · rw [decide_eq_false ho, decide_eq_true hn] at hp
          exact absurd hp.symm hnp
        · exact ⟨fun h => absurd h ho, fun h => absurd h hn⟩
  · intro hclass c
    have hconsole : c.console new = c.console old := by
      cases c with
      | read => rw [hread, hread, Bool.eq_iff_iff, decide_eq_true_eq, decide_eq_true_eq, hclass.1]
      | write => rfl
      | poll =>
        rw [hpoll old h0.1, hpoll new h0.2, Bool.eq_iff_iff, decide_eq_true_eq, decide_eq_true_eq,
          hclass.2]
      | ioctl =>
        change FdCall.console .poll new = FdCall.console .poll old
        rw [hpoll old h0.1, hpoll new h0.2, Bool.eq_iff_iff, decide_eq_true_eq, decide_eq_true_eq,
          hclass.2]
      | fstat => rfl
    rw [hold, hnew, h.alike.entryObject, hconsole]

theorem retain_entry (e : FdEntry) (p : Nat) (i : Fin maxFds) :
    (k.retain e).entry p i = k.entry p i := by
  unfold retain
  split <;> rfl

theorem twins_copy {old : Int} (h : k.openFd old = some (p, i)) :
    Twins ((k.setEntry p j (k.entry p i)).retain (k.entry p i)) p i j := by
  obtain ⟨hc, ht⟩ := openFd_current h
  have hentry : ∀ x, ((k.setEntry p j (k.entry p i)).retain (k.entry p i)).entry p x =
      if x = j then k.entry p i else k.entry p x := by
    intro x
    rw [retain_entry, setEntry_entry]
    simp
  have hold : ((k.setEntry p j (k.entry p i)).retain (k.entry p i)).entry p i = k.entry p i := by
    rw [hentry]
    split <;> rfl
  have hcur : ((k.setEntry p j (k.entry p i)).retain (k.entry p i)).currentProc = k.currentProc := by
    unfold retain
    split <;> rfl
  refine ⟨hcur.trans hc, ?_, ?_⟩
  · rw [hold]
    exact ht
  · rw [hold, hentry, if_pos rfl]
    exact ⟨rfl, rfl, rfl, rfl, rfl, rfl, rfl⟩

theorem openFd_index {fd : Int} (h : k.openFd fd = some (p, i)) : fdIndex fd = some i := by
  obtain ⟨hg, _⟩ := Option.filter_eq_some_iff.mp h
  unfold getFdEntry at hg
  simp only [Option.bind_eq_bind, Option.bind_eq_some_iff, Option.some.injEq, Prod.mk.injEq] at hg
  obtain ⟨x, hx, _, _, _, rfl⟩ := hg
  exact hx

inductive Duplicates (k : Kernel) (old new : Int) : Kernel → Prop
  | dup2 (h0 : 0 ≤ (k.sysDup2 old new).1) : Duplicates k old new (k.sysDup2 old new).2
  | dup (h0 : 0 ≤ (k.sysDup old).1) (hnew : (k.sysDup old).1 = new) :
      Duplicates k old new (k.sysDup old).2

theorem fdIndex_coe (j : Fin maxFds) : fdIndex (j.val : Int) = some j := by
  have hj : (0 : Int) ≤ j.val ∧ (j.val : Int) < maxFds :=
    ⟨Int.natCast_nonneg _, by exact_mod_cast j.isLt⟩
  unfold fdIndex
  rw [dif_pos hj]
  rfl

theorem Duplicates.twins {old new : Int} (h : Duplicates k old new k1) :
    ∃ p i j, fdIndex old = some i ∧ fdIndex new = some j ∧ Twins k1 p i j := by
  cases h with
  | dup2 h0 =>
    unfold sysDup2 at h0 ⊢
    cases ho : k.openFd old with
    | none => simp [ho] at h0
    | some x =>
      cases hn : fdIndex new with
      | none => simp [ho, hn] at h0
      | some j => exact ⟨x.1, x.2, j, openFd_index ho, rfl, twins_copy ho⟩
  | dup h0 hnew =>
    unfold sysDup at h0 hnew ⊢
    cases ho : k.openFd old with
    | none => simp [ho] at h0
    | some x =>
      rw [ho] at h0 hnew
      dsimp only at h0 hnew ⊢
      cases hf : k.firstFree x.1 0 with
      | none => simp [hf] at h0
      | some j =>
        rw [hf] at hnew
        refine ⟨x.1, x.2, j, openFd_index ho, ?_, twins_copy ho⟩
        rw [← hnew]
        exact fdIndex_coe j

/-- Neither descriptor of the running process has been closed or replaced since `k`. -/
structure Untouched (k k' : Kernel) (old new : Int) : Prop where
  current : k'.currentProc = k.currentProc
  entries : ∀ p i, k.currentProc = some p → fdIndex old = some i ∨ fdIndex new = some i →
    Alike (k.entry p i) (k'.entry p i)

theorem Twins.later {old new : Int} (h : Twins k p i j) (hi : fdIndex old = some i)
    (hj : fdIndex new = some j) (hu : Untouched k k1 old new) : Twins k1 p i j := by
  have h1 := hu.entries p i h.current (Or.inl hi)
  have h2 := hu.entries p j h.current (Or.inr hj)
  refine ⟨hu.current.trans h.current, ?_, h1.symm.trans (h.alike.trans h2)⟩
  rw [h1.type]
  exact h.used

/-- After `dup` or `dup2`, in every state in which neither descriptor has been closed or replaced,
all calls act on one object through both exactly if both are the terminal's input, both are among its
outputs or neither is one of its three descriptors. -/
theorem redirected_iff {old new : Int} (hd : Duplicates k old new k1)
    (hu : Untouched k1 k2 old new) :
    (∀ c, k2.object c new = k2.object c old) ↔ SameClass old new := by
  obtain ⟨p, i, j, hi, hj, ht⟩ := hd.twins
  exact (ht.later hi hj hu).object_iff hi hj

/-- The write end is copied to descriptor 5. -/
theorem redirected_iff_write_end : ∃ k k1, boot.runAll pipeRun = some k ∧
    Duplicates k 4 5 k1 ∧ ∀ c, k1.object c 5 = k1.object c 4 := by
  have hrun : (boot.runAll pipeRun).any (fun k => 0 ≤ (k.sysDup2 4 5).1) = true := by
    decide +kernel
  obtain ⟨k, hk, h0⟩ := any_exists hrun
  have hd : Duplicates k 4 5 (k.sysDup2 4 5).2 := .dup2 (of_decide_eq_true h0)
  have hu : Untouched (k.sysDup2 4 5).2 (k.sysDup2 4 5).2 4 5 :=
    ⟨rfl, fun _ _ _ _ => ⟨rfl, rfl, rfl, rfl, rfl, rfl, rfl⟩⟩
  exact ⟨k, _, hk, hd, (redirected_iff hd hu).mpr (by decide)⟩

/-- The read end of a pipe is made the standard input, which is still read from the terminal. -/
theorem stdin_not_redirected : ¬ ∀ (k k1 : Kernel) (old new : Int),
    Reached (fun _ _ _ => True) k → Duplicates k old new k1 →
      ∀ c, k1.object c new = k1.object c old := by
  intro hall
  have hrun : (boot.runAll pipeRun).any (fun k => 0 ≤ (k.sysDup2 3 0).1 ∧
      (k.sysDup2 3 0).2.object .read 3 = some (.pipe 0) ∧
      (k.sysDup2 3 0).2.object .read 0 = some .tty) = true := by decide +kernel
  obtain ⟨k, hk, h⟩ := any_exists hrun
  obtain ⟨h0, h3, hin⟩ := of_decide_eq_true h
  have hsame := hall k _ 3 0 (Reached.boot.runAll (fun _ _ _ => trivial) hk) (.dup2 h0) .read
  rw [h3, hin] at hsame
  cases hsame

end redirect

end Kernel

end LosTacOS.Os
