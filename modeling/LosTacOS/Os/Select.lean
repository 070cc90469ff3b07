import LosTacOS.Os.Queries
import Mathlib.Tactic

/-! `select` of the C library: three sets of descriptors become one array for `sys_poll`, and its
answer becomes three sets again. -/
namespace LosTacOS.Os

/-- The word of an `fd_set`: one bit for each of the `FD_SETSIZE` descriptors. -/
abbrev FdSet : Type := BitVec 32

def FdSet.isset (s : FdSet) (fd : Nat) : Bool := s.getLsbD fd

def FdSet.set (s : FdSet) (fd : Nat) : FdSet := s ||| BitVec.twoPow 32 fd

def popcountLoop : Nat → FdSet → Nat
  | 0, _ => 0
  | n + 1, v => if v = 0#32 then 0 else (v &&& 1#32).toNat + popcountLoop n (v >>> 1)

def popcount32 (v : FdSet) : Nat := popcountLoop 32 v

def FdSet.count (s : FdSet) : Nat := (List.range 32).countP s.isset

/-- `readfds`, `writefds` and `exceptfds`; each of them may be null. -/
structure FdSets where
  read : Option FdSet
  write : Option FdSet
  except : Option FdSet
deriving DecidableEq

def wanted (s : Option FdSet) (fd : Nat) : Bool := s.any fun s => s.isset fd

def FdSets.wants (q : FdSets) (fd : Nat) : Bool :=
  wanted q.read fd || wanted q.write fd || wanted q.except fd

def FdSets.slot (q : FdSets) (fd : Nat) : Int × PollSet :=
  (fd, { PollSet.none with pollin := wanted q.read fd, pollout := wanted q.write fd })

def FdSets.slots (q : FdSets) (nfds : Nat) : List Nat := (List.range nfds).filter q.wants

def collect (found : List (Nat × PollSet)) (ready : PollSet → Bool) : FdSet :=
  found.foldl (fun s x => if ready x.2 then s.set x.1 else s) 0

/-- The events that count for the read set; the kernel has no `POLLERR`. -/
def PollSet.forRead (e : PollSet) : Bool := e.pollin || e.pollhup || e.pollnval

def PollSet.forWrite (e : PollSet) : Bool := e.pollout || e.pollnval

def PollSet.forExcept (e : PollSet) : Bool := e.pollhup || e.pollnval

def FdSets.answer (q : FdSets) (found : List (Nat × PollSet)) : FdSets :=
  ⟨q.read.map fun _ => collect found PollSet.forRead,
    q.write.map fun _ => collect found PollSet.forWrite,
    q.except.map fun _ => collect found PollSet.forExcept⟩

def FdSets.ready (q : FdSets) : Nat :=
  (q.read.map popcount32).getD 0 + (q.write.map popcount32).getD 0
    + (q.except.map popcount32).getD 0

namespace Kernel

def pollSlots (k : Kernel) (stdinLen nfds : Nat) (q : FdSets) (timeout : Int) (expired : Bool) :
    Option (Int × List (Nat × PollSet)) :=
  (k.sysPoll stdinLen ((q.slots nfds).map q.slot) timeout expired).map fun x =>
    (x.1, (q.slots nfds).zip x.2)

/-- `select`, in a state in which `sys_poll` looks; a null timeout is -1. -/
def select (k : Kernel) (stdinLen : Nat) (nfds : Int) (q : FdSets) (timeout : Int)
    (expired : Bool) : Option (Int × FdSets) :=
  if nfds < 0 ∨ 32 < nfds then some (-1, q)
  else do
    let (ret, found) ← k.pollSlots stdinLen nfds.toNat q timeout expired
    if ret < 0 then some (-1, q) else some ((q.answer found).ready, q.answer found)

end Kernel

section sets

theorem FdSet.isset_set (s : FdSet) (fd x : Nat) :
    (s.set fd).isset x = (s.isset x || (decide (x < 32) && decide (x = fd))) := by
  rw [FdSet.isset, FdSet.set, BitVec.getLsbD_or, BitVec.getLsbD_twoPow, FdSet.isset]
  by_cases hx : x = fd
  · subst hx
    simp
  · simp [hx, Ne.symm hx]

theorem popcountLoop_eq (n : Nat) (v : FdSet) :
    popcountLoop n v = (List.range n).countP v.isset := by
  induction n generalizing v with
  | zero => rfl
  | succ n ih =>
    rw [popcountLoop]
    split_ifs with hv
    · rw [hv, eq_comm, List.countP_eq_zero]
      intro i _
      simp [FdSet.isset]
    · have hlow : (v &&& 1#32).toNat = if v.isset 0 = true then 1 else 0 := by
        rw [BitVec.and_one_eq_setWidth_ofBool_getLsbD, FdSet.isset]
        cases v.getLsbD 0 <;> rfl
      have hshift : FdSet.isset (v >>> 1) = v.isset ∘ Nat.succ := by
        funext i
        simp [FdSet.isset, BitVec.getLsbD_ushiftRight, Nat.add_comm]
      rw [List.range_succ_eq_map, List.countP_cons, List.countP_map, ih, hshift, hlow, Nat.add_comm]

theorem popcount32_eq (v : FdSet) : popcount32 v = v.count := popcountLoop_eq 32 v

theorem isset_collect {found : List (Nat × PollSet)} (ready : PollSet → Bool) {fd : Nat}
    (hfd : fd < 32) :
    (collect found ready).isset fd = true ↔ ∃ e, (fd, e) ∈ found ∧ ready e = true := by
  have hfold : ∀ s : FdSet,
      (found.foldl (fun s x => if ready x.2 then s.set x.1 else s) s).isset fd = true ↔
        s.isset fd = true ∨ ∃ e, (fd, e) ∈ found ∧ ready e = true := by
    induction found with
    | nil => simp
    | cons x found ih =>
      intro s
      obtain ⟨y, e⟩ := x
      rw [List.foldl_cons, ih]
      by_cases he : ready e = true
      · by_cases hy : fd = y
        · subst hy
          simp only [he, if_true, FdSet.isset_set, hfd, decide_true, Bool.and_self, Bool.or_true,
            true_or, true_iff]
          exact Or.inr ⟨e, List.mem_cons_self, he⟩
        · simp [he, FdSet.isset_set, hy]
      · simp only [he]
        apply or_congr_right
        apply exists_congr
        intro e'
        apply and_congr_left
        intro he'
        have hne : e' ≠ e := by
          rintro rfl
          exact he he'
        simp [hne]
  have hzero : FdSet.isset 0 fd = false := by simp [FdSet.isset]
  rw [collect, hfold, hzero]
  simp

theorem wanted_isSome {s : Option FdSet} {fd : Nat} (h : wanted s fd = true) : s.isSome := by
  cases s with
  | none => cases h
  | some s => rfl

theorem wanted_lt {s : Option FdSet} {fd : Nat} (h : wanted s fd = true) : fd < 32 := by
  cases s with
  | none => cases h
  | some s => exact BitVec.lt_of_getLsbD h

/-- A descriptor comes back in a set that is given when one of its events counts for the set. -/
theorem wanted_collect {found : List (Nat × PollSet)} (s : Option FdSet) (ready : PollSet → Bool)
    {fd : Nat} (hfd : fd < 32) : wanted (s.map fun _ => collect found ready) fd = true ↔
      s.isSome ∧ ∃ e, (fd, e) ∈ found ∧ ready e = true := by
  cases s with
  | none => simp [wanted]
  | some s => simpa [wanted] using isset_collect ready hfd

end sets

namespace Kernel

variable {k : Kernel} {stdinLen nfds : Nat} {q : FdSets}

def Invalid (k : Kernel) (fd : Nat) : Prop := 3 ≤ fd ∧ k.openFd fd = none

def HungUp (k : Kernel) (fd : Nat) : Prop :=
  3 ≤ fd ∧ ∃ p i j, k.openFd fd = some (p, i) ∧ (k.entry p i).type = .pipe ∧
    (k.entry p i).pipe = some j ∧ (k.entry p i).readable = true ∧
    (k.pipes j).writePos ≤ (k.pipes j).readPos ∧ (k.pipes j).writers ≤ 0

/-- What `sys_poll` reports: reading and writing only on request, the other two unasked. -/
structure Reported (k : Kernel) (fd : Nat) (events found : PollSet) : Prop where
  pollin : found.pollin = true → events.pollin = true
  pollout : found.pollout = true → events.pollout = true
  pollnval : found.pollnval = true ↔ k.Invalid fd
  pollhup : found.pollhup = true ↔ k.HungUp fd

theorem pollFd_reported {fd : Nat} {events found : PollSet} {n : Nat}
    (h : k.pollFd stdinLen fd events = some (found, n)) : k.Reported fd events found := by
  by_cases hlow : fd < 3
  · have hnot : ¬k.Invalid fd ∧ ¬k.HungUp fd :=
      ⟨fun hi => by have := hi.1; omega, fun hh => by have := hh.1; omega⟩
    have hcases : fd = 0 ∨ fd = 1 ∨ fd = 2 := by omega
    rcases hcases with rfl | rfl | rfl
    all_goals
      simp [pollFd] at h
      obtain ⟨rfl, -⟩ := h
      constructor <;> simp +contextual [PollSet.none, hnot]
  · have h3 : 3 ≤ fd := by omega
    rw [pollFd, if_neg (by omega), if_neg (by omega)] at h
    cases hfd : k.openFd fd with
    | none =>
      rw [hfd] at h
      cases h
      have hvalid : k.Invalid fd := ⟨h3, hfd⟩
      have hhung : ¬k.HungUp fd := by
        rintro ⟨-, p, i, j, hopen, -⟩
        rw [hfd] at hopen
        cases hopen
      constructor <;> simp [PollSet.none, hvalid, hhung]
    | some x =>
      obtain ⟨p, i⟩ := x
      rw [hfd] at h
      have hvalid : ¬k.Invalid fd := by
        rintro ⟨-, hnone⟩
        rw [hfd] at hnone
        cases hnone
      dsimp only at h
      split_ifs at h with hpipe
      · obtain ⟨j, hj, heq⟩ := Option.map_eq_some_iff.mp h
        have hhung : k.HungUp fd ↔ (k.entry p i).readable = true ∧
            (k.pipes j).writePos ≤ (k.pipes j).readPos ∧ (k.pipes j).writers ≤ 0 := by
          constructor
          · rintro ⟨-, p', i', j', hopen, -, hj', hrest⟩
            rw [hfd] at hopen
            cases hopen
            rw [hj] at hj'
            cases hj'
            exact hrest
          · exact fun hrest => ⟨h3, p, i, j, hfd, hpipe, hj, hrest⟩
        have hfound : found = (pollPipe (k.pipes j) (k.entry p i).readable
            (k.entry p i).writable events).1 := by rw [heq]
        subst hfound
        constructor <;> simp [pollPipe, hvalid, hhung, and_assoc]
      · have hhung : ¬k.HungUp fd := by
          rintro ⟨-, p', i', j', hopen, htype, -⟩
          rw [hfd] at hopen
          cases hopen
          exact hpipe htype
        cases h
        constructor <;> simp [PollSet.none, hvalid, hhung]

/-- Each slot is answered by what `sys_poll` finds at its descriptor. -/
theorem mem_pollSlots {timeout ret : Int} {expired : Bool} {found : List (Nat × PollSet)}
    (h : k.pollSlots stdinLen nfds q timeout expired = some (ret, found)) {fd : Nat} {e : PollSet} :
    (fd, e) ∈ found ↔ fd ∈ q.slots nfds ∧
      ∃ n, k.pollFd stdinLen fd (q.slot fd).2 = some (e, n) := by
  have hzip : ∀ (fds : List Nat) (out : List (PollSet × Nat)),
      ((fds.map q.slot).mapM fun x => k.pollFd stdinLen x.1 x.2) = some out →
      ((fd, e) ∈ fds.zip (out.map Prod.fst) ↔ fd ∈ fds ∧
        ∃ n, k.pollFd stdinLen fd (q.slot fd).2 = some (e, n)) := by
    intro fds
    induction fds with
    | nil => simp
    | cons x fds ih =>
      intro out hout
      rw [List.map_cons, List.mapM_cons] at hout
      obtain ⟨y, hy, hout⟩ := Option.bind_eq_some_iff.mp hout
      obtain ⟨ys, hys, hout⟩ := Option.bind_eq_some_iff.mp hout
      cases hout
      rw [List.map_cons, List.zip_cons_cons, List.mem_cons, ih ys hys, List.mem_cons, or_and_right]
      apply or_congr_left
      constructor
      · intro heq
        cases heq
        exact ⟨rfl, y.2, hy⟩
      · rintro ⟨rfl, n, hn⟩
        have hyn : y = (e, n) := Option.some.inj (hy.symm.trans hn)
        rw [hyn]
  obtain ⟨⟨ret', revents⟩, hpoll, heq⟩ := Option.map_eq_some_iff.mp h
  cases heq
  obtain ⟨out, hout, hpoll⟩ := Option.bind_eq_some_iff.mp hpoll
  dsimp only at hpoll
  split_ifs at hpoll
  cases hpoll
  exact hzip _ out hout

theorem pollSlots_some {timeout ret : Int} {expired : Bool} {found : List (Nat × PollSet)}
    (h : k.pollSlots stdinLen nfds q timeout expired = some (ret, found)) {fd : Nat}
    (hfd : fd ∈ q.slots nfds) : ∃ e n, k.pollFd stdinLen fd (q.slot fd).2 = some (e, n) := by
  have hall : ∀ (pfds : List (Int × PollSet)) (out : List (PollSet × Nat)),
      (pfds.mapM fun x => k.pollFd stdinLen x.1 x.2) = some out →
      ∀ x ∈ pfds, ∃ y, k.pollFd stdinLen x.1 x.2 = some y := by
    intro pfds
    induction pfds with
    | nil => simp
    | cons z pfds ih =>
      intro out hout x hx
      rw [List.mapM_cons] at hout
      obtain ⟨y, hy, hout⟩ := Option.bind_eq_some_iff.mp hout
      obtain ⟨ys, hys, -⟩ := Option.bind_eq_some_iff.mp hout
      cases List.mem_cons.mp hx with
      | inl hz => exact hz ▸ ⟨y, hy⟩
      | inr hx => exact ih ys hys x hx
  obtain ⟨x, hpoll, -⟩ := Option.map_eq_some_iff.mp h
  obtain ⟨out, hout, -⟩ := Option.bind_eq_some_iff.mp hpoll
  obtain ⟨y, hy⟩ := hall _ out hout (q.slot fd) (List.mem_map_of_mem hfd)
  exact ⟨y.1, y.2, hy⟩

/-- The answer of `select`: each set is part of the set passed in, the result counts the bits, and
a descriptor is in the read (write) set if it was asked for there and `sys_poll` has reported an
event that counts. -/
structure Answered (q out : FdSets) (r : Int) (found : List (Nat × PollSet)) : Prop where
  readSubset : ∀ fd, wanted out.read fd = true → wanted q.read fd = true
  writeSubset : ∀ fd, wanted out.write fd = true → wanted q.write fd = true
  exceptSubset : ∀ fd, wanted out.except fd = true → wanted q.except fd = true
  total : r = (out.read.map FdSet.count).getD 0 + (out.write.map FdSet.count).getD 0
    + (out.except.map FdSet.count).getD 0
  read : ∀ fd, wanted out.read fd = true ↔
    wanted q.read fd = true ∧ ∃ e, (fd, e) ∈ found ∧ e.forRead = true
  write : ∀ fd, wanted out.write fd = true ↔
    wanted q.write fd = true ∧ ∃ e, (fd, e) ∈ found ∧ e.forWrite = true

/-- No descriptor is asked for in one set only while an event that nobody asks for, an invalid
number or the end of a pipe, counts for another one that is given. -/
def Separate (k : Kernel) (nfds : Nat) (q : FdSets) : Prop :=
  ∀ fd < nfds, q.wants fd = true →
    (q.read.isSome → wanted q.read fd = false → ¬k.Invalid fd ∧ ¬k.HungUp fd) ∧
    (q.write.isSome → wanted q.write fd = false → ¬k.Invalid fd) ∧
    (q.except.isSome → wanted q.except fd = false → ¬k.Invalid fd ∧ ¬k.HungUp fd)

section answer

variable {nfds : Int} {timeout ret r : Int} {expired : Bool} {out : FdSets}
  {found : List (Nat × PollSet)}

theorem slots_lt {n fd : Nat} (h : fd ∈ q.slots n) : fd < n ∧ q.wants fd = true := by
  simpa [FdSets.slots] using h

/-- A set comes back as part of the one passed in when no descriptor outside it has an event that
counts. -/
theorem subset_iff (hn : nfds.toNat ≤ 32) (s : Option FdSet) (ready : PollSet → Bool)
    (hfound : ∀ fd e, (fd, e) ∈ found → fd < nfds.toNat) :
    (∀ fd, wanted (s.map fun _ => collect found ready) fd = true → wanted s fd = true) ↔
      ∀ fd e, (fd, e) ∈ found → s.isSome → wanted s fd = false → ready e = false := by
  constructor
  · intro h fd e he hs hw
    by_contra hready
    have hback := (wanted_collect s ready (by have := hfound fd e he; omega)).mpr
      ⟨hs, e, he, by simpa using hready⟩
    rw [h fd hback] at hw
    cases hw
  · intro h fd hback
    obtain ⟨hs, e, he, hready⟩ := (wanted_collect s ready (wanted_lt hback)).mp hback
    by_contra hw
    rw [h fd e he hs (by simpa using hw)] at hready
    cases hready

theorem Reported.forRead_iff {fd : Nat} {events e : PollSet} (h : k.Reported fd events e)
    (hasked : events.pollin = false) : e.forRead = false ↔ ¬k.Invalid fd ∧ ¬k.HungUp fd := by
  have hpollin : e.pollin = false := by
    by_contra hin
    rw [h.pollin (by simpa using hin)] at hasked
    cases hasked
  rw [← h.pollnval, ← h.pollhup, PollSet.forRead, hpollin]
  cases e.pollhup <;> simp

theorem Reported.forWrite_iff {fd : Nat} {events e : PollSet} (h : k.Reported fd events e)
    (hasked : events.pollout = false) : e.forWrite = false ↔ ¬k.Invalid fd := by
  have hpollout : e.pollout = false := by
    by_contra hout
    rw [h.pollout (by simpa using hout)] at hasked
    cases hasked
  rw [← h.pollnval, PollSet.forWrite, hpollout]
  simp

theorem Reported.forExcept_iff {fd : Nat} {events e : PollSet} (h : k.Reported fd events e) :
    e.forExcept = false ↔ ¬k.Invalid fd ∧ ¬k.HungUp fd := by
  rw [← h.pollnval, ← h.pollhup, PollSet.forExcept]
  cases e.pollhup <;> simp

/-- What holds of each slot's answer, as a condition on the descriptors. -/
theorem forall_found_iff (hpoll : k.pollSlots stdinLen nfds.toNat q timeout expired =
      some (ret, found)) (s : Option FdSet) (ready : PollSet → Bool) (cond : Nat → Prop)
    (hready : ∀ fd e, k.Reported fd (q.slot fd).2 e → wanted s fd = false →
      (ready e = false ↔ cond fd)) :
    (∀ fd e, (fd, e) ∈ found → s.isSome → wanted s fd = false → ready e = false) ↔
      ∀ fd < nfds.toNat, q.wants fd = true → s.isSome → wanted s fd = false → cond fd := by
  constructor
  · intro h fd hlt hwants hs hw
    have hslot : fd ∈ q.slots nfds.toNat := by
      rw [FdSets.slots, List.mem_filter, List.mem_range]
      exact ⟨hlt, hwants⟩
    obtain ⟨e, n, hfd⟩ := pollSlots_some hpoll hslot
    exact (hready fd e (pollFd_reported hfd) hw).mp
      (h fd e ((mem_pollSlots hpoll).mpr ⟨hslot, n, hfd⟩) hs hw)
  · intro h fd e he hs hw
    obtain ⟨hslot, n, hfd⟩ := (mem_pollSlots hpoll).mp he
    obtain ⟨hlt, hwants⟩ := slots_lt hslot
    exact (hready fd e (pollFd_reported hfd) hw).mpr (h fd hlt hwants hs hw)

/-- `select` answers as it should exactly when the three requests do not mix. -/
theorem select_answers_iff (hpoll : k.pollSlots stdinLen nfds.toNat q timeout expired =
      some (ret, found)) (hselect : k.select stdinLen nfds q timeout expired = some (r, out))
    (hr : 0 ≤ r) : Answered q out r found ↔ k.Separate nfds.toNat q := by
  rw [select] at hselect
  split_ifs at hselect with hrange
  · cases hselect
    omega
  rw [hpoll] at hselect
  have hselect' : (if ret < 0 then some (-1, q)
      else some (((q.answer found).ready : Int), q.answer found)) = some (r, out) := hselect
  split_ifs at hselect' with hret
  · cases hselect'
    omega
  cases hselect'
  have hn : nfds.toNat ≤ 32 := by omega
  have hfound : ∀ fd e, (fd, e) ∈ found → fd < nfds.toNat := fun fd e he =>
    (slots_lt ((mem_pollSlots hpoll).mp he).1).1
  have hread := (subset_iff hn q.read PollSet.forRead hfound).trans
    (forall_found_iff hpoll q.read PollSet.forRead _ fun fd e he hw => he.forRead_iff hw)
  have hwrite := (subset_iff hn q.write PollSet.forWrite hfound).trans
    (forall_found_iff hpoll q.write PollSet.forWrite _ fun fd e he hw => he.forWrite_iff hw)
  have hexcept := (subset_iff hn q.except PollSet.forExcept hfound).trans
    (forall_found_iff hpoll q.except PollSet.forExcept _ fun fd e he _ => he.forExcept_iff)
  constructor
  · intro h fd hlt hwants
    exact ⟨hread.mp h.readSubset fd hlt hwants, hwrite.mp h.writeSubset fd hlt hwants,
      hexcept.mp h.exceptSubset fd hlt hwants⟩
  · intro h
    have hreads := hread.mpr fun fd hlt hwants => (h fd hlt hwants).1
    have hwrites := hwrite.mpr fun fd hlt hwants => (h fd hlt hwants).2.1
    have hmem : ∀ (s : Option FdSet) (ready : PollSet → Bool),
        (∀ fd, wanted (s.map fun _ => collect found ready) fd = true → wanted s fd = true) →
        ∀ fd, wanted (s.map fun _ => collect found ready) fd = true ↔
          wanted s fd = true ∧ ∃ e, (fd, e) ∈ found ∧ ready e = true := by
      intro s ready hsub fd
      constructor
      · intro hback
        have hlt := wanted_lt hback
        exact ⟨hsub fd hback, ((wanted_collect s ready hlt).mp hback).2⟩
      · rintro ⟨hw, hrep⟩
        exact (wanted_collect s ready (wanted_lt hw)).mpr ⟨wanted_isSome hw, hrep⟩
    exact {
      readSubset := hreads
      writeSubset := hwrites
      exceptSubset := hexcept.mpr fun fd hlt hwants => (h fd hlt hwants).2.2
      total := by simp [FdSets.ready, funext popcount32_eq]
      read := hmem q.read PollSet.forRead hreads
      write := hmem q.write PollSet.forWrite hwrites }

/-- Descriptor 1 is asked for in the write set only, with no read set. -/
theorem select_answers_stdout : Answered ⟨none, some 2, none⟩ ⟨none, some 2, none⟩ 1
    [(1, { PollSet.none with pollout := true })] := by
  have hpoll : boot.pollSlots 0 (2 : Int).toNat ⟨none, some 2, none⟩ 0 false =
      some (1, [(1, { PollSet.none with pollout := true })]) := by decide
  have hselect : boot.select 0 2 ⟨none, some 2, none⟩ 0 false =
      some (1, ⟨none, some 2, none⟩) := by decide
  refine (select_answers_iff hpoll hselect (by decide)).mpr fun fd _ hwants => ?_
  have hwrite : wanted (some 2) fd = true := by simpa [FdSets.wants, wanted] using hwants
  exact ⟨nofun, fun _ hw => absurd (hwrite.symm.trans hw) (by decide), nofun⟩

/-- Descriptor 5 is closed and asked for in the write set only; it comes back in the read set. -/
theorem select_mixes_sets : ¬ ∀ (k : Kernel) (stdinLen : Nat) (nfds : Int) (q : FdSets)
    (timeout ret r : Int) (expired : Bool) (out : FdSets) (found : List (Nat × PollSet)),
    k.pollSlots stdinLen nfds.toNat q timeout expired = some (ret, found) →
    k.select stdinLen nfds q timeout expired = some (r, out) → 0 ≤ r → Answered q out r found := by
  intro h
  have hright := h boot 0 6 ⟨some 0, some 32, none⟩ 0 1 2 false ⟨some 32, some 32, none⟩
    [(5, { PollSet.none with pollnval := true })] (by decide) (by decide) (by decide)
  have hback := hright.readSubset 5 (by decide)
  cases hback

end answer

end Kernel

end LosTacOS.Os
