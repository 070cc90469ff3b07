import LosTacOS.Os.Syscall

/-! A read of a pipe that had to wait. Its `sti` leaves the interrupts on until it returns, so that
other processes run between any two of its steps. -/
namespace LosTacOS.Os

def Pipe.unread (q : Pipe) : List UInt8 :=
  (List.range (q.writePos - q.readPos)).map fun x => q.buffer (q.readPos + x)

structure Pipe.InOrder (q : Pipe) : Prop where
  read : q.readPos ≤ q.writePos
  room : q.writePos ≤ 4096

def Pipe.stream (q : Pipe) : Nat × Nat × (Nat → UInt8) := (q.readPos, q.writePos, q.buffer)

/-- Where the read is: at the head of its wait loop, behind the test there, at the head of the copy
loop, behind its test, at the test for the reset, behind it, and between the two stores. -/
inductive Phase where
  | halted
  | empty
  | copying
  | taking (pos : Nat)
  | leaving
  | resetting
  | clearing
deriving DecidableEq

structure Reader where
  len : Nat
  bytes : List UInt8
  phase : Phase
deriving DecidableEq

namespace Reader

/-- Its next step: how it goes on, or the bytes that it returns. -/
def step (r : Reader) (q : Pipe) : (Reader ⊕ List UInt8) × Pipe :=
  match r.phase with
  | .halted =>
    let phase := if q.readPos < q.writePos then Phase.copying else .empty
    (.inl { r with phase }, q)
  | .empty => (if q.writers ≤ 0 then .inr [] else .inl { r with phase := .halted }, q)
  | .copying =>
    let more := r.bytes.length < r.len ∧ q.readPos < q.writePos
    let phase := if more then Phase.taking q.readPos else .leaving
    (.inl { r with phase }, q)
  | .taking pos =>
    (.inl { r with bytes := r.bytes ++ [q.buffer pos], phase := .copying },
      { q with readPos := pos + 1 })
  | .leaving =>
    (if q.readPos < q.writePos then .inr r.bytes else .inl { r with phase := .resetting }, q)
  | .resetting => (.inl { r with phase := .clearing }, { q with readPos := 0 })
  | .clearing => (.inr r.bytes, { q with writePos := 0 })

def past (r : Reader) : Bool :=
  match r.phase with
  | .halted | .empty => false
  | _ => true

def tested (r : Reader) : Bool :=
  match r.phase with
  | .empty | .resetting | .clearing => true
  | _ => false

end Reader

open Kernel

section pipe

variable {q q' : Pipe}

theorem InOrder.of_stream (h : q.InOrder) (hs : q'.stream = q.stream) :
    q'.InOrder ∧ q'.unread = q.unread := by
  obtain ⟨hr, hs⟩ := Prod.mk.inj hs
  obtain ⟨hw, hb⟩ := Prod.mk.inj hs
  refine ⟨⟨?_, ?_⟩, ?_⟩
  · rw [hr, hw]
    exact h.read
  · rw [hw]
    exact h.room
  · unfold Pipe.unread
    rw [hr, hw, hb]

theorem Pipe.unread_empty (h : q.writePos ≤ q.readPos) : q.unread = [] := by
  rw [Pipe.unread, Nat.sub_eq_zero_of_le h]
  rfl

theorem Pipe.unread_cons (h : q.readPos < q.writePos) :
    q.unread = q.buffer q.readPos :: { q with readPos := q.readPos + 1 }.unread := by
  unfold Pipe.unread
  dsimp only
  have hlen : q.writePos - q.readPos = (q.writePos - (q.readPos + 1)) + 1 := by omega
  rw [hlen, List.range_succ_eq_map, List.map_cons, List.map_map]
  congr 1
  refine List.map_congr_left fun x _ => ?_
  rw [Function.comp_apply, Nat.succ_eq_add_one, Nat.add_assoc, Nat.add_comm 1 x]

/-- A write puts the bytes it has room for behind the others. -/
theorem pipeWrite_unread (h : q.InOrder) (data : List UInt8) :
    (pipeWrite q data).2.InOrder ∧
      (pipeWrite q data).2.unread = q.unread ++ data.take (pipeWrite q data).1 := by
  have hread := h.read
  have hroom := h.room
  unfold pipeWrite
  dsimp only
  generalize hn : min data.length (4096 - q.writePos) = n
  refine ⟨⟨?_, ?_⟩, ?_⟩
  · dsimp only
    omega
  · dsimp only
    omega
  · unfold Pipe.unread
    dsimp only
    have hlen : q.writePos + n - q.readPos = (q.writePos - q.readPos) + n := by omega
    rw [hlen, List.range_add, List.map_append, List.map_map]
    congr 1
    · refine List.map_congr_left fun x hx => ?_
      have hx' := List.mem_range.mp hx
      exact if_neg (by omega)
    · refine List.ext_getElem (by simp; omega) fun x h1 h2 => ?_
      have hx : x < n := by simpa using h1
      have hxd : x < data.length := by omega
      simp only [List.getElem_map, List.getElem_range, Function.comp_apply, List.getElem_take]
      rw [if_pos (by omega)]
      have hpos : q.readPos + (q.writePos - q.readPos + x) - q.writePos = x := by omega
      rw [hpos, List.getD, List.getElem?_eq_getElem hxd, Option.getD_some]

/-- A read takes its bytes from the front; a pipe that is empty starts again. -/
theorem pipeRead_unread (h : q.InOrder) (len : Nat) :
    (pipeRead q len).2.InOrder ∧ (pipeRead q len).1 ++ (pipeRead q len).2.unread = q.unread := by
  have hread := h.read
  have hroom := h.room
  unfold pipeRead
  dsimp only
  generalize hn : min len (q.writePos - q.readPos) = n
  have hsplit : (List.range n).map (fun x => q.buffer (q.readPos + x)) ++
      (List.range (q.writePos - (q.readPos + n))).map (fun x => q.buffer (q.readPos + n + x)) =
        q.unread := by
    unfold Pipe.unread
    have hlen : q.writePos - q.readPos = n + (q.writePos - (q.readPos + n)) := by omega
    rw [hlen, List.range_add, List.map_append, List.map_map]
    congr 1
    refine List.map_congr_left fun x _ => ?_
    rw [Function.comp_apply, Nat.add_assoc]
  split
  · rename_i hle
    refine ⟨⟨le_refl 0, Nat.zero_le _⟩, ?_⟩
    rw [← hsplit, Nat.sub_eq_zero_of_le hle]
    rfl
  · refine ⟨⟨?_, hroom⟩, hsplit⟩
    dsimp only
    omega

end pipe

section waiting

variable {rs : List Reader} {r : Reader} {q q' : Pipe}

def settled (rs : List Reader) (q : Pipe) : Pipe :=
  if rs.any (·.phase = .clearing) then { q with writePos := 0 } else q

def held (rs : List Reader) : List UInt8 := rs.flatMap Reader.bytes

def Reader.Fits (q : Pipe) (r : Reader) : Prop :=
  match r.phase with
  | .halted => r.bytes = []
  | .empty => r.bytes = [] ∧ q.writePos ≤ q.readPos
  | .copying => 0 < r.len → r.bytes = [] → q.readPos < q.writePos
  | .taking pos => pos = q.readPos ∧ q.readPos < q.writePos
  | .leaving => 0 < r.len → r.bytes ≠ []
  | .resetting => (0 < r.len → r.bytes ≠ []) ∧ q.writePos ≤ q.readPos
  | .clearing => (0 < r.len → r.bytes ≠ []) ∧ q.readPos = 0 ∧ q.writePos ≤ q.readPos

structure Waits (rs : List Reader) (q : Pipe) : Prop where
  one : ∀ r ∈ rs, r.past = true → ∀ r' ∈ rs.erase r, r'.past = false
  fits : ∀ r ∈ rs, r.Fits (settled rs q)

theorem Reader.Fits.bytes (h : r.Fits q) (hp : r.past = false) : r.bytes = [] := by
  unfold Reader.Fits at h
  unfold Reader.past at hp
  split at h
  · exact h
  · exact h.1
  · rename_i he
    rw [he] at hp
    cases hp
  · rename_i he
    rw [he] at hp
    cases hp
  · rename_i he
    rw [he] at hp
    cases hp
  · rename_i he
    rw [he] at hp
    cases hp
  · rename_i he
    rw [he] at hp
    cases hp

theorem settled_of_not_past (h : ∀ r ∈ rs, r.past = false) (q : Pipe) : settled rs q = q := by
  unfold settled
  rw [if_neg]
  intro hany
  obtain ⟨r, hr, he⟩ := List.any_eq_true.mp hany
  have hp := h r hr
  rw [Reader.past, of_decide_eq_true he] at hp
  cases hp

theorem held_of_not_past (hf : ∀ r ∈ rs, r.Fits q) (h : ∀ r ∈ rs, r.past = false) :
    held rs = [] :=
  List.flatMap_eq_nil_iff.mpr fun r hr => (hf r hr).bytes (h r hr)

theorem settled_clearing (h : r.phase = .clearing) (q : Pipe) :
    settled [r] q = { q with writePos := 0 } := by
  unfold settled
  rw [if_pos]
  simp [h]

theorem settled_other (h : r.phase ≠ .clearing) (q : Pipe) : settled [r] q = q := by
  unfold settled
  rw [if_neg]
  simp [h]

/-- With the others in their wait loops one read decides. -/
theorem settled_cons {E : List Reader} (h : ∀ x ∈ E, x.past = false) (q : Pipe) :
    settled (r :: E) q = settled [r] q := by
  have hno : E.any (·.phase = .clearing) = false := by
    rw [List.any_eq_false]
    intro x hx he
    have hp := h x hx
    rw [Reader.past, of_decide_eq_true he] at hp
    cases hp
  unfold settled
  rw [List.any_cons, hno, List.any_cons, List.any_nil]

theorem settled_erase (hr : r ∈ rs) (h : ∀ x ∈ rs.erase r, x.past = false) (q : Pipe) :
    settled rs q = settled [r] q := by
  rw [← settled_cons h q]
  unfold settled
  rw [(List.perm_cons_erase hr).any_eq]

theorem held_erase (hf : ∀ x ∈ rs, x.Fits q) (hr : r ∈ rs)
    (h : ∀ x ∈ rs.erase r, x.past = false) : held rs = r.bytes := by
  obtain ⟨before, behind, -, rfl, he⟩ := List.exists_erase_eq hr
  rw [he] at h
  have hnil : ∀ x ∈ before ++ behind, x.bytes = [] := by
    intro x hx
    refine (hf x ?_).bytes (h x hx)
    rcases List.mem_append.mp hx with hx | hx
    · exact List.mem_append_left _ hx
    · exact List.mem_append_right _ (List.mem_cons_of_mem _ hx)
  have hbefore : before.flatMap Reader.bytes = [] :=
    List.flatMap_eq_nil_iff.mpr fun x hx => hnil x (List.mem_append_left _ hx)
  have hbehind : behind.flatMap Reader.bytes = [] :=
    List.flatMap_eq_nil_iff.mpr fun x hx => hnil x (List.mem_append_right _ hx)
  rw [held, List.flatMap_append, List.flatMap_cons, hbefore, hbehind, List.nil_append,
    List.append_nil]

theorem held_cons {E : List Reader} (hf : ∀ x ∈ E, x.Fits q) (h : ∀ x ∈ E, x.past = false) :
    held (r :: E) = r.bytes := by
  rw [held, List.flatMap_cons]
  have hE : E.flatMap Reader.bytes = [] := held_of_not_past hf h
  rw [hE, List.append_nil]

/-- A read in its wait loop only needs an empty pipe to stay empty. -/
theorem Reader.Fits.keep (h : r.Fits q) (hp : r.past = false)
    (hempty : q.writePos ≤ q.readPos → q'.writePos ≤ q'.readPos) : r.Fits q' := by
  unfold Reader.Fits at h ⊢
  unfold Reader.past at hp
  split at h
  · exact h
  · exact ⟨h.1, hempty h.2⟩
  all_goals
    rename_i he
    rw [he] at hp
    cases hp

theorem Reader.Fits.of_stream (h : r.Fits q) (hs : q'.stream = q.stream) : r.Fits q' := by
  obtain ⟨hr, hs⟩ := Prod.mk.inj hs
  obtain ⟨hw, -⟩ := Prod.mk.inj hs
  unfold Reader.Fits at h ⊢
  rw [hr, hw]
  exact h

theorem Waits.cons {E : List Reader} (h : ∀ x ∈ E, x.past = false) (hr : r.Fits (settled [r] q))
    (hE : ∀ x ∈ E, x.Fits (settled [r] q)) : Waits (r :: E) q := by
  refine ⟨fun x hx hpast => ?_, fun x hx => ?_⟩
  · rcases List.mem_cons.mp hx with rfl | hx
    · rw [List.erase_cons_head]
      exact h
    · rw [h x hx] at hpast
      cases hpast
  · rw [settled_cons h]
    rcases List.mem_cons.mp hx with rfl | hx
    · exact hr
    · exact hE x hx

structure Turned (r r' : Reader) (q q' : Pipe) : Prop where
  fits : r'.Fits (settled [r'] q')
  order : q'.InOrder
  bytes : r'.bytes ++ (settled [r'] q').unread = r.bytes ++ (settled [r] q).unread
  empty : (settled [r] q).writePos ≤ (settled [r] q).readPos →
    (settled [r'] q').writePos ≤ (settled [r'] q').readPos

theorem Reader.turned {r' : Reader} (h : r.Fits (settled [r] q)) (ho : q.InOrder)
    (hs : r.step q = (.inl r', q')) : Turned r r' q q' := by
  obtain ⟨len, bytes, phase⟩ := r
  cases phase with
  | halted =>
    rw [settled_other (by simp)] at h
    replace h : bytes = [] := h
    cases hs
    dsimp only at *
    by_cases hlt : q.readPos < q.writePos
    · rw [if_pos hlt]
      refine ⟨?_, ho, ?_, ?_⟩
      all_goals rw [settled_other (by simp)]
      · exact fun _ _ => hlt
      · rw [settled_other (by simp)]
      · rw [settled_other (by simp)]
        exact id
    · rw [if_neg hlt]
      refine ⟨?_, ho, ?_, ?_⟩
      all_goals rw [settled_other (by simp)]
      · exact ⟨h, Nat.le_of_not_lt hlt⟩
      · rw [settled_other (by simp)]
      · rw [settled_other (by simp)]
        exact id
  | empty =>
    rw [settled_other (by simp)] at h
    obtain ⟨hb, hle⟩ : bytes = [] ∧ q.writePos ≤ q.readPos := h
    unfold Reader.step at hs
    dsimp only at hs
    split at hs
    · cases hs
    · cases hs
      refine ⟨?_, ho, ?_, ?_⟩
      all_goals rw [settled_other (by simp)]
      · exact hb
      · rw [settled_other (by simp)]
      · rw [settled_other (by simp)]
        exact id
  | copying =>
    rw [settled_other (by simp)] at h
    replace h : 0 < len → bytes = [] → q.readPos < q.writePos := h
    cases hs
    dsimp only at *
    by_cases hmore : bytes.length < len ∧ q.readPos < q.writePos
    · rw [if_pos hmore]
      refine ⟨?_, ho, ?_, ?_⟩
      all_goals rw [settled_other (by simp)]
      · exact ⟨rfl, hmore.2⟩
      · rw [settled_other (by simp)]
      · rw [settled_other (by simp)]
        exact id
    · rw [if_neg hmore]
      refine ⟨?_, ho, ?_, ?_⟩
      all_goals rw [settled_other (by simp)]
      · intro hlen hnil
        refine hmore ⟨?_, h hlen hnil⟩
        rw [show bytes = [] from hnil]
        exact hlen
      · rw [settled_other (by simp)]
      · rw [settled_other (by simp)]
        exact id
  | taking pos =>
    rw [settled_other (by simp)] at h
    obtain ⟨rfl, hlt⟩ : pos = q.readPos ∧ q.readPos < q.writePos := h
    cases hs
    refine ⟨?_, ⟨hlt, ho.room⟩, ?_, ?_⟩
    all_goals rw [settled_other (by simp)]
    · intro _ hnil
      simp at hnil
    · rw [settled_other (by simp), Pipe.unread_cons hlt, List.append_assoc]
      rfl
    · rw [settled_other (by simp)]
      intro hle
      omega
  | leaving =>
    rw [settled_other (by simp)] at h
    replace h : 0 < len → bytes ≠ [] := h
    unfold Reader.step at hs
    dsimp only at hs
    split at hs
    · cases hs
    · rename_i hge
      cases hs
      refine ⟨?_, ho, ?_, ?_⟩
      all_goals rw [settled_other (by simp)]
      · exact ⟨h, Nat.le_of_not_lt hge⟩
      · rw [settled_other (by simp)]
      · rw [settled_other (by simp)]
        exact id
  | resetting =>
    rw [settled_other (by simp)] at h
    obtain ⟨hb, hle⟩ : (0 < len → bytes ≠ []) ∧ q.writePos ≤ q.readPos := h
    cases hs
    refine ⟨?_, ⟨Nat.zero_le _, ho.room⟩, ?_, ?_⟩
    · rw [settled_clearing (by simp)]
      exact ⟨hb, rfl, Nat.le_refl _⟩
    · rw [settled_clearing (by simp), settled_other (by simp), Pipe.unread_empty hle,
        Pipe.unread_empty (Nat.le_refl _)]
    · rw [settled_other (by simp), settled_clearing (by simp)]
      exact fun _ => Nat.le_refl _
  | clearing => cases hs

/-- A step that returns. A read of something that returns nothing has found the pipe empty and
without a writer. -/
structure Returned (r : Reader) (out : List UInt8) (q q' : Pipe) : Prop where
  order : q'.InOrder
  bytes : out ++ q'.unread = r.bytes ++ (settled [r] q).unread
  empty : (settled [r] q).writePos ≤ (settled [r] q).readPos → q'.writePos ≤ q'.readPos
  nothing : 0 < r.len → out = [] → q.unread = [] ∧ q.writers ≤ 0

theorem Reader.returned {out : List UInt8} (h : r.Fits (settled [r] q)) (ho : q.InOrder)
    (hs : r.step q = (.inr out, q')) : Returned r out q q' := by
  obtain ⟨len, bytes, phase⟩ := r
  cases phase with
  | empty =>
    rw [settled_other (by simp)] at h
    obtain ⟨hb, hle⟩ : bytes = [] ∧ q.writePos ≤ q.readPos := h
    unfold Reader.step at hs
    dsimp only at hs
    split at hs
    · rename_i hw
      cases hs
      refine ⟨ho, ?_, ?_, fun _ _ => ⟨Pipe.unread_empty hle, hw⟩⟩
      · rw [settled_other (by simp), hb]
      · rw [settled_other (by simp)]
        exact id
    · cases hs
  | leaving =>
    rw [settled_other (by simp)] at h
    replace h : 0 < len → bytes ≠ [] := h
    unfold Reader.step at hs
    dsimp only at hs
    split at hs
    · cases hs
      refine ⟨ho, ?_, ?_, fun hlen hnil => absurd hnil (h hlen)⟩
      · rw [settled_other (by simp)]
      · rw [settled_other (by simp)]
        exact id
    · cases hs
  | clearing =>
    rw [settled_clearing (by simp)] at h
    obtain ⟨hb, hzero, hle⟩ : (0 < len → bytes ≠ []) ∧ q.readPos = 0 ∧ 0 ≤ q.readPos := h
    cases hs
    refine ⟨⟨hzero.le, Nat.zero_le _⟩, ?_, ?_, fun hlen hnil => absurd hnil (hb hlen)⟩
    · rw [settled_clearing (by simp)]
    · rw [settled_clearing (by simp)]
      exact id
  | halted => cases hs
  | copying => cases hs
  | taking pos => cases hs
  | resetting => cases hs

theorem settled_stream (hs : q'.stream = q.stream) :
    (settled rs q').stream = (settled rs q).stream := by
  obtain ⟨hr, hs'⟩ := Prod.mk.inj hs
  obtain ⟨-, hb⟩ := Prod.mk.inj hs'
  unfold settled
  split
  · unfold Pipe.stream
    rw [hr, hb]
  · exact hs

theorem Waits.of_stream (h : Waits rs q) (hs : q'.stream = q.stream) : Waits rs q' :=
  ⟨h.one, fun r hr => (h.fits r hr).of_stream (settled_stream hs)⟩

theorem settled_of_not_tested (h : ∀ r ∈ rs, r.tested = false) (q : Pipe) : settled rs q = q := by
  unfold settled
  rw [if_neg]
  intro hany
  obtain ⟨r, hr, he⟩ := List.any_eq_true.mp hany
  have ht := h r hr
  rw [Reader.tested, of_decide_eq_true he] at ht
  cases ht

/-- More bytes disturb no read but one that acts on an empty pipe. -/
theorem Waits.grow (h : Waits rs q) (ht : ∀ r ∈ rs, r.tested = false) (hr : q'.readPos = q.readPos)
    (hw : q.writePos ≤ q'.writePos) : Waits rs q' := by
  refine ⟨h.one, fun r hmem => ?_⟩
  have hfit := h.fits r hmem
  have htest := ht r hmem
  rw [settled_of_not_tested ht] at hfit ⊢
  unfold Reader.Fits at hfit ⊢
  unfold Reader.tested at htest
  rw [hr]
  split at hfit
  · exact hfit
  · rename_i he
    rw [he] at htest
    cases htest
  · exact fun hlen hnil => (hfit hlen hnil).trans_le hw
  · exact ⟨hfit.1, hfit.2.trans_le hw⟩
  · exact hfit
  · rename_i he
    rw [he] at htest
    cases htest
  · rename_i he
    rw [he] at htest
    cases htest

/-- Reads in their wait loops are not disturbed where an empty pipe stays empty. -/
theorem Waits.calm (h : Waits rs q) (hp : ∀ r ∈ rs, r.past = false)
    (hempty : q.writePos ≤ q.readPos → q'.writePos ≤ q'.readPos) : Waits rs q' := by
  refine ⟨h.one, fun r hr => ?_⟩
  have hfit := h.fits r hr
  rw [settled_of_not_past hp] at hfit ⊢
  exact hfit.keep (hp r hr) hempty

/-- A turn of a read while the others are in their wait loops. -/
theorem Waits.turned {r' : Reader} (h : Waits rs q) (hr : r ∈ rs)
    (ho : ∀ x ∈ rs.erase r, x.past = false) (ht : Turned r r' q q') :
    Waits (r' :: rs.erase r) q' := by
  refine .cons ho ht.fits fun x hx => ?_
  have hfit := h.fits x (List.mem_of_mem_erase hx)
  rw [settled_erase hr ho] at hfit
  exact hfit.keep (ho x hx) ht.empty

theorem Waits.returned {out : List UInt8} (h : Waits rs q) (hr : r ∈ rs)
    (ho : ∀ x ∈ rs.erase r, x.past = false) (ht : Returned r out q q') :
    Waits (rs.erase r) q' := by
  refine ⟨fun x hx hp => ?_, fun x hx => ?_⟩
  · rw [ho x hx] at hp
    cases hp
  · have hfit := h.fits x (List.mem_of_mem_erase hx)
    rw [settled_erase hr ho] at hfit
    rw [settled_of_not_past ho]
    exact hfit.keep (ho x hx) ht.empty

theorem Waits.lost (h : Waits rs q) (hp : r.past = false) :
    Waits (rs.erase r) q ∧ settled (rs.erase r) q = settled rs q ∧ held (rs.erase r) = held rs := by
  by_cases hr : r ∈ rs
  · have hsame : settled (rs.erase r) q = settled rs q := by
      unfold settled
      rw [(List.perm_cons_erase hr).any_eq, List.any_cons]
      have hno : decide (r.phase = .clearing) = false := by
        rw [decide_eq_false_iff_not]
        intro he
        rw [Reader.past, he] at hp
        cases hp
      rw [hno, Bool.false_or]
    refine ⟨⟨fun x hx hpast y hy => ?_, fun x hx => ?_⟩, hsame, ?_⟩
    · have hmem := List.mem_of_mem_erase hx
      refine h.one x hmem hpast y ?_
      rw [List.erase_comm] at hy
      exact List.mem_of_mem_erase hy
    · rw [hsame]
      exact h.fits x (List.mem_of_mem_erase hx)
    · obtain ⟨before, behind, -, hrs, he⟩ := List.exists_erase_eq hr
      rw [he, hrs, held, held, List.flatMap_append, List.flatMap_append, List.flatMap_cons,
        (h.fits r hr).bytes hp, List.nil_append]
  · rw [List.erase_of_not_mem hr]
    exact ⟨h, rfl, rfl⟩

theorem Waits.wait {len : Nat} (h : Waits rs q) :
    Waits (⟨len, [], .halted⟩ :: rs) q ∧
      settled (⟨len, [], .halted⟩ :: rs) q = settled rs q ∧ held (⟨len, [], .halted⟩ :: rs) = held rs := by
  have hsame : settled (⟨len, [], .halted⟩ :: rs) q = settled rs q := by
    unfold settled
    rw [List.any_cons]
    rfl
  refine ⟨⟨fun x hx hp y hy => ?_, fun x hx => ?_⟩, hsame, rfl⟩
  · rcases List.mem_cons.mp hx with rfl | hx
    · cases hp
    · rcases List.mem_cons.mp (List.mem_of_mem_erase hy) with rfl | hmem
      · rfl
      · by_cases he : (⟨len, [], .halted⟩ : Reader) = x
        · subst he
          cases hp
        · rw [List.erase_cons_tail (by simpa using he)] at hy
          rcases List.mem_cons.mp hy with rfl | hy
          · rfl
          · exact h.one x hx hp y hy
  · rw [hsame]
    rcases List.mem_cons.mp hx with rfl | hx
    · exact rfl
    · exact h.fits x hx

end waiting

end LosTacOS.Os
