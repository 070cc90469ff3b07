import Mathlib.Data.Finset.Card
import Mathlib.Data.Set.Insert
import Mathlib.Tactic

/-! The USB keyboard: boot reports of the device and the scancodes that `keyboard_poll` makes of
them, one for each call. -/
namespace LosTacOS.Drivers.Keyboard

structure Report where
  mods : UInt8
  reserved : UInt8
  keys : List UInt8
  six : keys.length = 6
deriving DecidableEq

def Report.zero : Report := ⟨0, 0, List.replicate 6 0, rfl⟩

def hidTable : List (UInt8 × UInt8) :=
  [(0x04, 0x1E), (0x05, 0x1F), (0x06, 0x20), (0x07, 0x21), (0x08, 0x22), (0x09, 0x23),
    (0x0A, 0x24), (0x0B, 0x25), (0x0C, 0x26), (0x0D, 0x27), (0x0E, 0x28), (0x0F, 0x29),
    (0x10, 0x2A), (0x11, 0x2B), (0x12, 0x2C), (0x13, 0x2D), (0x14, 0x2E), (0x15, 0x2F),
    (0x16, 0x30), (0x17, 0x31), (0x18, 0x32), (0x19, 0x33), (0x1A, 0x34), (0x1B, 0x35),
    (0x1C, 0x36), (0x1D, 0x37), (0x1E, 0x01), (0x1F, 0x03), (0x20, 0x05), (0x21, 0x07),
    (0x22, 0x09), (0x23, 0x0B), (0x24, 0x0D), (0x25, 0x0F), (0x26, 0x11), (0x27, 0x13),
    (0x28, 0x1C), (0x29, 0x01), (0x2A, 0x0E), (0x2B, 0x0F), (0x2C, 0x2C), (0x2D, 0x2D),
    (0x2E, 0x01), (0x2F, 0x10), (0x30, 0x11), (0x31, 0x12), (0x32, 0x13), (0x33, 0x17),
    (0x34, 0x18), (0x35, 0x19), (0x36, 0x15), (0x37, 0x2E), (0x38, 0x1A), (0x39, 0x3A),
    (0x3A, 0x3E), (0x3B, 0x3C), (0x3C, 0x3D), (0x3D, 0x3F), (0x3E, 0x41), (0x3F, 0x42),
    (0x40, 0x43), (0x41, 0x44), (0x42, 0x45), (0x43, 0x46), (0x44, 0x57), (0x45, 0x58),
    (0x46, 0x37), (0x47, 0x48), (0x48, 0x49), (0x49, 0x4A), (0x4A, 0x4B), (0x4B, 0x51),
    (0x4C, 0x4D), (0x4D, 0x4E), (0x4E, 0x4C), (0x4F, 0x50), (0x50, 0x4F), (0x51, 0x52),
    (0x52, 0x53), (0x53, 0x47), (0x54, 0x4B), (0x55, 0x4C), (0x56, 0x4D), (0x57, 0x47),
    (0x58, 0x49), (0x59, 0x51), (0x5A, 0x4F), (0x5B, 0x50), (0x5C, 0x51), (0x5D, 0x52),
    (0x5E, 0x4F), (0x5F, 0x50), (0x60, 0x51), (0x61, 0x52), (0x62, 0x53), (0x63, 0x4A),
    (0x64, 0x56), (0x65, 0x5B), (0x87, 0x47), (0x89, 0x4F), (0x8A, 0x50), (0x8B, 0x51),
    (0x8C, 0x52), (0x8D, 0x53)]

def hidToPs2 (hidCode : UInt8) : UInt8 := (hidTable.lookup hidCode).getD 0

inductive Modifier where
  | ctrl
  | shift
  | alt
deriving DecidableEq

def Modifier.bit : Modifier → Nat
  | .ctrl => 0
  | .shift => 1
  | .alt => 2

def Modifier.code : Modifier → UInt8
  | .ctrl => 0x1D
  | .shift => 0x2A
  | .alt => 0x38

/-- The `switch` of the loop over the bits; the other five have no case. -/
def modifierOf : Nat → Option Modifier
  | 0 => some .ctrl
  | 1 => some .shift
  | 2 => some .alt
  | _ => none

def Report.down (r : Report) (bit : Nat) : Bool := r.mods.toNat.testBit bit

def modifierChange (prev report : Report) : Option UInt8 :=
  (List.range 8).findSome? fun bit =>
    if (report.mods ^^^ prev.mods).toNat.testBit bit then
      (modifierOf bit).map fun m => if report.down bit then m.code else m.code ||| 0x80
    else none

/-- `keyboard_poll` on a report: the scancode, if one is returned, and `prev` after. -/
def keyboardPoll (prev report : Report) : Option UInt8 × Report :=
  if report = prev then (none, report)
  else
    match modifierChange prev report with
    | some sc => (some sc, prev)
    | none =>
      match report.keys.find? fun k => k ≠ 0 ∧ k ∉ prev.keys with
      | some k => (some (hidToPs2 k), report)
      | none =>
        match prev.keys.find? fun k => k ≠ 0 ∧ k ∉ report.keys with
        | some k => (some (hidToPs2 k ||| 0x80), report)
        | none => (none, report)

/-- A report is delivered again and again until a call returns 0. -/
inductive Delivered (report : Report) : Report → List UInt8 → Report → Prop
  | done {prev next : Report} : keyboardPoll prev report = (none, next) →
      Delivered report prev [] next
  | more {prev mid next : Report} {sc : UInt8} {scs : List UInt8} :
      keyboardPoll prev report = (some sc, mid) → Delivered report mid scs next →
      Delivered report prev (sc :: scs) next

inductive Deliveries : Report → List Report → List (List UInt8) → Prop
  | nil {prev : Report} : Deliveries prev [] []
  | cons {prev next r : Report} {rs : List Report} {scs : List UInt8} {out : List (List UInt8)} :
      Delivered r prev scs next → Deliveries next rs out → Deliveries prev (r :: rs) (scs :: out)

section events

inductive Key where
  | usage (code : UInt8)
  | modifier (m : Modifier)
deriving DecidableEq

structure Event where
  key : Key
  pressed : Bool
deriving DecidableEq

def Key.code : Key → UInt8
  | .usage k => hidToPs2 k
  | .modifier m => m.code

def Event.code (e : Event) : UInt8 := if e.pressed then e.key.code else e.key.code ||| 0x80

def Report.Held (r : Report) : Key → Prop
  | .usage k => k ≠ 0 ∧ k ∈ r.keys
  | .modifier m => r.down m.bit = true

def Changed (q r : Report) (e : Event) : Prop :=
  if e.pressed then r.Held e.key ∧ ¬ q.Held e.key else q.Held e.key ∧ ¬ r.Held e.key

def ExactCodes (q r : Report) (scs : List UInt8) : Prop :=
  ∃ evs : List Event, evs.Nodup ∧ (∀ e, e ∈ evs ↔ Changed q r e) ∧ scs = evs.map Event.code

def Report.heldCodes (r : Report) : Set UInt8 := {c | ∃ k, r.Held k ∧ k.code = c}

def replay : List UInt8 → Set UInt8 → Set UInt8
  | [], s => s
  | sc :: scs, s => replay scs (if sc < 0x80 then insert sc s else s \ {sc &&& 0x7f})

/-- From report to report the codes are those of the changes, and the consumer tracks what is
held. -/
def FaithfulRun : Report → Set UInt8 → List Report → List (List UInt8) → Prop
  | _, _, [], [] => True
  | q, s, r :: rs, scs :: out =>
    ExactCodes q r scs ∧ replay scs s = r.heldCodes ∧ FaithfulRun r (replay scs s) rs out
  | _, _, _, _ => False

def Faithful (rs : List Report) : Prop :=
  ∃ out, Deliveries .zero rs out ∧ FaithfulRun .zero ∅ rs out

def Report.usages (r : Report) : Finset UInt8 := r.keys.toFinset.erase 0

/-- Two reports that `keyboard_poll` tells apart completely: no modifier with a scancode differs, at
most one key does, and a key that is let go shares its code with nothing still held. -/
structure OneChange (q r : Report) : Prop where
  mods : ∀ m : Modifier, r.down m.bit = q.down m.bit
  keys : (r.usages \ q.usages).card + (q.usages \ r.usages).card ≤ 1
  unshared : ∀ k ∈ q.usages \ r.usages, hidToPs2 k ∉ r.heldCodes

end events

section poll

variable {q r : Report}

theorem modifierOf_bit (m : Modifier) : modifierOf m.bit = some m := by
  cases m <;> rfl

theorem modifierOf_some {bit : Nat} {m : Modifier} (h : modifierOf bit = some m) : m.bit = bit := by
  match bit, h with
  | 0, rfl => rfl
  | 1, rfl => rfl
  | 2, rfl => rfl

theorem xor_testBit (q r : Report) (bit : Nat) :
    (r.mods ^^^ q.mods).toNat.testBit bit = (r.down bit ^^ q.down bit) := by
  rw [UInt8.toNat_xor, Nat.testBit_xor]
  rfl

theorem modifierChange_none_iff :
    modifierChange q r = none ↔ ∀ m : Modifier, r.down m.bit = q.down m.bit := by
  simp only [modifierChange, List.findSome?_eq_none_iff, List.mem_range, xor_testBit]
  constructor
  · intro h m
    by_contra hne
    have hbit : m.bit < 8 := by cases m <;> decide
    have hno := h m.bit hbit
    rw [if_pos (by simpa [bne_iff_ne] using hne), modifierOf_bit] at hno
    cases hno
  · intro h bit _
    cases hm : modifierOf bit with
    | none => split <;> rfl
    | some m =>
      have hb := modifierOf_some hm
      rw [if_neg]
      rw [← hb, h m]
      simp

theorem mem_usages {k : UInt8} : k ∈ r.usages ↔ r.Held (.usage k) := by
  simp [Report.usages, Report.Held]

theorem mem_usages_sdiff {k : UInt8} :
    k ∈ r.usages \ q.usages ↔ k ∈ r.keys ∧ k ≠ 0 ∧ k ∉ q.keys := by
  simp only [Finset.mem_sdiff, Report.usages, Finset.mem_erase, List.mem_toFinset]
  tauto

/-- What a delivery amounts to when no modifier differs: the first key that is new, or else the first
that is gone. -/
inductive FirstChange (q r : Report) : List UInt8 → Prop
  | press {k : UInt8} (hk : k ∈ r.usages \ q.usages) : FirstChange q r [hidToPs2 k]
  | release {k : UInt8} (hno : r.usages \ q.usages = ∅) (hk : k ∈ q.usages \ r.usages) :
      FirstChange q r [hidToPs2 k ||| 0x80]
  | none (hno : r.usages \ q.usages = ∅) (hno' : q.usages \ r.usages = ∅) : FirstChange q r []

theorem poll_self (r : Report) : keyboardPoll r r = (none, r) := by
  rw [keyboardPoll, if_pos rfl]

theorem find_none {q r : Report}
    (h : (r.keys.find? fun k => decide (k ≠ 0 ∧ k ∉ q.keys)) = none) : r.usages \ q.usages = ∅ := by
  rw [List.find?_eq_none] at h
  refine Finset.eq_empty_of_forall_notMem fun k hk => ?_
  obtain ⟨hmem, hne, hnot⟩ := mem_usages_sdiff.mp hk
  exact h k hmem (by simp [hne, hnot])

theorem find_some {q r : Report} {k : UInt8}
    (h : (r.keys.find? fun k => decide (k ≠ 0 ∧ k ∉ q.keys)) = some k) : k ∈ r.usages \ q.usages := by
  have hp := List.find?_some h
  rw [decide_eq_true_eq] at hp
  exact mem_usages_sdiff.mpr ⟨List.mem_of_find?_eq_some h, hp⟩

/-- A modifier's code is returned without end: `prev` is left as it is. -/
theorem not_delivered {sc : UInt8} {scs : List UInt8} {next : Report}
    (h : modifierChange q r = some sc) : ¬ Delivered r q scs next := by
  have hne : r ≠ q := by
    rintro rfl
    rw [modifierChange_none_iff.mpr fun _ => rfl] at h
    cases h
  have hpoll : keyboardPoll q r = (some sc, q) := by
    simp only [keyboardPoll, if_neg hne, h]
  intro hd
  induction hd with
  | done hp =>
    rw [hpoll] at hp
    cases hp
  | more hp _ ih =>
    rw [hpoll] at hp
    cases hp
    exact ih h hne hpoll

/-- Without such a change a report gets through, with one code at most. -/
theorem delivered_first (h : modifierChange q r = none) :
    ∃ scs, FirstChange q r scs ∧ Delivered r q scs r := by
  by_cases hne : r = q
  · subst hne
    exact ⟨[], .none (Finset.sdiff_self _) (Finset.sdiff_self _), .done (poll_self r)⟩
  · have hself : Delivered r r [] r := .done (poll_self r)
    cases hnew : r.keys.find? fun k => decide (k ≠ 0 ∧ k ∉ q.keys) with
    | some k =>
      refine ⟨_, .press (find_some hnew), .more ?_ hself⟩
      simp only [keyboardPoll, if_neg hne, h, hnew]
    | none =>
      cases hold : q.keys.find? fun k => decide (k ≠ 0 ∧ k ∉ r.keys) with
      | some k =>
        refine ⟨_, .release (find_none hnew) (find_some hold), .more ?_ hself⟩
        simp only [keyboardPoll, if_neg hne, h, hnew, hold]
      | none =>
        refine ⟨_, .none (find_none hnew) (find_none hold), .done ?_⟩
        simp only [keyboardPoll, if_neg hne, h, hnew, hold]

theorem Delivered.unique {scs scs' : List UInt8} {next next' : Report} (h : Delivered r q scs next)
    (h' : Delivered r q scs' next') : scs = scs' ∧ next = next' := by
  induction h generalizing scs' with
  | done hp =>
    cases h' with
    | done hp' =>
      rw [hp] at hp'
      cases hp'
      exact ⟨rfl, rfl⟩
    | more hp' _ =>
      rw [hp] at hp'
      cases hp'
  | more hp _ ih =>
    cases h' with
    | done hp' =>
      rw [hp] at hp'
      cases hp'
    | more hp' hrest =>
      rw [hp] at hp'
      cases hp'
      obtain ⟨rfl, rfl⟩ := ih hrest
      exact ⟨rfl, rfl⟩

end poll

section codes

theorem lookup_mem {k v : UInt8} {l : List (UInt8 × UInt8)} (h : l.lookup k = some v) :
    ∃ i, (i, v) ∈ l := by
  induction l with
  | nil => cases h
  | cons p l ih =>
    obtain ⟨i, w⟩ := p
    rw [List.lookup_cons] at h
    split at h
    · cases h
      exact ⟨i, List.mem_cons_self⟩
    · obtain ⟨j, hj⟩ := ih h
      exact ⟨j, List.mem_cons_of_mem _ hj⟩

theorem hidToPs2_lt (k : UInt8) : hidToPs2 k < 0x80 := by
  unfold hidToPs2
  cases h : hidTable.lookup k with
  | none => decide
  | some v =>
    obtain ⟨i, hi⟩ := lookup_mem h
    have hall : hidTable.all (fun p => decide (p.2 < 0x80)) = true := by decide
    exact of_decide_eq_true (List.all_eq_true.mp hall _ hi)

theorem release_toNat {c : UInt8} (hc : c < 0x80) : (c ||| 0x80).toNat = c.toNat + 128 := by
  have hlt : c.toNat < 2^7 := UInt8.lt_iff_toNat_lt.mp hc
  have hor : 2^7 * 1 + c.toNat = 128 ||| c.toNat := Nat.two_pow_add_eq_or_of_lt hlt 1
  rw [UInt8.toNat_or, Nat.or_comm]
  change 128 ||| c.toNat = _
  omega

theorem release_code {c : UInt8} (hc : c < 0x80) : ¬ (c ||| 0x80 < 0x80) ∧ (c ||| 0x80) &&& 0x7f = c := by
  have hlt : c.toNat < 128 := UInt8.lt_iff_toNat_lt.mp hc
  have hn := release_toNat hc
  constructor
  · intro h
    have h' : (c ||| 0x80).toNat < 128 := UInt8.lt_iff_toNat_lt.mp h
    omega
  · apply UInt8.toNat_inj.mp
    rw [UInt8.toNat_and, hn]
    change (c.toNat + 128) &&& (2^7 - 1) = c.toNat
    rw [Nat.and_two_pow_sub_one_eq_mod]
    omega

theorem replay_press (k : UInt8) (s : Set UInt8) : replay [hidToPs2 k] s = insert (hidToPs2 k) s := by
  rw [replay, if_pos (hidToPs2_lt k), replay]

theorem replay_release (k : UInt8) (s : Set UInt8) :
    replay [hidToPs2 k ||| 0x80] s = s \ {hidToPs2 k} := by
  obtain ⟨hge, hand⟩ := release_code (hidToPs2_lt k)
  rw [replay, if_neg hge, hand, replay]

end codes

section step

variable {q r : Report}

theorem changed_iff (h : ∀ m : Modifier, r.down m.bit = q.down m.bit) {e : Event} :
    Changed q r e ↔ (∃ k ∈ r.usages \ q.usages, e = ⟨.usage k, true⟩) ∨
      ∃ k ∈ q.usages \ r.usages, e = ⟨.usage k, false⟩ := by
  obtain ⟨key, pressed⟩ := e
  cases key with
  | modifier m =>
    cases pressed <;> simp [Changed, Report.Held, h m]
  | usage k =>
    cases pressed with
    | true => simp [Changed, ← mem_usages]
    | false => simp [Changed, ← mem_usages]

theorem held_iff (h : ∀ m : Modifier, r.down m.bit = q.down m.bit) {x : Key} :
    r.Held x ↔ (q.Held x ∧ ∀ k ∈ q.usages \ r.usages, x ≠ .usage k) ∨
      ∃ k ∈ r.usages \ q.usages, x = .usage k := by
  cases x with
  | modifier m => simp [Report.Held, h m]
  | usage k =>
    simp only [← mem_usages, Finset.mem_sdiff, Key.usage.injEq]
    constructor
    · intro hk
      by_cases hq : k ∈ q.usages
      · exact Or.inl ⟨hq, fun j hj he => hj.2 (Key.usage.inj he ▸ hk)⟩
      · exact Or.inr ⟨k, ⟨hk, hq⟩, rfl⟩
    · rintro (⟨hq, hno⟩ | ⟨j, hj, rfl⟩)
      · by_contra hk
        exact hno k ⟨hq, hk⟩ rfl
      · exact hj.1

/-- All changes are among the events, so there are at most as many. -/
theorem card_changes_le {evs : List Event} (h : ∀ e, Changed q r e → e ∈ evs)
    (hm : ∀ m : Modifier, r.down m.bit = q.down m.bit) :
    (r.usages \ q.usages).card + (q.usages \ r.usages).card ≤ evs.length := by
  have hinj : ∀ b, Function.Injective fun k : UInt8 => (⟨.usage k, b⟩ : Event) := by
    intro b x y hxy
    simpa using hxy
  have hdisj : Disjoint ((r.usages \ q.usages).image fun k => (⟨.usage k, true⟩ : Event))
      ((q.usages \ r.usages).image fun k => (⟨.usage k, false⟩ : Event)) := by
    rw [Finset.disjoint_left]
    intro e he hf
    obtain ⟨j, -, rfl⟩ := Finset.mem_image.mp he
    obtain ⟨k, -, hk⟩ := Finset.mem_image.mp hf
    simp at hk
  calc (r.usages \ q.usages).card + (q.usages \ r.usages).card
      = (((r.usages \ q.usages).image fun k => (⟨.usage k, true⟩ : Event)) ∪
          ((q.usages \ r.usages).image fun k => (⟨.usage k, false⟩ : Event))).card := by
        rw [Finset.card_union_of_disjoint hdisj, Finset.card_image_of_injective _ (hinj true),
          Finset.card_image_of_injective _ (hinj false)]
    _ ≤ evs.toFinset.card := by
        refine Finset.card_le_card fun e he => ?_
        rw [List.mem_toFinset]
        apply h
        rw [changed_iff hm]
        rcases Finset.mem_union.mp he with he | he
        · obtain ⟨k, hk, rfl⟩ := Finset.mem_image.mp he
          exact Or.inl ⟨k, hk, rfl⟩
        · obtain ⟨k, hk, rfl⟩ := Finset.mem_image.mp he
          exact Or.inr ⟨k, hk, rfl⟩
    _ ≤ evs.length := List.toFinset_card_le evs

theorem FirstChange.length_le {scs : List UInt8} (h : FirstChange q r scs) : scs.length ≤ 1 := by
  cases h <;> simp

def StepFaithful (q r : Report) (scs : List UInt8) : Prop :=
  ExactCodes q r scs ∧ replay scs q.heldCodes = r.heldCodes

theorem OneChange.of_step {scs : List UInt8} (hm : ∀ m : Modifier, r.down m.bit = q.down m.bit)
    (hf : FirstChange q r scs) (h : StepFaithful q r scs) : OneChange q r := by
  obtain ⟨⟨evs, -, hmem, hcodes⟩, hreplay⟩ := h
  have hlen : evs.length ≤ 1 := by
    have := hf.length_le
    rwa [hcodes, List.length_map] at this
  have hcard := (card_changes_le (fun e => (hmem e).mpr) hm).trans hlen
  refine ⟨hm, hcard, fun k hk hshared => ?_⟩
  have hpos : 0 < (q.usages \ r.usages).card := Finset.card_pos.mpr ⟨k, hk⟩
  cases hf with
  | press hj =>
    have : 0 < (r.usages \ q.usages).card := Finset.card_pos.mpr ⟨_, hj⟩
    omega
  | none _ hno =>
    rw [hno] at hk
    cases hk
  | release _ hj =>
    have hle : (q.usages \ r.usages).card ≤ 1 := by omega
    rw [Finset.card_le_one.mp hle _ hj _ hk, replay_release] at hreplay
    rw [← hreplay] at hshared
    exact hshared.2 rfl

theorem OneChange.step {scs : List UInt8} (h : OneChange q r) (hf : FirstChange q r scs) :
    StepFaithful q r scs := by
  have hheld := @held_iff q r h.mods
  have hkeys := h.keys
  cases hf with
  | press hk =>
    rename_i k
    have hpos : 0 < (r.usages \ q.usages).card := Finset.card_pos.mpr ⟨k, hk⟩
    have hone : ∀ j ∈ r.usages \ q.usages, j = k := by
      intro j hj
      exact Finset.card_le_one.mp (by omega) _ hj _ hk
    have hnone : q.usages \ r.usages = ∅ := Finset.card_eq_zero.mp (by omega)
    refine ⟨⟨[⟨.usage k, true⟩], List.nodup_singleton _, fun e => ?_, rfl⟩, ?_⟩
    · rw [changed_iff h.mods, hnone, List.mem_singleton]
      constructor
      · rintro rfl
        exact Or.inl ⟨k, hk, rfl⟩
      · rintro (⟨j, hj, rfl⟩ | ⟨j, hj, -⟩)
        · rw [hone j hj]
        · cases hj
    · rw [replay_press]
      ext c
      simp only [Report.heldCodes, Set.mem_insert_iff, Set.mem_ofPred_eq]
      constructor
      · rintro (rfl | ⟨x, hx, rfl⟩)
        · exact ⟨.usage k, hheld.mpr (Or.inr ⟨k, hk, rfl⟩), rfl⟩
        · refine ⟨x, hheld.mpr (Or.inl ⟨hx, fun j hj => ?_⟩), rfl⟩
          rw [hnone] at hj
          cases hj
      · rintro ⟨x, hx, rfl⟩
        rcases hheld.mp hx with ⟨hq, -⟩ | ⟨j, hj, rfl⟩
        · exact Or.inr ⟨x, hq, rfl⟩
        · rw [hone j hj]
          exact Or.inl rfl
  | release hno hk =>
    rename_i k
    have hpos : 0 < (q.usages \ r.usages).card := Finset.card_pos.mpr ⟨k, hk⟩
    have hone : ∀ j ∈ q.usages \ r.usages, j = k := by
      intro j hj
      exact Finset.card_le_one.mp (by omega) _ hj _ hk
    refine ⟨⟨[⟨.usage k, false⟩], List.nodup_singleton _, fun e => ?_, rfl⟩, ?_⟩
    · rw [changed_iff h.mods, hno, List.mem_singleton]
      constructor
      · rintro rfl
        exact Or.inr ⟨k, hk, rfl⟩
      · rintro (⟨j, hj, -⟩ | ⟨j, hj, rfl⟩)
        · cases hj
        · rw [hone j hj]
    · rw [replay_release]
      ext c
      simp only [Report.heldCodes, Set.mem_sdiff, Set.mem_singleton_iff, Set.mem_ofPred_eq]
      constructor
      · rintro ⟨⟨x, hx, rfl⟩, hne⟩
        refine ⟨x, hheld.mpr (Or.inl ⟨hx, fun j hj he => ?_⟩), rfl⟩
        rw [hone j hj] at he
        rw [he] at hne
        exact hne rfl
      · rintro ⟨x, hx, rfl⟩
        refine ⟨?_, fun he => ?_⟩
        · rcases hheld.mp hx with ⟨hq, -⟩ | ⟨j, hj, -⟩
          · exact ⟨x, hq, rfl⟩
          · rw [hno] at hj
            cases hj
        · exact h.unshared k hk ⟨x, hx, he⟩
  | none hno hno' =>
    refine ⟨⟨[], List.nodup_nil, fun e => ?_, rfl⟩, ?_⟩
    · rw [changed_iff h.mods, hno, hno']
      simp
    · have hsame : ∀ x, r.Held x ↔ q.Held x := by
        intro x
        rw [hheld, hno, hno']
        simp
      simp only [replay, Report.heldCodes, hsame]

/-- One report: it gets through faithfully exactly when it differs by one key at most. -/
theorem step_faithful_iff : (∃ scs next, Delivered r q scs next ∧ StepFaithful q r scs) ↔
    OneChange q r := by
  constructor
  · rintro ⟨scs, next, hd, hs⟩
    cases hm : modifierChange q r with
    | some sc => exact absurd hd (not_delivered hm)
    | none =>
      obtain ⟨scs', hf, hd'⟩ := delivered_first hm
      obtain ⟨rfl, -⟩ := hd.unique hd'
      exact OneChange.of_step (modifierChange_none_iff.mp hm) hf hs
  · intro h
    obtain ⟨scs, hf, hd⟩ := delivered_first (modifierChange_none_iff.mpr h.mods)
    exact ⟨scs, r, hd, h.step hf⟩

theorem Delivered.next_eq {scs : List UInt8} {next : Report} (h : Delivered r q scs next) :
    next = r := by
  cases hm : modifierChange q r with
  | some sc => exact absurd h (not_delivered hm)
  | none =>
    obtain ⟨scs', -, hd⟩ := delivered_first hm
    exact (h.unique hd).2

end step

section runs

theorem run_faithful_iff {rs : List Report} : ∀ {q : Report},
    (∃ out, Deliveries q rs out ∧ FaithfulRun q q.heldCodes rs out) ↔
      List.IsChain OneChange (q :: rs) := by
  induction rs with
  | nil => exact ⟨fun _ => List.isChain_singleton _, fun _ => ⟨[], .nil, trivial⟩⟩
  | cons r rs ih =>
    intro q
    rw [List.isChain_cons_cons, ← ih, ← step_faithful_iff]
    constructor
    · rintro ⟨out, hd, hf⟩
      cases hd with
      | cons hone hrest =>
        obtain ⟨hexact, hreplay, hrun⟩ := hf
        rw [hone.next_eq] at hrest
        rw [hreplay] at hrun
        exact ⟨⟨_, _, hone, hexact, hreplay⟩, ⟨_, hrest, hrun⟩⟩
    · rintro ⟨⟨scs, next, hone, hexact, hreplay⟩, ⟨out, hrest, hrun⟩⟩
      have hnext := hone.next_eq
      rw [hnext] at hone
      refine ⟨scs :: out, .cons hone hrest, hexact, hreplay, ?_⟩
      rw [hreplay]
      exact hrun

theorem zero_heldCodes : Report.zero.heldCodes = ∅ := by
  refine Set.eq_empty_of_forall_notMem fun c hc => ?_
  obtain ⟨x, hx, -⟩ := hc
  cases x with
  | usage k =>
    obtain ⟨h0, hk⟩ := hx
    exact h0 (List.eq_of_mem_replicate hk)
  | modifier m => cases m <;> cases hx

end runs

/-- A sequence of reports gets through faithfully exactly when each differs from the one before by
one key at most and in no modifier. -/
theorem faithful_iff (rs : List Report) :
    Faithful rs ↔ List.IsChain OneChange (.zero :: rs) := by
  rw [Faithful, ← zero_heldCodes]
  exact run_faithful_iff

/-- Control held down: its code comes without end. -/
theorem control_repeats : ¬ ∀ rs : List Report, Faithful rs := by
  intro H
  obtain ⟨out, hd, -⟩ := H [⟨1, 0, List.replicate 6 0, rfl⟩]
  cases hd with
  | cons hone _ =>
    have hctrl : modifierChange .zero ⟨1, 0, List.replicate 6 0, rfl⟩ = some 0x1D := by decide +kernel
    exact not_delivered hctrl hone

end LosTacOS.Drivers.Keyboard
