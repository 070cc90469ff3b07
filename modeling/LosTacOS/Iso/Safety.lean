import LosTacOS.Heap.Runs
import LosTacOS.Iso.Isofs
import Mathlib.Logic.Relation

/-! Which calls on a volume stay inside their buffers, whatever the disc and the heap hold. -/
namespace LosTacOS.Iso

open ByteMemory Heap Relation

/-- The length of a directory and the slack behind it fit in a `uint32_t`. -/
def Fits (size : UInt32) : Prop := size.toNat + 2048 < 2^32

instance : DecidablePred Fits := fun size => inferInstanceAs (Decidable (size.toNat + 2048 < 2^32))

theorem roomFor_fits {size : UInt32} (h : Fits size) : roomFor size = size.toNat + 2048 := by
  unfold Fits at h
  rw [roomFor, UInt32.toNat_add]
  exact Nat.mod_eq_of_lt h

theorem roomFor_wraps {size : UInt32} (h : ¬ Fits size) : roomFor size < 2048 := by
  unfold Fits at h
  have hlt := size.toNat_lt
  rw [roomFor, UInt32.toNat_add]
  have h2048 : (2048 : UInt32).toNat = 2048 := rfl
  rw [h2048]
  omega

section load

/-- With the slack a directory is read without a store outside. -/
theorem loadDir_isSome (disc : Disc) (b : Buffer) (m : Mem) (extent : UInt32)
    {size remaining : UInt32} (hb : b.size = size.toNat + 2048)
    (hle : remaining.toNat ≤ size.toNat) : (loadDir disc b size remaining extent m).isSome := by
  fun_induction loadDir disc b size remaining extent m with
  | case1 => rfl
  | case2 remaining extent m hpos sector hs hin ih =>
    apply ih
    split_ifs with hlt
    · simp
    · rw [UInt32.toNat_sub_of_le _ _ (by simpa using hlt)]
      omega
  | case3 remaining extent m hpos sector hs hout =>
    exfalso
    apply hout
    rw [UInt32.lt_iff_toNat_lt] at hpos
    have hsub : (size - remaining).toNat = size.toNat - remaining.toNat :=
      UInt32.toNat_sub_of_le _ _ (UInt32.le_iff_toNat_le.mpr hle)
    unfold Buffer.holds
    simp only [UInt32.toNat_zero] at hpos
    omega
  | case4 => rfl

/-- Without the slack the first sector that is read is stored outside. -/
theorem loadDir_short (disc : Disc) (b : Buffer) (m : Mem) (extent : UInt32) {size : UInt32} (hb : b.size < 2048) (hpos : 0 < size) :
    loadDir disc b size size extent m = if (disc extent).isSome then none else some m := by
  rw [loadDir, dif_pos hpos]
  cases disc extent with
  | none => rfl
  | some sector =>
    have hout : ¬ b.holds (b.addr + (size - size).toNat) 2048 := by
      unfold Buffer.holds
      omega
    dsimp only
    rw [if_neg hout]
    rfl

end load

section scan

variable {m : Mem} {b : Buffer} {stop : Nat}

theorem recName_length (m : Mem) (rec : Nat) : (recName m rec).length ≤ 255 := by
  have h := (m (rec + 32)).toNat_lt
  simp only [recName, recNameLen, List.length_map, List.length_range]
  omega

theorem stemReads_le (name : List UInt8) : stemReads name ≤ name.length := Nat.min_le_left _ _

theorem openReads_le (name : List UInt8) : openReads name ≤ name.length := by
  unfold openReads
  split_ifs with h
  · omega
  · exact stemReads_le name

/-- A directory with slack is scanned without a load outside. -/
theorem findRecord_isSome {component : List UInt8} {ptr : Nat} (hb : stop + 2048 ≤ b.addr + b.size)
    (hptr : b.addr ≤ ptr) : (findRecord m b component stop ptr).isSome := by
  have hin (n : Nat) (hlt : ptr < stop) (hn : n ≤ 288) : b.addr ≤ ptr ∧ ptr + n ≤ b.addr + b.size := by
    omega
  fun_induction findRecord m b component stop ptr with
  | case1 ptr hlt hone hzero ih => exact ih (by omega) fun n h hn => by omega
  | case2 => rfl
  | case3 => rfl
  | case4 ptr hlt hone hlen hend hname hne ih => exact ih (by omega) fun n h hn => by omega
  | case5 ptr hlt hone hlen hend hout =>
    exfalso
    apply hout
    have hname := (openReads_le (recName m ptr)).trans (recName_length m ptr)
    unfold Buffer.holds
    omega
  | case6 ptr hlt hout =>
    exfalso
    apply hout
    unfold Buffer.holds
    omega
  | case7 => rfl

theorem listRecords_isSome {ptr : Nat} (hb : stop + 2048 ≤ b.addr + b.size)
    (hptr : b.addr ≤ ptr) : (listRecords m b stop ptr).isSome := by
  fun_induction listRecords m b stop ptr with
  | case1 ptr hlt hone hzero ih => exact ih (by omega)
  | case2 => rfl
  | case3 ptr hlt hone hlen hend hname hspecial ih => exact ih (by omega)
  | case4 ptr hlt hone hlen hend hname hspecial hflags ih => simpa using ih (by omega)
  | case5 ptr hlt hone hlen hend hname hspecial hout =>
    exfalso
    apply hout
    unfold Buffer.holds
    omega
  | case6 ptr hlt hone hlen hend hout =>
    exfalso
    apply hout
    have hname := (stemReads_le (recName m ptr)).trans (recName_length m ptr)
    unfold Buffer.holds
    omega
  | case7 ptr hlt hout =>
    exfalso
    apply hout
    unfold Buffer.holds
    omega
  | case8 => rfl

/-- The header of a record that is found lies in the buffer. -/
theorem findRecord_header {component : List UInt8} {ptr rec : Nat}
    (h : findRecord m b component stop ptr = some (some rec)) (hptr : b.addr ≤ ptr) :
    b.addr ≤ rec ∧ rec + 33 ≤ b.addr + b.size := by
  fun_induction findRecord m b component stop ptr with
  | case1 ptr hlt hone hzero ih => exact ih h (by omega)
  | case2 => cases h
  | case3 ptr hlt hone hlen hend hname hfound =>
    cases h
    unfold Buffer.holds at hname
    omega
  | case4 ptr hlt hone hlen hend hname hne ih => exact ih h (by omega)
  | case5 => cases h
  | case6 => cases h
  | case7 => cases h

end scan

section rounds

variable {α β : Type} {x : IsoM α} {f : α → IsoM β} {disc : Disc} {data : Nat} {s : At}
  {h : HeapState} {dir : Buffer} {rest : List UInt8} {rec : Nat}

def Leaves (r : Except Fault α) : Prop := r = .error .division ∨ r = .error .outside

@[simp] theorem not_leaves_ok (a : α) : ¬Leaves (.ok a) := by
  rintro (h | h) <;> cases h

@[simp] theorem not_leaves_heap : ¬Leaves (.error .heap : Except Fault α) := by
  rintro (h | h) <;> cases h

theorem bind_stays (hx : ¬Leaves (x h)) (hf : ∀ a h', x h = .ok (a, h') → ¬Leaves (f a h')) :
    ¬Leaves ((x >>= f) h) := by
  rintro (herror | herror)
  · rcases bind_error.mp herror with hfirst | ⟨a, h', hok, hnext⟩
    · exact hx (.inl hfirst)
    · exact hf a h' hok (.inl hnext)
  · rcases bind_error.mp herror with hfirst | ⟨a, h', hok, hnext⟩
    · exact hx (.inr hfirst)
    · exact hf a h' hok (.inr hnext)

theorem ofHeap_stays (x : HeapM α) (h : HeapState) : ¬Leaves (ofHeap x h) := by
  rintro (herror | herror)
  · cases (ofHeap_error.mp herror).2
  · cases (ofHeap_error.mp herror).2

theorem poke_stays (a n v : Nat) (h : HeapState) : ¬Leaves (poke a n v h) := by
  rintro (herror | herror)
  · cases (setMem_error.mp herror).1
  · cases (setMem_error.mp herror).1

theorem get_stays {a n : Nat} (hin : dir.holds a n) (h : HeapState) : ¬Leaves (dir.get a n h) := by
  have hload : ∀ m, dir.load m a n ≠ none := by
    intro m
    unfold Buffer.load
    rw [if_pos hin]
    exact Option.some_ne_none _
  rintro (herror | herror)
  · exact hload _ (onMem_error.mp herror).1
  · exact hload _ (onMem_error.mp herror).1

theorem newHandle_stays {extent size isDir : IsoM Nat} (hextent : ∀ h, ¬Leaves (extent h))
    (hsize : ∀ h, ¬Leaves (size h)) (hdir : ∀ h, ¬Leaves (isDir h)) (h : HeapState) :
    ¬Leaves (newHandle data extent size isDir h) := by
  unfold newHandle
  apply bind_stays (ofHeap_stays _ _)
  intro p h₁ _
  by_cases hp : p = 0
  · rw [if_pos hp]
    exact not_leaves_ok _
  · rw [if_neg hp]
    apply bind_stays (poke_stays _ _ _ _)
    intro _ h₂ _
    apply bind_stays (hextent h₂)
    intro _ h₃ _
    apply bind_stays (poke_stays _ _ _ _)
    intro _ h₄ _
    apply bind_stays (hsize h₄)
    intro _ h₅ _
    apply bind_stays (poke_stays _ _ _ _)
    intro _ h₆ _
    apply bind_stays (poke_stays _ _ _ _)
    intro _ h₇ _
    apply bind_stays (hdir h₇)
    intro _ h₈ _
    apply bind_stays (poke_stays _ _ _ _)
    intro _ _ _
    exact not_leaves_ok _

/-- A record whose header lies in the buffer is read inside it, freed or not. -/
theorem openFound_stays (hrec : dir.addr ≤ rec ∧ rec + 33 ≤ dir.addr + dir.size) (h : HeapState) :
    ¬Leaves (openFound data dir rest rec h) := by
  have hin (a n : Nat) (hle : a + n ≤ 33) : dir.holds (rec + a) n := by
    unfold Buffer.holds
    omega
  unfold openFound
  apply bind_stays (get_stays (hin 2 4 (by decide)) h)
  intro _ h₁ _
  apply bind_stays (get_stays (hin 10 4 (by decide)) h₁)
  intro _ h₂ _
  by_cases hrest : rest = []
  · rw [if_pos hrest]
    apply bind_stays
    · unfold openRecord
      apply bind_stays (ofHeap_stays _ _)
      intro _ h₃ _
      apply newHandle_stays
      · exact fun h => get_stays (hin 2 4 (by decide)) h
      · exact fun h => get_stays (hin 10 4 (by decide)) h
      · intro h
        apply bind_stays (get_stays (hin 25 1 (by decide)) h)
        intro _ _ _
        exact not_leaves_ok _
    · intro _ _ _
      exact not_leaves_ok _
  · rw [if_neg hrest]
    apply bind_stays (ofHeap_stays _ _)
    intro _ _ _
    exact not_leaves_ok _

/-- The directory that a round looks into is so long that its room wraps around, the allocator gives
that room, and the first sector can be read, or the scan of what the memory held before leaves it. -/
def Outgrown (disc : Disc) (place : At × HeapState) : Prop :=
  (splitComponent place.1.path).1 ≠ [] ∧ ¬Fits place.1.size ∧
    ∃ p h', kmalloc (roomFor place.1.size) place.2 = some (p, h') ∧ p ≠ 0 ∧
      ((disc place.1.extent).isSome ∨ findRecord h'.mem ⟨p, roomFor place.1.size⟩
        (splitComponent place.1.path).1 (p + place.1.size.toNat) p = none)

theorem size_pos_of_not_fits {size : UInt32} (h : ¬Fits size) : 0 < size := by
  rw [UInt32.lt_iff_toNat_lt]
  unfold Fits at h
  have h0 : (0 : UInt32).toNat = 0 := rfl
  omega

/-- A round leaves its buffer where the directory has outgrown it. -/
theorem openRound_leaves_iff : Leaves (openRound disc data s h) ↔ Outgrown disc (s, h) := by
  by_cases hc : (splitComponent s.path).1 = []
  · rw [openRound_empty hc]
    simp [Outgrown, hc]
  rw [openRound_eq hc]
  unfold Outgrown
  dsimp only
  cases hk : kmalloc (roomFor s.size) h with
  | none => simp
  | some q =>
    obtain ⟨p, h₁⟩ := q
    by_cases hp : p = 0
    · simp [hp]
    dsimp only
    rw [if_neg hp]
    have hmissing (m : Mem) : ¬Leaves
        ((ofHeap (kfree p) >>= fun _ => pure (Sum.inl 0 : Nat ⊕ At)) { h₁ with mem := m }) := by
      apply bind_stays (ofHeap_stays _ _)
      intro _ _ _
      exact not_leaves_ok _
    have hfound (m : Mem) (rec : Nat) (hr : findRecord m ⟨p, roomFor s.size⟩
        (splitComponent s.path).1 (p + s.size.toNat) p = some (some rec)) :
        ¬Leaves (openFound data ⟨p, roomFor s.size⟩ (splitComponent s.path).2 rec
          { h₁ with mem := m }) :=
      openFound_stays (findRecord_header hr (Nat.le_refl p)) _
    by_cases hfits : Fits s.size
    · have hroom := roomFor_fits hfits
      obtain ⟨m, hm⟩ := Option.isSome_iff_exists.mp
        (loadDir_isSome disc ⟨p, roomFor s.size⟩ h₁.mem s.extent hroom (Nat.le_refl _))
      obtain ⟨hit, hr⟩ := Option.isSome_iff_exists.mp
        (@findRecord_isSome m ⟨p, roomFor s.size⟩ (p + s.size.toNat) (splitComponent s.path).1 p
          (by dsimp only; omega) (Nat.le_refl p))
      rw [hm]
      dsimp only
      rw [hr]
      simp only [hfits, not_true, false_and, and_false, iff_false]
      cases hit with
      | none => exact hmissing m
      | some rec => exact hfound m rec hr
    · have hload := loadDir_short disc ⟨p, roomFor s.size⟩ h₁.mem s.extent (roomFor_wraps hfits)
        (size_pos_of_not_fits hfits)
      rw [hload]
      cases hd : disc s.extent with
      | some sector =>
        simp only [Option.isSome_some, if_true]
        exact ⟨fun _ => ⟨hc, hfits, p, h₁, rfl, hp, .inl trivial⟩, fun _ => .inr rfl⟩
      | none =>
        simp only [Option.isSome_none, Bool.false_eq_true, if_false]
        cases hr : findRecord h₁.mem ⟨p, roomFor s.size⟩ (splitComponent s.path).1
            (p + s.size.toNat) p with
        | none => exact ⟨fun _ => ⟨hc, hfits, p, h₁, rfl, hp, .inr hr⟩, fun _ => .inr rfl⟩
        | some hit =>
          constructor
          · intro hleaves
            cases hit with
            | none => exact absurd hleaves (hmissing h₁.mem)
            | some rec => exact absurd hleaves (hfound h₁.mem rec hr)
          · rintro ⟨-, -, q, h', he, -, hor⟩
            cases he
            rw [hr] at hor
            simp at hor

def Goes (disc : Disc) (data : Nat) (a b : At × HeapState) : Prop :=
  a.1.path ≠ [] ∧ openRound disc data a.1 a.2 = .ok (.inr b.1, b.2)

theorem Outgrown.path_ne {place : At × HeapState} (ho : Outgrown disc place) : place.1.path ≠ [] := by
  intro hnil
  apply ho.1
  rw [hnil]
  rfl

/-- The loop leaves a buffer where one of its rounds does. -/
theorem openLoop_leaves_iff : Leaves (openLoop disc data s h) ↔
    ∃ place, ReflTransGen (Goes disc data) (s, h) place ∧ Outgrown disc place := by
  induction hn : s.path.length using Nat.strong_induction_on generalizing s h with
  | _ n ih =>
    subst hn
    rw [openLoop]
    by_cases hp : s.path = []
    · rw [dif_pos hp]
      constructor
      · exact fun hleaves => absurd hleaves (not_leaves_ok _)
      · rintro ⟨place, hreach, ho⟩
        cases ReflTransGen.cases_head hreach with
        | inl heq =>
          subst heq
          exact absurd hp ho.path_ne
        | inr hnext =>
          obtain ⟨q, hgo, -⟩ := hnext
          exact absurd hp hgo.1
    · rw [dif_neg hp]
      have hround := @openRound_leaves_iff disc data s h
      have hreach : (∃ place, ReflTransGen (Goes disc data) (s, h) place ∧ Outgrown disc place) ↔
          Leaves (openRound disc data s h) ∨ ∃ s' h', openRound disc data s h = .ok (.inr s', h') ∧
            ∃ place, ReflTransGen (Goes disc data) (s', h') place ∧ Outgrown disc place := by
        rw [hround]
        constructor
        · rintro ⟨place, hreach, ho⟩
          cases ReflTransGen.cases_head hreach with
          | inl heq =>
            subst heq
            exact .inl ho
          | inr hnext =>
            obtain ⟨q, hgo, hrest⟩ := hnext
            exact .inr ⟨q.1, q.2, hgo.2, place, hrest, ho⟩
        · rintro (ho | ⟨s', h', hrun, place, hrest, ho⟩)
          · exact ⟨_, .refl, ho⟩
          · exact ⟨place, .head ⟨hp, hrun⟩ hrest, ho⟩
      rw [hreach]
      split
      · rename_i e hrun
        rw [hrun]
        simp [Leaves]
      · rename_i p h' hrun
        rw [hrun]
        simp [Leaves]
      · rename_i s' h' hrun
        rw [hrun, ih _ (openRound_shrinks hp hrun) rfl]
        simp [Leaves]

end rounds

section calls

variable {disc : Disc} {vol : IsoVolume} {data : Nat} {path : List UInt8} {h : HeapState}

def openStart (vol : IsoVolume) (path : List UInt8) (h : HeapState) : At × HeapState :=
  (⟨vol.rootExtent, vol.rootSize, path.dropWhile (· = '/'.toUInt8)⟩, h)

def OpensInside (disc : Disc) (vol : IsoVolume) (data : Nat) (path : List UInt8) (h : HeapState) :
    Prop :=
  (disc vol.rootExtent).isSome →
    ∀ place, ReflTransGen (Goes disc data) (openStart vol path h) place → ¬ Outgrown disc place

def ListsInside (disc : Disc) (vol : IsoVolume) (h : HeapState) : Prop :=
  Fits vol.rootSize ∨ ∀ p h', kmalloc (roomFor vol.rootSize) h = some (p, h') → p ≠ 0 →
    disc vol.rootExtent = none ∧
      (listRecords h'.mem ⟨p, roomFor vol.rootSize⟩ (p + vol.rootSize.toNat) p).isSome

def wanted (handle : IsoHandle) (size : Nat) : Nat :=
  if handle.isDir then 0 else min size (handle.size.toNat - handle.offset)

/-- There is nothing to read, or the blocks of the volume are not empty and each fits in the buffer,
or the first one cannot be read, or all that is wanted lies in the buffer. -/
def ReadsInside (disc : Disc) (vol : IsoVolume) (handle : IsoHandle) (size : Nat) : Prop :=
  0 < wanted handle size → 0 < vol.blockSize.toNat ∧ (vol.blockSize.toNat ≤ 2048 ∨
    disc (UInt32.ofNat (handle.extent.toNat + handle.offset / vol.blockSize.toNat)) = none ∨
    handle.offset % vol.blockSize.toNat + wanted handle size ≤ 2048)

theorem isofsOpen_stays_iff :
    ¬ Leaves (isofsOpen disc vol data path h) ↔ OpensInside disc vol data path h := by
  unfold isofsOpen OpensInside openStart
  by_cases hp : path.dropWhile (· = '/'.toUInt8) = []
  · have hstays := @newHandle_stays data (return vol.rootExtent.toNat)
      (return vol.rootSize.toNat) (return 1) (fun _ => not_leaves_ok _)
      (fun _ => not_leaves_ok _) (fun _ => not_leaves_ok _) h
    simp only [hp, if_true]
    refine ⟨fun _ _ place hreach ho => ?_, fun _ => hstays⟩
    cases ReflTransGen.cases_head hreach with
    | inl heq =>
      subst heq
      exact ho.path_ne rfl
    | inr hnext =>
      obtain ⟨q, hgo, -⟩ := hnext
      exact hgo.1 rfl
  · simp only [hp, if_false]
    cases hd : disc vol.rootExtent with
    | none => simp
    | some sector =>
      dsimp only
      rw [openLoop_leaves_iff]
      simp

/-- What `isofs_list` does, by what the allocator, the drive and the directory give. -/
theorem isofsList_eq : isofsList disc vol h =
    match kmalloc (roomFor vol.rootSize) h with
    | none => .error .heap
    | some (p, h₁) =>
      if p = 0 then .ok ([], h₁)
      else
        match loadDir disc ⟨p, roomFor vol.rootSize⟩ vol.rootSize vol.rootSize vol.rootExtent h₁.mem with
        | none => .error .outside
        | some m =>
          match listRecords m ⟨p, roomFor vol.rootSize⟩ (p + vol.rootSize.toNat) p with
          | none => .error .outside
          | some lines => (ofHeap (kfree p) >>= fun _ => pure lines) { h₁ with mem := m } := by
  simp only [isofsList, allocDir, bind_assoc, pure_bind]
  cases hk : kmalloc (roomFor vol.rootSize) h with
  | none => exact bind_error.mpr (.inl (ofHeap_error.mpr ⟨hk, rfl⟩))
  | some q =>
    obtain ⟨p, h₁⟩ := q
    rw [bind_of (ofHeap_ok.mpr hk)]
    by_cases hp : p = 0
    · simp [hp]
    · dsimp only
      rw [if_neg hp, if_neg hp]
      cases hm : loadDir disc ⟨p, roomFor vol.rootSize⟩ vol.rootSize vol.rootSize vol.rootExtent
          h₁.mem with
      | none => exact bind_error.mpr (.inl (setMem_error.mpr ⟨hm, rfl⟩))
      | some m =>
        rw [bind_of (setMem_ok (u := ()).mpr ⟨m, hm, rfl⟩)]
        dsimp only
        cases hr : listRecords m ⟨p, roomFor vol.rootSize⟩ (p + vol.rootSize.toNat) p with
        | none =>
          apply bind_error.mpr
          exact .inl (onMem_error.mpr ⟨hr, rfl⟩)
        | some lines =>
          rw [bind_of (onMem_ok.mpr ⟨hr, rfl⟩)]

theorem isofsList_stays_iff : ¬ Leaves (isofsList disc vol h) ↔ ListsInside disc vol h := by
  rw [isofsList_eq]
  unfold ListsInside
  cases hk : kmalloc (roomFor vol.rootSize) h with
  | none => simp
  | some q =>
    obtain ⟨p, h₁⟩ := q
    by_cases hp : p = 0
    · simp [hp]
    dsimp only
    rw [if_neg hp]
    have hfree (m : Mem) (lines : List Line) : ¬ Leaves ((ofHeap (kfree p) >>= fun _ => pure lines :
        IsoM (List Line)) { h₁ with mem := m }) :=
      bind_stays (ofHeap_stays _ _) fun _ _ _ => not_leaves_ok _
    by_cases hfits : Fits vol.rootSize
    · have hroom := roomFor_fits hfits
      obtain ⟨m, hm⟩ := Option.isSome_iff_exists.mp
        (loadDir_isSome disc ⟨p, roomFor vol.rootSize⟩ h₁.mem vol.rootExtent hroom (Nat.le_refl _))
      obtain ⟨lines, hr⟩ := Option.isSome_iff_exists.mp
        (@listRecords_isSome m ⟨p, roomFor vol.rootSize⟩ (p + vol.rootSize.toNat) p
          (by dsimp only; omega) (Nat.le_refl p))
      rw [hm]
      dsimp only
      rw [hr]
      exact ⟨fun _ => .inl hfits, fun _ => hfree m lines⟩
    · have hload := loadDir_short disc ⟨p, roomFor vol.rootSize⟩ h₁.mem vol.rootExtent
        (roomFor_wraps hfits) (size_pos_of_not_fits hfits)
      rw [hload]
      cases hd : disc vol.rootExtent with
      | some sector =>
        simp only [Option.isSome_some, if_true]
        constructor
        · exact fun hstays => absurd (.inr rfl) hstays
        · rintro (hin | hin)
          · exact absurd hin hfits
          · cases (hin p h₁ rfl hp).1
      | none =>
        simp only [Option.isSome_none, Bool.false_eq_true, if_false]
        cases hr : listRecords h₁.mem ⟨p, roomFor vol.rootSize⟩ (p + vol.rootSize.toNat) p with
        | none =>
          constructor
          · exact fun hstays => absurd (.inr rfl) hstays
          · rintro (hin | hin)
            · exact absurd hin hfits
            · have hsome := (hin p h₁ rfl hp).2
              rw [hr] at hsome
              cases hsome
        | some lines =>
          refine ⟨fun _ => .inr fun q h' he _ => ?_, fun _ => hfree h₁.mem lines⟩
          cases he
          exact ⟨trivial, by rw [hr]; rfl⟩

theorem readLoop_stays {left : Nat} {handle : IsoHandle} {out : List UInt8}
    (hb : 0 < vol.blockSize.toNat) (hle : vol.blockSize.toNat ≤ 2048) :
    ¬ Leaves (readLoop disc vol left handle out) := by
  fun_induction readLoop disc vol left handle out with
  | case1 => exact not_leaves_ok _
  | case2 left handle out h0 hz => exact absurd hz (by omega)
  | case3 => exact not_leaves_ok _
  | case4 left handle out h0 hz block hd off chunk hin ih => exact ih
  | case5 left handle out h0 hz block hd off chunk hout =>
    have hoff := Nat.mod_lt handle.offset hb
    exfalso
    omega

theorem readLoop_stays_iff {left : Nat} {handle : IsoHandle} {out : List UInt8} :
    ¬ Leaves (readLoop disc vol left handle out) ↔
      (0 < left → 0 < vol.blockSize.toNat ∧ (vol.blockSize.toNat ≤ 2048 ∨
        disc (UInt32.ofNat (handle.extent.toNat + handle.offset / vol.blockSize.toNat)) = none ∨
        handle.offset % vol.blockSize.toNat + left ≤ 2048)) := by
  by_cases h0 : left = 0
  · subst h0
    rw [readLoop, if_pos rfl]
    simp
  have hleft : 0 < left := Nat.pos_of_ne_zero h0
  by_cases hz : vol.blockSize.toNat = 0
  · rw [readLoop, if_neg h0, dif_pos hz]
    refine ⟨fun hstays => absurd (.inl rfl) hstays, fun hin => ?_⟩
    have hpos := (hin hleft).1
    omega
  have hb : 0 < vol.blockSize.toNat := Nat.pos_of_ne_zero hz
  by_cases hle : vol.blockSize.toNat ≤ 2048
  · exact ⟨fun _ _ => ⟨hb, .inl hle⟩, fun _ => readLoop_stays hb hle⟩
  -- a block that does not fit is read whole, or what is wanted ends in it
  have hoff := Nat.mod_lt handle.offset hb
  rw [readLoop, if_neg h0, dif_neg hz]
  cases hd : disc (UInt32.ofNat (handle.extent.toNat + handle.offset / vol.blockSize.toNat)) with
  | none => exact ⟨fun _ _ => ⟨hb, .inr (.inl rfl)⟩, fun _ => not_leaves_ok _⟩
  | some block =>
    dsimp only
    by_cases hin : handle.offset % vol.blockSize.toNat + left ≤ 2048
    · have hchunk : min (vol.blockSize.toNat - handle.offset % vol.blockSize.toNat) left = left := by
        omega
      rw [hchunk, if_pos hin, Nat.sub_self, readLoop, if_pos rfl]
      exact ⟨fun _ _ => ⟨hb, .inr (.inr hin)⟩, fun _ => not_leaves_ok _⟩
    · rw [if_neg (by omega)]
      refine ⟨fun hstays => absurd (.inr rfl) hstays, fun h => ?_⟩
      rcases (h hleft).2 with h | h | h
      · exact absurd h hle
      · cases h
      · exact absurd h hin

theorem isofsRead_stays_iff {handle : IsoHandle} {size : Nat} :
    ¬ Leaves (isofsRead disc vol handle size) ↔ ReadsInside disc vol handle size := by
  have hmap : ∀ (f : List UInt8 × IsoHandle → Int × List UInt8 × IsoHandle)
      (x : Except Fault (List UInt8 × IsoHandle)), Leaves (x.map f) ↔ Leaves x := by
    intro f x
    cases x with
    | ok a => simp [Except.map]
    | error e => simp [Except.map, Leaves]
  unfold isofsRead ReadsInside wanted
  by_cases hdir : handle.isDir = true
  · simp [hdir]
  · by_cases hend : handle.size.toNat ≤ handle.offset
    · simp [hdir, hend]
    · simp only [hdir, hend, if_false, hmap, Bool.false_eq_true]
      exact readLoop_stays_iff

/-- Where each of the three calls neither divides by zero nor leaves a buffer. -/
theorem calls_stay_iff (disc : Disc) (vol : IsoVolume) (data : Nat) (path : List UInt8)
    (h : HeapState) (handle : IsoHandle) (size : Nat) :
    (¬ Leaves (isofsOpen disc vol data path h) ↔ OpensInside disc vol data path h) ∧
      (¬ Leaves (isofsList disc vol h) ↔ ListsInside disc vol h) ∧
      (¬ Leaves (isofsRead disc vol handle size) ↔ ReadsInside disc vol handle size) :=
  ⟨isofsOpen_stays_iff, isofsList_stays_iff, isofsRead_stays_iff⟩

end calls

section outgrown

def longRoot : Sector where
  bytes := 1 :: "CD001".toList.map Char.toUInt8 ++ List.replicate 160 0 ++ List.replicate 4 255 ++
    List.replicate 1878 0
  length_eq := by
    simp only [List.length_append, List.length_cons, List.length_map, List.length_replicate]
    rfl

theorem longRoot_mounts : mount (fun _ => some longRoot) = some ⟨0, 0, 0xFFFFFFFF⟩ := by
  have hpvd : longRoot.isPvd = true := by decide +kernel
  have hblock : longRoot.field 128 2 = 0 := by decide +kernel
  have hextent : longRoot.field 158 4 = 0 := by decide +kernel
  have hsize : longRoot.field 166 4 = 0xFFFFFFFF := by decide +kernel
  simp only [mount, hpvd, if_true, volumeOf, hblock, hextent, hsize]
  rfl

/-- The memory for the root directory is 2047 bytes long, and a sector is read into it. -/
theorem root_outgrows_buffer : ¬ ∀ (disc : Disc) (vol : IsoVolume), mount disc = some vol →
    (∀ data path h, ¬ Leaves (isofsOpen disc vol data path h)) ∧
      (∀ h, ¬ Leaves (isofsList disc vol h)) ∧
      ∀ handle size, ¬ Leaves (isofsRead disc vol handle size) := by
  intro hall
  obtain ⟨-, hlist, -⟩ := hall _ _ longRoot_mounts
  have hroom : roomFor 0xFFFFFFFF = 2047 := by decide
  have hserved : ((Heap.init ⟨fun _ => 0, 0, 0, false, []⟩).bind fun r => kmalloc 2047 r.2).map
      (fun r => decide (r.1 ≠ 0)) = some true := by
    decide +kernel
  obtain ⟨q, hq, hne⟩ := Option.map_eq_some_iff.mp hserved
  obtain ⟨r, -, hk⟩ := Option.bind_eq_some_iff.mp hq
  rw [← hroom] at hk
  cases isofsList_stays_iff.mp (hlist r.2) with
  | inl hfits => exact absurd hfits (by decide)
  | inr hnone => cases (hnone q.1 q.2 hk (of_decide_eq_true hne)).1

end outgrown

end LosTacOS.Iso
