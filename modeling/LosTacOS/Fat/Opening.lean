import LosTacOS.Fat.Files

/-! What `fat32_open` finds is an entry of a directory. -/
namespace LosTacOS.Fat

open ByteMemory

theorem upper_ne_dot {b : UInt8} (h : b ≠ 46) : upper b ≠ 46 := by
  unfold upper
  split
  · rename_i hlow
    obtain ⟨h1, h2⟩ := hlow
    intro he
    have h1' : 97 ≤ b.toNat := UInt8.le_iff_toNat_le.mp h1
    have hle : (32 : UInt8) ≤ b := UInt8.le_iff_toNat_le.mpr (by change 32 ≤ b.toNat; omega)
    have hsub := congrArg UInt8.toNat he
    rw [UInt8.toNat_sub_of_le _ _ hle] at hsub
    change b.toNat - 32 = 46 at hsub
    omega
  · exact h

theorem filenameToShort_head (name : List UInt8) : (filenameToShort name).head? ≠ some 46 := by
  unfold filenameToShort padded
  cases hname : name.takeWhile (· ≠ 46) with
  | nil => simp [List.replicate]
  | cons b bs =>
    have hb : b ≠ 46 := by
      have hall := List.all_eq_true.mp (List.all_takeWhile (p := (· ≠ 46)) (l := name)) b
      rw [hname] at hall
      simpa using hall List.mem_cons_self
    simp only [List.take_succ_cons, List.map_cons, List.cons_append, List.head?_cons]
    exact fun he => upper_ne_dot hb (Option.some.inj he)

namespace Volume

variable {v : Volume} {c d e i n p : Nat} {target : List UInt8}

structure FoundSlot (v : Volume) (target : List UInt8) (p n i : Nat) : Prop where
  le : n ≤ i
  before : ∀ j, n ≤ j → j < i → v.image (p + entrySize * j) ≠ 0
  used : v.image (p + entrySize * i) ≠ 0 ∧ v.image (p + entrySize * i) ≠ 0xE5
  short : v.attrAt (p + entrySize * i) ≠ 0x0F
  name : v.nameAt (p + entrySize * i) = target

theorem FoundSlot.cons (h : FoundSlot v target p (n + 1) i) (h0 : v.image (p + entrySize * n) ≠ 0) :
    FoundSlot v target p n i := by
  refine ⟨by have := h.le; omega, fun j hn hj => ?_, h.used, h.short, h.name⟩
  by_cases hnj : j = n
  · rw [hnj]
    exact h0
  · exact h.before j (by omega) hj

theorem scanSlots_found {len : Nat}
    (h : v.scanSlots target ((List.range' n len).map (p + entrySize * ·)) = .found e) :
    ∃ i, i < n + len ∧ e = p + entrySize * i ∧ FoundSlot v target p n i := by
  induction len generalizing n with
  | zero => cases h
  | succ len ih =>
    rw [List.range'_succ, List.map_cons, scanSlots] at h
    have hrest : v.image (p + entrySize * n) ≠ 0 →
        v.scanSlots target ((List.range' (n + 1) len).map (p + entrySize * ·)) = .found e →
        ∃ i, i < n + (len + 1) ∧ e = p + entrySize * i ∧ FoundSlot v target p n i := by
      intro h0 hs
      obtain ⟨i, hi, he, hf⟩ := ih hs
      exact ⟨i, by omega, he, hf.cons h0⟩
    split at h
    · cases h
    · rename_i h0
      split at h
      · exact hrest h0 h
      · rename_i hdel
        split at h
        · exact hrest h0 h
        · rename_i hattr
          split at h
          · rename_i hname
            cases h
            exact ⟨n, by omega, rfl, Nat.le_refl n, fun j h1 h2 => by omega, ⟨h0, hdel⟩, hattr, hname⟩
          · exact hrest h0 h

theorem scanSlots_next {len : Nat}
    (h : v.scanSlots target ((List.range' n len).map (p + entrySize * ·)) = .next) :
    ∀ j, n ≤ j → j < n + len → v.image (p + entrySize * j) ≠ 0 := by
  induction len generalizing n with
  | zero => exact fun j h1 h2 => by omega
  | succ len ih =>
    rw [List.range'_succ, List.map_cons, scanSlots] at h
    have hrest : v.image (p + entrySize * n) ≠ 0 →
        v.scanSlots target ((List.range' (n + 1) len).map (p + entrySize * ·)) = .next →
        ∀ j, n ≤ j → j < n + (len + 1) → v.image (p + entrySize * j) ≠ 0 := by
      intro h0 hs j hn hj
      by_cases hnj : j = n
      · rw [hnj]
        exact h0
      · exact ih hs j (by omega) (by omega)
    split at h
    · cases h
    · rename_i h0
      split at h
      · exact hrest h0 h
      · split at h
        · exact hrest h0 h
        · split at h
          · cases h
          · exact hrest h0 h

theorem slots_eq (v : Volume) (p : Nat) :
    v.slots p = (List.range' 0 v.view.slots).map (p + entrySize * ·) := by
  rw [slots, List.range_eq_range']
  rfl

theorem image_of_name {name : List UInt8} (h : v.nameAt e = filenameToShort name) :
    v.image e ≠ 46 := by
  have hhead : (v.nameAt e).head? = some (v.image e) := by
    simp [nameAt, loadBytes, List.range_succ_eq_map]
  intro he
  rw [h, he] at hhead
  exact filenameToShort_head name hhead

/-- The search in a directory only finds what is shown in it. -/
theorem findInChain_shown {name : List UInt8} {fuel curr : Nat} {l : List Nat} (hv : v.Formatted)
    (hchain : Chain v.view.next (some curr) l none) (hl : ∀ y ∈ l, v.view.InRange y)
    (hscan : v.view.Scans d curr)
    (h : v.findInChain (filenameToShort name) fuel curr = some e) :
    ∃ c i, e = v.bpb.slotAddr c i ∧ v.view.Shown d c i := by
  induction fuel generalizing curr l with
  | zero => cases h
  | succ fuel ih =>
    rw [findInChain] at h
    split at h
    · cases h
    · rw [hv.clusterPtr hscan.inRange] at h
      dsimp only at h
      rw [slots_eq] at h
      cases hs : v.scanSlots (filenameToShort name)
          ((List.range' 0 v.view.slots).map (v.bpb.clusterAddr curr + entrySize * ·)) with
      | stop =>
        rw [hs] at h
        cases h
      | found e' =>
        rw [hs] at h
        cases h
        obtain ⟨i, hi, he, hf⟩ := scanSlots_found hs
        refine ⟨curr, i, he, hscan, by omega, fun j hj => hf.before j (Nat.zero_le j) hj, ?_, hf.short⟩
        exact ⟨hf.used.1, hf.used.2, image_of_name hf.name⟩
      | next =>
        rw [hs] at h
        have hmarks := scanSlots_next hs
        by_cases hend : endOfChain ≤ v.readFat curr
        · -- the next round finds a mark in place of a cluster
          cases fuel with
          | zero => cases h
          | succ fuel =>
            dsimp only at h
            rw [findInChain, if_pos (Or.inr hend)] at h
            cases h
        · have hnext : v.view.next curr = some (v.readFat curr) := if_neg hend
          cases l with
          | nil => cases hchain
          | cons y l =>
            obtain ⟨hy, htail⟩ := hchain
            cases hy
            rw [hnext] at htail
            have hin : v.view.InRange (v.readFat curr) := by
              cases l with
              | nil => cases htail
              | cons z l =>
                cases htail.1
                exact hl _ (by simp)
            refine ih htail (fun z hz => hl z (List.mem_cons_of_mem _ hz)) ?_ h
            exact hscan.snoc (fun j hj => hmarks j (Nat.zero_le j) (by omega)) hnext hin

def EntryAt (v : Volume) (e : Nat) : Prop := ∃ c i, e = v.bpb.slotAddr c i ∧ v.view.Entry c i

theorem findEntryInDir_shown {name : List UInt8} (hv : v.Formatted) (hwf : v.view.WellFormed)
    (hd : v.view.Dir d) (h : v.findEntryInDir d name = some e) :
    ∃ c i, e = v.bpb.slotAddr c i ∧ v.view.Shown d c i := by
  unfold findEntryInDir at h
  generalize v.totalClusters = fuel at h
  obtain ⟨l, hl⟩ := hwf.dir hd
  cases fuel with
  | zero => cases h
  | succ fuel =>
    have hge : ¬ (d < 2 ∨ endOfChain ≤ d) := by
      intro hbad
      rw [findInChain, if_pos hbad] at h
      cases h
    have hchain := hl.chain
    rw [View.headOf, if_neg (by omega)] at hchain
    have hin : v.view.InRange d := by
      cases l with
      | nil => cases hchain
      | cons y l =>
        cases hchain.1
        exact hl.inRange _ List.mem_cons_self
    exact findInChain_shown hv hchain hl.inRange (.here hin) h

theorem findFrom_entry {path : List UInt8} {entry : Option Nat} (hv : v.Formatted)
    (hwf : v.view.WellFormed) (hd : v.view.Dir d) (hentry : ∀ a, entry = some a → v.EntryAt a)
    (h : v.findFrom v.findEntryInDir n d path entry = some e) : v.EntryAt e := by
  induction n generalizing d path entry with
  | zero => exact hentry e h
  | succ n ih =>
    rw [findFrom] at h
    split at h
    · exact hentry e h
    · cases hfind : v.findEntryInDir d (component path) with
      | none =>
        rw [hfind] at h
        cases h
      | some a =>
        rw [hfind] at h
        obtain ⟨c, i, rfl, hshown⟩ := findEntryInDir_shown hv hwf hd hfind
        have hat : v.EntryAt (v.bpb.slotAddr c i) := ⟨c, i, rfl, d, hd, hshown⟩
        dsimp only at h
        split at h
        · cases h
          exact hat
        · split at h
          · rename_i hdir
            refine ih (.sub hd hshown hdir) (fun b hb => ?_) h
            cases hb
            exact hat
          · cases h

theorem findPath_entry {path : List UInt8} (hv : v.Formatted) (hwf : v.view.WellFormed)
    (h : v.findPath path = some e) : v.EntryAt e := by
  unfold findPath at h
  split at h
  · cases h
  · exact findFrom_entry hv hwf .root (fun a ha => by cases ha) h

end Volume

end LosTacOS.Fat
