import LosTacOS.Lib.Loop
import LosTacOS.Fat.Opening
import LosTacOS.Fat.Ramdisk
import Mathlib.Data.List.TakeWhile
import Mathlib.Data.Set.Finite.Lattice
import Mathlib.Data.Finite.Prod

/-! The walks along the clusters of a directory, of the search for a name and of the listing. They
follow the table wherever it leads, and only the volume says whether they come to an end. -/
namespace LosTacOS.Fat

open Turn

/-- What `fat32_list` takes of a part of a name: the bytes before the first blank. -/
def unpadded (s : List UInt8) : List UInt8 := s.takeWhile (· ≠ 32)

def dotted (base ext : List UInt8) : List UInt8 := if ext = [] then base else base ++ 46 :: ext

/-- The line that `fat32_list` makes of the name of an entry. It is printed up to its first zero. -/
def rendering (field : List UInt8) : List UInt8 :=
  (dotted (unpadded (field.take 8)) (unpadded (field.drop 8))).takeWhile (· ≠ 0)

namespace Volume

variable (v : Volume)

def searchTurn (target : List UInt8) (curr : Nat) : Turn Nat (Option Nat) :=
  if curr < 2 ∨ endOfChain ≤ curr then .done none
  else
    match v.clusterPtr curr with
    | none => .done none
    | some p =>
      match v.scanSlots target (v.slots p) with
      | .stop => .done none
      | .found e => .done (some e)
      | .next => .again (v.readFat curr)

/-- The loop of `find_path`, in which no search takes more than `n` rounds. -/
def pathFor (n : Nat) : Nat → Nat → List UInt8 → Option Nat → Option (Option Nat)
  | 0, _, _, entry => some entry
  | k + 1, curr, path, entry =>
    if path = [] then some entry
    else
      match loopFor (v.searchTurn (filenameToShort (component path))) n curr with
      | none => none
      | some none => some none
      | some (some e) =>
        if afterComponent path = [] then some (some e)
        else if isDirectory (v.attrAt e) then
          pathFor n k (v.firstAt e) (skipSlashes (afterComponent path)) (some e)
        else some none

def findPathFor (n : Nat) (path : List UInt8) : Option (Option Nat) :=
  if path = [] ∨ path = [47] then some none
  else v.pathFor n path.length v.bpb.rootCluster (skipSlashes path) none

/-- What `fat32_list` prints of an entry: its name, and whether a slash follows. -/
def lineAt (e : Nat) : List UInt8 × Bool := (rendering (v.nameAt e), isDirectory (v.attrAt e))

def listSlots : List Nat → List (List UInt8 × Bool) × Bool
  | [] => ([], false)
  | e :: es =>
    if v.image e = 0 then ([], true)
    else if v.image e = 0xE5 then listSlots es
    else if v.attrAt e = 0x0F then listSlots es
    else if v.attrAt e &&& 0x08 ≠ 0 then listSlots es
    else (v.lineAt e :: (listSlots es).1, (listSlots es).2)

/-- One round of the loop of `fat32_list`; the lines are those printed so far. -/
def listTurn (s : Nat × List (List UInt8 × Bool)) :
    Turn (Nat × List (List UInt8 × Bool)) (List (List UInt8 × Bool)) :=
  if s.1 < 2 ∨ endOfChain ≤ s.1 ∨ 256 ≤ s.2.length then .done s.2
  else
    match v.clusterPtr s.1 with
    | none => .done s.2
    | some p =>
      if (v.listSlots (v.slots p)).2 then .done (s.2 ++ (v.listSlots (v.slots p)).1)
      else .again (v.readFat s.1, s.2 ++ (v.listSlots (v.slots p)).1)

def fat32ListFor (n : Nat) : Option (List (List UInt8 × Bool)) :=
  loopFor v.listTurn n (v.bpb.rootCluster, [])

variable {v} {target : List UInt8} {c d e n : Nat} {path : List UInt8}

section bounded

/-- The search of a chain that is no longer than the count of clusters. -/
theorem findInChain_eq : v.findInChain target n d = (loopFor (v.searchTurn target) n d).join := by
  induction n generalizing d with
  | zero => rfl
  | succ n ih =>
    rw [findInChain, loopFor, searchTurn]
    split
    · rfl
    · cases v.clusterPtr d with
      | none => rfl
      | some p =>
        dsimp only
        cases v.scanSlots target (v.slots p) with
        | stop => rfl
        | found e => rfl
        | next => exact ih

theorem findFrom_eq {k : Nat} {entry : Option Nat} :
    v.findFrom v.findEntryInDir k d path entry = (v.pathFor v.totalClusters k d path entry).join := by
  induction k generalizing d path entry with
  | zero => rfl
  | succ k ih =>
    rw [findFrom, pathFor]
    split
    · rfl
    · rw [findEntryInDir, findInChain_eq]
      cases loopFor (v.searchTurn (filenameToShort (component path))) v.totalClusters d with
      | none => rfl
      | some r =>
        cases r with
        | none => rfl
        | some e =>
          rw [Option.join_some]
          dsimp only
          split
          · rfl
          · split
            · exact ih
            · rfl

theorem findPath_eq (path : List UInt8) :
    v.findPath path = (v.findPathFor v.totalClusters path).join := by
  rw [findPath, findPathFor]
  split
  · rfl
  · exact findFrom_eq

end bounded

section clusters

structure Matches (v : Volume) (target : List UInt8) (e : Nat) : Prop where
  used : v.image e ≠ 0xE5
  short : v.attrAt e ≠ 0x0F
  name : v.nameAt e = target

def Skipped (v : Volume) (target : List UInt8) (e : Nat) : Prop :=
  v.image e ≠ 0 ∧ ¬ v.Matches target e

theorem scanSlots_skip (h : v.Skipped target e) (es : List Nat) :
    v.scanSlots target (e :: es) = v.scanSlots target es := by
  rw [scanSlots, if_neg h.1]
  split
  · rfl
  · rename_i hused
    split
    · rfl
    · rename_i hshort
      exact if_neg fun hname => h.2 ⟨hused, hshort, hname⟩

theorem scanSlots_take (h0 : v.image e ≠ 0) (h : v.Matches target e) (es : List Nat) :
    v.scanSlots target (e :: es) = .found e := by
  rw [scanSlots, if_neg h0, if_neg h.used, if_neg h.short, if_pos h.name]

theorem scanSlots_next_iff {es : List Nat} :
    v.scanSlots target es = .next ↔ ∀ e ∈ es, v.Skipped target e := by
  induction es with
  | nil => simp [scanSlots]
  | cons e es ih =>
    rw [List.forall_mem_cons, ← ih]
    by_cases h0 : v.image e = 0
    · rw [scanSlots, if_pos h0]
      exact ⟨fun h => Scan.noConfusion h, fun h => absurd h0 h.1.1⟩
    · by_cases hm : v.Matches target e
      · rw [scanSlots_take h0 hm]
        exact ⟨fun h => Scan.noConfusion h, fun h => absurd hm h.1.2⟩
      · rw [scanSlots_skip ⟨h0, hm⟩]
        exact ⟨fun h => ⟨⟨h0, hm⟩, h⟩, fun h => h.2⟩

theorem scanSlots_found_iff {es : List Nat} :
    v.scanSlots target es = .found e ↔ ∃ pre post, es = pre ++ e :: post ∧
      (∀ x ∈ pre, v.Skipped target x) ∧ v.image e ≠ 0 ∧ v.Matches target e := by
  induction es with
  | nil => simp [scanSlots]
  | cons x es ih =>
    constructor
    · intro h
      by_cases h0 : v.image x = 0
      · rw [scanSlots, if_pos h0] at h
        cases h
      · by_cases hm : v.Matches target x
        · rw [scanSlots_take h0 hm] at h
          cases h
          exact ⟨[], es, rfl, by simp, h0, hm⟩
        · rw [scanSlots_skip ⟨h0, hm⟩] at h
          obtain ⟨pre, post, rfl, hpre, he⟩ := ih.mp h
          exact ⟨x :: pre, post, rfl, List.forall_mem_cons.mpr ⟨⟨h0, hm⟩, hpre⟩, he⟩
    · rintro ⟨pre, post, heq, hpre, h0, hm⟩
      cases pre with
      | nil =>
        cases heq
        exact scanSlots_take h0 hm es
      | cons y pre =>
        cases heq
        obtain ⟨hy, hpre⟩ := List.forall_mem_cons.mp hpre
        rw [scanSlots_skip hy]
        exact ih.mpr ⟨pre, post, rfl, hpre, h0, hm⟩

def isListed (v : Volume) (e : Nat) : Bool :=
  v.image e ≠ 0xE5 ∧ v.attrAt e ≠ 0x0F ∧ v.attrAt e &&& 0x08 = 0

theorem listSlots_eq (v : Volume) (es : List Nat) :
    v.listSlots es = (((es.takeWhile (v.image · ≠ 0)).filter v.isListed).map v.lineAt,
      es.any (v.image · = 0)) := by
  induction es with
  | nil => rfl
  | cons e es ih =>
    rw [listSlots, ih]
    by_cases h0 : v.image e = 0
    · simp [h0]
    · rw [if_neg h0, List.takeWhile_cons_of_pos (by simpa using h0), List.any_cons]
      by_cases hdel : v.image e = 0xE5
      · simp [hdel, isListed]
      · by_cases hlong : v.attrAt e = 0x0F
        · simp [h0, hdel, hlong, isListed]
        · by_cases hlabel : v.attrAt e &&& 0x08 = 0
          · simp [h0, hdel, hlong, hlabel, isListed]
          · simp [h0, hdel, hlong, hlabel, isListed]

end clusters

section ends

/-- The search goes on from a cluster to the next one: the cluster lies in the image, and all its
entries are skipped. -/
structure Passes (v : Volume) (target : List UInt8) (c d : Nat) : Prop where
  number : 2 ≤ c ∧ c < endOfChain
  inside : ∃ p, v.clusterPtr c = some p ∧ ∀ e ∈ v.slots p, v.Skipped target e
  next : v.readFat c = d

theorem search_hop_iff : Hop (v.searchTurn target) c d ↔ v.Passes target c d := by
  unfold Hop searchTurn
  by_cases hn : c < 2 ∨ endOfChain ≤ c
  · rw [if_pos hn]
    refine ⟨nofun, fun h => ?_⟩
    have := h.number
    omega
  · rw [if_neg hn]
    cases hp : v.clusterPtr c with
    | none =>
      refine ⟨nofun, fun h => ?_⟩
      obtain ⟨p, hp', -⟩ := h.inside
      cases hp.symm.trans hp'
    | some p =>
      dsimp only
      cases hs : v.scanSlots target (v.slots p) with
      | next =>
        constructor
        · intro h
          cases h
          exact ⟨by omega, ⟨p, hp, scanSlots_next_iff.mp hs⟩, rfl⟩
        · intro h
          rw [h.next]
      | stop =>
        refine ⟨nofun, fun h => ?_⟩
        obtain ⟨p', hp', hall⟩ := h.inside
        cases hp.symm.trans hp'
        cases hs.symm.trans (scanSlots_next_iff.mpr hall)
      | found e =>
        refine ⟨nofun, fun h => ?_⟩
        obtain ⟨p', hp', hall⟩ := h.inside
        cases hp.symm.trans hp'
        cases hs.symm.trans (scanSlots_next_iff.mpr hall)

theorem search_keyed (v : Volume) (target : List UInt8) :
    Keyed (v.searchTurn target) id (v.Passes target) where
  forth h := search_hop_iff.mp h
  back h := ⟨_, search_hop_iff.mpr h, rfl⟩
  inj _ h := h
  finite := by
    refine (Set.finite_lt_nat endOfChain).subset ?_
    rintro c ⟨d, h⟩
    exact h.number.2

/-- The listing goes on from a cluster, before which so many entries are printed, to the next one. -/
structure Lists (v : Volume) (s t : Nat × Nat) : Prop where
  number : 2 ≤ s.1 ∧ s.1 < endOfChain
  room : s.2 < 256
  inside : ∃ p, v.clusterPtr s.1 = some p ∧ (∀ e ∈ v.slots p, v.image e ≠ 0) ∧
    t.2 = s.2 + ((v.slots p).filter v.isListed).length
  next : v.readFat s.1 = t.1

theorem list_hop_iff {s t : Nat × List (List UInt8 × Bool)} : Hop v.listTurn s t ↔
    (2 ≤ s.1 ∧ s.1 < endOfChain ∧ s.2.length < 256) ∧ v.readFat s.1 = t.1 ∧
      ∃ p, v.clusterPtr s.1 = some p ∧ (∀ e ∈ v.slots p, v.image e ≠ 0) ∧
        t.2 = s.2 ++ ((v.slots p).filter v.isListed).map v.lineAt := by
  unfold Hop listTurn
  by_cases hn : s.1 < 2 ∨ endOfChain ≤ s.1 ∨ 256 ≤ s.2.length
  · rw [if_pos hn]
    refine ⟨nofun, fun h => ?_⟩
    omega
  · rw [if_neg hn]
    cases hp : v.clusterPtr s.1 with
    | none =>
      refine ⟨nofun, ?_⟩
      rintro ⟨-, -, p, hp', -⟩
      cases hp'
    | some p =>
      dsimp only
      rw [listSlots_eq]
      dsimp only
      by_cases hend : (v.slots p).any (v.image · = 0) = true
      · rw [if_pos hend]
        refine ⟨nofun, ?_⟩
        rintro ⟨-, -, p', hp', hall, -⟩
        cases hp'
        obtain ⟨e, he, h0⟩ := List.any_eq_true.mp hend
        exact absurd (of_decide_eq_true h0) (hall e he)
      · rw [if_neg hend]
        have hall : ∀ e ∈ v.slots p, v.image e ≠ 0 := fun e he h0 =>
          hend (List.any_eq_true.mpr ⟨e, he, decide_eq_true h0⟩)
        have htake : (v.slots p).takeWhile (v.image · ≠ 0) = v.slots p :=
          List.takeWhile_eq_self_iff.mpr fun e he => decide_eq_true (hall e he)
        rw [htake]
        constructor
        · intro h
          cases h
          exact ⟨by omega, rfl, p, rfl, hall, rfl⟩
        · rintro ⟨-, hnext, p', hp', -, hlines⟩
          cases hp'
          rw [hnext, ← hlines]

theorem list_hop_take {s t : Nat × List (List UInt8 × Bool)}
    (h : Relation.TransGen (Hop v.listTurn) s t) : s.2 <+: t.2 := by
  have hone : ∀ {s t}, Hop v.listTurn s t → s.2 <+: t.2 := by
    intro s t h
    obtain ⟨-, -, p, -, -, ht⟩ := list_hop_iff.mp h
    rw [ht]
    exact List.prefix_append _ _
  induction h with
  | single h => exact hone h
  | tail _ h ih => exact ih.trans (hone h)

theorem list_keyed (v : Volume) :
    Keyed v.listTurn (fun s => (s.1, s.2.length)) v.Lists where
  forth := by
    intro s t h
    obtain ⟨⟨h1, h2, h3⟩, hnext, p, hp, hall, ht⟩ := list_hop_iff.mp h
    refine ⟨⟨h1, h2⟩, h3, ⟨p, hp, hall, ?_⟩, hnext⟩
    simp only [ht, List.length_append, List.length_map]
  back := by
    rintro s ⟨c, m⟩ h
    obtain ⟨p, hp, hall, hm⟩ := h.inside
    refine ⟨(v.readFat s.1, s.2 ++ ((v.slots p).filter v.isListed).map v.lineAt),
      list_hop_iff.mpr ⟨⟨h.number.1, h.number.2, h.room⟩, rfl, p, hp, hall, rfl⟩, ?_⟩
    rw [← show v.readFat s.1 = c from h.next]
    simp only [List.length_append, List.length_map] at hm ⊢
    rw [hm]
  inj := by
    intro s t h heq
    obtain ⟨h1, h2⟩ := Prod.mk.inj heq
    exact Prod.ext h1 ((list_hop_take h).eq_of_length h2)
  finite := by
    refine ((Set.finite_lt_nat endOfChain).prod (Set.finite_lt_nat 256)).subset ?_
    rintro s ⟨t, h⟩
    exact ⟨h.number.2, h.room⟩

end ends

section paths

inductive ComesTo (v : Volume) (target : List UInt8) : Nat → Nat → Prop
  | here {c p e : Nat} {pre post : List Nat} : 2 ≤ c ∧ c < endOfChain → v.clusterPtr c = some p →
      v.slots p = pre ++ e :: post → (∀ x ∈ pre, v.Skipped target x) → v.image e ≠ 0 →
      v.Matches target e → ComesTo v target c e
  | next {c d e : Nat} : v.Passes target c d → ComesTo v target d e → ComesTo v target c e

theorem search_found_iff : v.searchTurn target c = .done (some e) ↔
    (2 ≤ c ∧ c < endOfChain) ∧ ∃ p, v.clusterPtr c = some p ∧
      v.scanSlots target (v.slots p) = .found e := by
  unfold searchTurn
  by_cases hn : c < 2 ∨ endOfChain ≤ c
  · rw [if_pos hn]
    refine ⟨nofun, fun h => ?_⟩
    omega
  · rw [if_neg hn]
    have hc : 2 ≤ c ∧ c < endOfChain := by omega
    cases hp : v.clusterPtr c with
    | none =>
      refine ⟨nofun, ?_⟩
      rintro ⟨-, p, hp', -⟩
      cases hp'
    | some p =>
      dsimp only
      cases hs : v.scanSlots target (v.slots p) with
      | found x =>
        constructor
        · intro h
          cases h
          exact ⟨hc, p, rfl, hs⟩
        · rintro ⟨-, p', hp', hs'⟩
          cases hp'
          cases hs.symm.trans hs'
          rfl
      | stop =>
        refine ⟨nofun, ?_⟩
        rintro ⟨-, p', hp', hs'⟩
        cases hp'
        cases hs.symm.trans hs'
      | next =>
        refine ⟨nofun, ?_⟩
        rintro ⟨-, p', hp', hs'⟩
        cases hp'
        cases hs.symm.trans hs'

/-- What `find_entry_in_dir` returns is what its search comes to. -/
theorem search_returns_iff : Returns (v.searchTurn target) d (some e) ↔ v.ComesTo target d e := by
  constructor
  · intro h
    apply h.rec_on (P := fun d => v.ComesTo target d e)
    · intro c hc
      obtain ⟨hnum, p, hp, hs⟩ := search_found_iff.mp hc
      obtain ⟨pre, post, heq, hpre, h0, hm⟩ := scanSlots_found_iff.mp hs
      exact .here hnum hp heq hpre h0 hm
    · intro c c' hc _ ih
      exact .next (search_hop_iff.mp hc) ih
  · intro h
    induction h with
    | here hnum hp heq hpre h0 hm =>
      have hs := scanSlots_found_iff.mpr ⟨_, _, heq, hpre, h0, hm⟩
      exact returns_done (search_found_iff.mpr ⟨hnum, _, hp, hs⟩)
    | next hpass _ ih => exact (returns_again (search_hop_iff.mpr hpass)).mpr ih

inductive Searches (v : Volume) : Nat → List UInt8 → Nat → List UInt8 → Prop
  | here {curr : Nat} {path : List UInt8} : path ≠ [] → Searches v curr path curr (component path)
  | deeper {curr e d : Nat} {path name : List UInt8} : path ≠ [] →
      v.ComesTo (filenameToShort (component path)) curr e → afterComponent path ≠ [] →
      isDirectory (v.attrAt e) = true →
      Searches v (v.firstAt e) (skipSlashes (afterComponent path)) d name →
      Searches v curr path d name

def PathSearches (v : Volume) (path : List UInt8) (d : Nat) (name : List UInt8) : Prop :=
  ¬ (path = [] ∨ path = [47]) ∧ v.Searches v.bpb.rootCluster (skipSlashes path) d name

def FindPathEnds (v : Volume) (path : List UInt8) : Prop := ∃ n, (v.findPathFor n path).isSome

def ListEnds (v : Volume) : Prop := ∃ n, (v.fat32ListFor n).isSome

theorem skipSlashes_length (path : List UInt8) : (skipSlashes path).length ≤ path.length :=
  (List.dropWhile_suffix _).length_le

/-- Behind a component and its slashes less is left of the path. -/
theorem skipSlashes_after_lt (h : afterComponent path ≠ []) :
    (skipSlashes (afterComponent path)).length < path.length := by
  have hle : (afterComponent path).length ≤ path.length := (List.dropWhile_suffix _).length_le
  cases ha : afterComponent path with
  | nil => exact absurd ha h
  | cons b rest =>
    have hb : b = 47 := by
      have hhead := List.head?_dropWhile_not (· ≠ (47 : UInt8)) path
      rw [show path.dropWhile (· ≠ (47 : UInt8)) = b :: rest from ha] at hhead
      simpa using hhead
    have hrest := skipSlashes_length rest
    have hskip : skipSlashes (b :: rest) = skipSlashes rest := by
      rw [hb]
      rfl
    rw [ha, List.length_cons] at hle
    rw [hskip]
    omega

theorem pathFor_le {m k : Nat} {entry r : Option Nat} (h : v.pathFor n k d path entry = some r)
    (hle : n ≤ m) : v.pathFor m k d path entry = some r := by
  induction k generalizing d path entry with
  | zero => exact h
  | succ k ih =>
    rw [pathFor] at h ⊢
    split at h
    · rename_i hnil
      rw [if_pos hnil]
      exact h
    · rename_i hne
      rw [if_neg hne]
      cases hs : loopFor (v.searchTurn (filenameToShort (component path))) n d with
      | none =>
        rw [hs] at h
        cases h
      | some found =>
        rw [loopFor_le hs hle]
        rw [hs] at h
        cases found with
        | none => exact h
        | some e =>
          dsimp only at h ⊢
          split at h
          · rename_i hlast
            rw [if_pos hlast]
            exact h
          · rename_i hlast
            rw [if_neg hlast]
            split at h
            · rename_i hdir
              rw [if_pos hdir]
              exact ih h
            · rename_i hdir
              rw [if_neg hdir]
              exact h

/-- The loop over the components of a path ends when each of its searches does. -/
theorem pathFor_ends {k : Nat} {entry : Option Nat} (hk : path.length ≤ k) :
    (∃ n, (v.pathFor n k d path entry).isSome) ↔
      ∀ c name, v.Searches d path c name → Ends (v.searchTurn (filenameToShort name)) c := by
  induction k generalizing d path entry with
  | zero =>
    have hnil : path = [] := List.length_eq_zero_iff.mp (by omega)
    refine ⟨fun _ c name hs => ?_, fun _ => ⟨0, rfl⟩⟩
    cases hs with
    | here hne => exact absurd hnil hne
    | deeper hne _ _ _ _ => exact absurd hnil hne
  | succ k ih =>
    by_cases hnil : path = []
    · refine ⟨fun _ c name hs => ?_, fun _ => ⟨0, ?_⟩⟩
      · cases hs with
        | here hne => exact absurd hnil hne
        | deeper hne _ _ _ _ => exact absurd hnil hne
      · rw [pathFor, if_pos hnil]
        rfl
    · constructor
      · rintro ⟨n, hn⟩ c name hs
        rw [pathFor, if_neg hnil] at hn
        cases hloop : loopFor (v.searchTurn (filenameToShort (component path))) n d with
        | none =>
          rw [hloop] at hn
          cases hn
        | some found =>
          rw [hloop] at hn
          cases hs with
          | here _ => exact ⟨found, n, hloop⟩
          | deeper _ hcomes hafter hdir hrest =>
            have he := (search_returns_iff.mpr hcomes).unique ⟨n, hloop⟩
            rw [← he] at hn
            dsimp only at hn
            rw [if_neg hafter, if_pos hdir] at hn
            have hlt := skipSlashes_after_lt hafter
            exact (ih (by omega)).mp ⟨n, hn⟩ c name hrest
      · intro hall
        obtain ⟨found, n, hloop⟩ := hall d _ (.here hnil)
        have hopen : ∀ m, n ≤ m →
            loopFor (v.searchTurn (filenameToShort (component path))) m d = some found :=
          fun m hm => loopFor_le hloop hm
        cases found with
        | none =>
          refine ⟨n, ?_⟩
          rw [pathFor, if_neg hnil, hloop]
          rfl
        | some e =>
          by_cases hafter : afterComponent path = []
          · refine ⟨n, ?_⟩
            rw [pathFor, if_neg hnil, hloop]
            dsimp only
            rw [if_pos hafter]
            rfl
          · by_cases hdir : isDirectory (v.attrAt e) = true
            · have hlt := skipSlashes_after_lt hafter
              have hcomes := search_returns_iff.mp ⟨n, hloop⟩
              obtain ⟨m, hm⟩ := (@ih _ _ (some e) (by omega)).mpr fun c name hs =>
                hall c name (.deeper hnil hcomes hafter hdir hs)
              obtain ⟨r, hr⟩ := Option.isSome_iff_exists.mp hm
              refine ⟨max n m, ?_⟩
              rw [pathFor, if_neg hnil, hopen _ (Nat.le_max_left n m)]
              dsimp only
              rw [if_neg hafter, if_pos hdir, pathFor_le hr (Nat.le_max_right n m)]
              rfl
            · refine ⟨n, ?_⟩
              rw [pathFor, if_neg hnil, hloop]
              dsimp only
              rw [if_neg hafter, if_neg hdir]
              rfl

theorem findPath_ends_iff (v : Volume) (path : List UInt8) :
    v.FindPathEnds path ↔ ∀ d name, v.PathSearches path d name →
      ¬ Circles (v.Passes (filenameToShort name)) d := by
  unfold FindPathEnds findPathFor PathSearches
  by_cases hroot : path = [] ∨ path = [47]
  · simp only [if_pos hroot]
    exact ⟨fun _ d name h => absurd hroot h.1, fun _ => ⟨0, rfl⟩⟩
  · simp only [if_neg hroot]
    rw [pathFor_ends (skipSlashes_length path)]
    constructor
    · intro h d name hs
      exact (search_keyed v _).ends_iff.mp (h d name hs.2)
    · intro h d name hs
      exact (search_keyed v _).ends_iff.mpr (h d name ⟨hroot, hs⟩)

theorem list_ends_iff (v : Volume) : v.ListEnds ↔ ¬ Circles v.Lists (v.bpb.rootCluster, 0) := by
  refine Iff.trans ?_ ((list_keyed v).ends_iff (s := (v.bpb.rootCluster, [])))
  constructor
  · rintro ⟨n, hn⟩
    exact ends_of_isSome hn
  · rintro ⟨r, n, hn⟩
    refine ⟨n, ?_⟩
    rw [fat32ListFor, hn]
    rfl

/-- `find_path` ends unless a directory on its way runs in a circle on which the search finds
nothing and no end; `fat32_list` ends unless the root directory runs in a circle without an end on
which nothing is printed. -/
theorem walks_end_iff (v : Volume) (path : List UInt8) :
    (v.FindPathEnds path ↔ ∀ d name, v.PathSearches path d name →
      ¬ Circles (v.Passes (filenameToShort name)) d) ∧
    (v.ListEnds ↔ ¬ Circles v.Lists (v.bpb.rootCluster, 0)) :=
  ⟨findPath_ends_iff v path, list_ends_iff v⟩

def circling : ByteMemory.Mem := fun a =>
  if a = 12 ∨ a = 44 ∨ a = 520 then 2
  else if a = 13 ∨ a = 14 ∨ a = 16 ∨ a = 36 then 1
  else if a = 32 then 10
  else if 1024 ≤ a ∧ a < 1536 then 0xE5
  else 0

/-- Neither a search in that directory nor its listing ends. -/
theorem circling_never_ends : ∃ v, mountRamdisk circling 5120 = some v ∧
    ¬ v.FindPathEnds [65] ∧ ¬ v.ListEnds := by
  let v : Volume := ⟨(bpbOf circling).withSectors, 5120, circling⟩
  have hpass : v.Passes (filenameToShort [65]) 2 2 := by
    refine ⟨by decide, ⟨1024, by decide +kernel, fun e he => ?_⟩, by decide +kernel⟩
    have hdel : ∀ e ∈ v.slots 1024, v.image e = 0xE5 := by decide +kernel
    refine ⟨?_, fun hm => hm.used (hdel e he)⟩
    rw [hdel e he]
    decide
  have hlists : v.Lists (2, 0) (2, 0) := by
    refine ⟨by decide, by decide, ⟨1024, by decide +kernel, by decide +kernel, by decide +kernel⟩,
      by decide +kernel⟩
  have hroot : v.bpb.rootCluster = 2 := by decide +kernel
  refine ⟨v, if_neg (by decide), fun hfind => ?_, fun hlist => ?_⟩
  · refine (findPath_ends_iff v [65]).mp hfind 2 [65] ⟨by decide, ?_⟩ ⟨2, .refl, .single hpass⟩
    rw [hroot]
    exact .here (by decide)
  · refine (list_ends_iff v).mp hlist ⟨(2, 0), ?_, .single hlists⟩
    rw [hroot]

end paths

end Volume

end LosTacOS.Fat
