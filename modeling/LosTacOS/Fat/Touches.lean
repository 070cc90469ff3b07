import LosTacOS.Fat.Sessions
import LosTacOS.Fat.Walks
import Mathlib.Data.Nat.ModEq

/-! Which bytes of the image the calls of a volume in memory look at or store. A sector is looked for
by its first byte only, and a whole cluster is used. -/
namespace LosTacOS.Fat

open ByteMemory Turn

structure Touch where
  start : Nat
  len : Nat

namespace Volume

section code

variable (v : Volume)

/-- The entry of a cluster in the copy `f` of the table, where its sector is found. -/
def fatEntry (f cluster : Nat) : Option Nat :=
  let fatOffset := cluster * 4 % word
  let fatSector := (v.fatStart + f * v.bpb.fatSize + fatOffset / v.bpb.bytesPerSector) % word
  (v.sectorPtr fatSector).map (· + fatOffset % v.bpb.bytesPerSector)

def fatTouches (f cluster : Nat) : List Touch :=
  match v.fatEntry f cluster with
  | none => []
  | some a => [⟨a, 4⟩]

def readFatTouches (cluster : Nat) : List Touch := v.fatTouches 0 cluster

def writeFatTouches (cluster : Nat) : List Touch :=
  (List.range v.bpb.numFats).flatMap fun f => v.fatTouches f cluster

def clusterTouches (cluster start len : Nat) : List Touch :=
  match v.clusterPtr cluster with
  | none => []
  | some p => [⟨p + start, len⟩]

/-- The loop of `alloc_cluster` up to the first cluster that is free. -/
def freeTouches : List Nat → List Touch
  | [] => []
  | c :: cs => v.readFatTouches c ++ if v.readFat c = 0 then [] else freeTouches cs

def allocTouches : List Touch :=
  v.freeTouches (List.range' 2 (v.totalClusters - 2)) ++
    match v.freeCluster with
    | none => []
    | some c => v.writeFatTouches c ++ v.clusterTouches c 0 v.bytesPerCluster

def scanTouches (target : List UInt8) : List Nat → List Touch
  | [] => []
  | e :: es =>
    ⟨e, 1⟩ ::
      if v.image e = 0 then []
      else if v.image e = 0xE5 then scanTouches target es
      else ⟨e + 11, 1⟩ ::
        if v.attrAt e = 0x0F then scanTouches target es
        else ⟨e, 11⟩ :: if v.nameAt e = target then [] else scanTouches target es

def searchTouches (target : List UInt8) : Nat → Nat → List Touch
  | 0, _ => []
  | n + 1, curr =>
    if curr < 2 ∨ endOfChain ≤ curr then []
    else
      match v.clusterPtr curr with
      | none => []
      | some p =>
        v.scanTouches target (v.slots p) ++
          match v.scanSlots target (v.slots p) with
          | .stop => []
          | .found _ => []
          | .next => v.readFatTouches curr ++ searchTouches target n (v.readFat curr)

def firstTouches (e : Nat) : List Touch := [⟨e + 20, 2⟩, ⟨e + 26, 2⟩]

/-- `find_path`, in which a search that takes more than `n` rounds is left after them. -/
def pathTouches (n : Nat) : Nat → Nat → List UInt8 → List Touch
  | 0, _, _ => []
  | k + 1, curr, path =>
    if path = [] then []
    else
      v.searchTouches (filenameToShort (component path)) n curr ++
        match loopFor (v.searchTurn (filenameToShort (component path))) n curr with
        | none => []
        | some none => []
        | some (some e) =>
          if afterComponent path = [] then []
          else
            ⟨e + 11, 1⟩ ::
              if isDirectory (v.attrAt e) then
                firstTouches e ++ pathTouches n k (v.firstAt e) (skipSlashes (afterComponent path))
              else []

def openTouches (n : Nat) (path : List UInt8) : List Touch :=
  if path = [] ∨ path = [47] then []
  else
    v.pathTouches n path.length v.bpb.rootCluster (skipSlashes path) ++
      match v.findPathFor n path with
      | none => []
      | some none => []
      | some (some e) => firstTouches e ++ [⟨e + 28, 4⟩, ⟨e + 11, 1⟩]

def listSlotTouches : List Nat → List Touch
  | [] => []
  | e :: es =>
    ⟨e, 1⟩ ::
      if v.image e = 0 then []
      else if v.image e = 0xE5 then listSlotTouches es
      else ⟨e + 11, 1⟩ ::
        if v.attrAt e = 0x0F then listSlotTouches es
        else if v.attrAt e &&& 0x08 ≠ 0 then listSlotTouches es
        else ⟨e, 11⟩ :: listSlotTouches es

def listTouches : Nat → Nat × List (List UInt8 × Bool) → List Touch
  | 0, _ => []
  | n + 1, s =>
    if s.1 < 2 ∨ endOfChain ≤ s.1 ∨ 256 ≤ s.2.length then []
    else
      match v.clusterPtr s.1 with
      | none => []
      | some p =>
        v.listSlotTouches (v.slots p) ++
          if (v.listSlots (v.slots p)).2 then []
          else v.readFatTouches s.1 ++
            listTouches n (v.readFat s.1, s.2 ++ (v.listSlots (v.slots p)).1)

def readTouches : Nat → Handle → Nat → List Touch
  | 0, _, _ => []
  | n + 1, h, left =>
    if left = 0 then []
    else
      match v.clusterPtr h.currCluster with
      | none => []
      | some p =>
        let k := v.chunk h left
        let t : Touch := ⟨p + h.offset % v.bytesPerCluster, k⟩
        let h := { h with offset := h.offset + k }
        t ::
          if h.offset % v.bytesPerCluster = 0 then
            v.readFatTouches h.currCluster ++
              if endOfChain ≤ v.readFat h.currCluster then []
              else readTouches n { h with currCluster := v.readFat h.currCluster } (left - k)
          else readTouches n h (left - k)

def fat32ReadTouches (h : Handle) (size : Nat) : List Touch :=
  if h.isDir then []
  else if h.fileSize ≤ h.offset then []
  else
    let toRead := min size (h.fileSize - h.offset)
    v.readTouches toRead h toRead

def growTouches (h : Handle) : List Touch :=
  if h.fileSize < h.offset then [⟨h.dirEntry + 28, 4⟩] else []

def nextTouches (h : Handle) : List Touch :=
  v.readFatTouches h.currCluster ++
    if endOfChain ≤ v.readFat h.currCluster then
      v.allocTouches ++ if v.freeCluster = none then [] else v.writeFatTouches h.currCluster
    else []

end code

def writeTouches : Nat → Volume → Handle → List UInt8 → List Touch
  | 0, _, _, _ => []
  | n + 1, v, h, buf =>
    if buf = [] then []
    else
      match v.clusterPtr h.currCluster with
      | none => []
      | some p =>
        let k := v.chunk h buf.length
        let r := v.writeChunk h p (buf.take k)
        ⟨p + h.offset % v.bytesPerCluster, k⟩ :: growTouches { h with offset := h.offset + k } ++
          if r.2.offset % v.bytesPerCluster = 0 ∧ buf.drop k ≠ [] then
            r.1.nextTouches r.2 ++
              match r.1.nextCluster r.2 with
              | none => []
              | some s => writeTouches n s.1 s.2 (buf.drop k)
          else writeTouches n r.1 r.2 (buf.drop k)

def fat32WriteTouches (v : Volume) (h : Handle) (buf : List UInt8) : List Touch :=
  if h.isDir then []
  else if h.firstCluster = 0 then
    v.allocTouches ++
      match v.allocCluster with
      | none => []
      | some (c, v) =>
        firstTouches h.dirEntry ++ writeTouches buf.length (v.setFirst h.dirEntry c)
          { h with firstCluster := c, currCluster := c } buf
  else writeTouches buf.length v h buf

structure Unbroken (v : Volume) : Prop where
  entry : ∀ {c f a}, c < word → f = 0 ∨ f < v.bpb.numFats → v.fatEntry f c = some a →
    a + 4 ≤ v.diskSize
  cluster : ∀ {c p}, c < word → v.clusterPtr c = some p → p + v.bytesPerCluster ≤ v.diskSize

def Covers (v : Volume) (ts : List Touch) : Prop := ∀ t ∈ ts, t.start + t.len ≤ v.diskSize

end Volume

namespace Volume

variable {v w x : Volume} {h : Handle} {ts us : List Touch} {c e f k n p : Nat} {target path : List UInt8}

section covers

theorem Covers.nil : v.Covers [] := fun _ ht => absurd ht List.not_mem_nil

theorem Covers.cons {t : Touch} (ht : t.start + t.len ≤ v.diskSize) (hts : v.Covers ts) :
    v.Covers (t :: ts) := by
  intro u hu
  cases hu with
  | head => exact ht
  | tail _ hu => exact hts u hu

theorem Covers.append (hts : v.Covers ts) (hus : v.Covers us) : v.Covers (ts ++ us) := by
  intro t ht
  cases List.mem_append.mp ht with
  | inl ht => exact hts t ht
  | inr ht => exact hus t ht

theorem Covers.like (hl : Like v w) (hw : w.Covers ts) : v.Covers ts := by
  intro t ht
  rw [← hl.diskSize]
  exact hw t ht

theorem Like.fatEntry (hl : Like v w) (f c : Nat) : w.fatEntry f c = v.fatEntry f c := by
  rw [Volume.fatEntry, Volume.fatEntry, hl.sectorPtr, Volume.fatStart, Volume.fatStart, hl.bpb]

theorem Unbroken.like (hv : v.Unbroken) (hl : Like v w) : w.Unbroken := by
  constructor
  · intro c f a hc hf ha
    rw [hl.fatEntry] at ha
    rw [hl.bpb] at hf
    rw [hl.diskSize]
    exact hv.entry hc hf ha
  · intro c p hc hp
    rw [hl.clusterPtr] at hp
    rw [hl.bytesPerCluster, hl.diskSize]
    exact hv.cluster hc hp

end covers

section numbers

theorem readFat_lt (v : Volume) (c : Nat) : v.readFat c < word := by
  unfold readFat
  dsimp only
  split
  · decide
  · exact (Nat.mod_lt _ (by decide)).trans (by decide)

theorem firstAt_lt (v : Volume) (e : Nat) : v.firstAt e < word := by
  have h1 := loadLE_lt v.image (e + 20) 2
  have h2 := loadLE_lt v.image (e + 26) 2
  simp only [firstAt, word]
  omega

theorem totalClusters_lt (v : Volume) : v.totalClusters < word :=
  (Nat.div_le_self _ _).trans_lt (Nat.mod_lt _ (by decide))

theorem freeCluster_lt (hc : v.freeCluster = some c) : c < word := by
  have hmem := List.mem_range'_1.mp (List.mem_of_find?_eq_some hc)
  have hlt := v.totalClusters_lt
  omega

end numbers

section same

theorem writeFatCopy_like (v : Volume) (c value f : Nat) : Like v (v.writeFatCopy c value f) := by
  unfold writeFatCopy
  dsimp only
  split
  · exact Like.rfl
  · exact like_image _ _

theorem writeFat_like (v : Volume) (c value : Nat) : Like v (v.writeFat c value) := by
  unfold writeFat
  generalize List.range v.bpb.numFats = fs
  induction fs generalizing v with
  | nil => exact Like.rfl
  | cons f fs ih => exact (v.writeFatCopy_like c value f).trans (ih _)

theorem zeroCluster_like (v : Volume) (c : Nat) : Like v (v.zeroCluster c) := by
  unfold zeroCluster
  split
  · exact Like.rfl
  · exact like_image _ _

theorem allocCluster_like (ha : v.allocCluster = some (c, w)) : Like v w ∧ c < word := by
  obtain ⟨d, hd, he⟩ := Option.map_eq_some_iff.mp ha
  cases he
  exact ⟨(v.writeFat_like c endMark).trans (zeroCluster_like _ c), freeCluster_lt hd⟩

theorem writeChunk_like (v : Volume) (h : Handle) (p : Nat) (bs : List UInt8) :
    Like v (v.writeChunk h p bs).1 := by
  unfold writeChunk grow
  split
  · exact like_image _ _
  · exact like_image _ _

structure Placed (v : Volume) (h : Handle) : Prop where
  curr : h.currCluster < word
  entry : h.dirEntry + entrySize ≤ v.diskSize

theorem writeChunk_placed (hp : v.Placed h) (a : Nat) (bs : List UInt8) :
    v.Placed (v.writeChunk h a bs).2 := by
  unfold writeChunk grow
  split
  · exact ⟨hp.curr, hp.entry⟩
  · exact ⟨hp.curr, hp.entry⟩

theorem nextCluster_placed {s : Volume × Handle} (hp : v.Placed h) (hs : v.nextCluster h = some s) :
    Like v s.1 ∧ v.Placed s.2 := by
  unfold nextCluster at hs
  split at hs
  · obtain ⟨r, hr, he⟩ := Option.map_eq_some_iff.mp hs
    cases he
    obtain ⟨hlike, hlt⟩ := allocCluster_like hr
    exact ⟨hlike.trans (writeFat_like _ _ _), hlt, hp.entry⟩
  · cases hs
    exact ⟨Like.rfl, v.readFat_lt _, hp.entry⟩

end same

section tables

theorem fatTouches_covers (hv : v.Unbroken) (hc : c < word) (hf : f = 0 ∨ f < v.bpb.numFats) :
    v.Covers (v.fatTouches f c) := by
  unfold fatTouches
  split
  · exact Covers.nil
  · rename_i a ha
    exact Covers.cons (hv.entry hc hf ha) Covers.nil

theorem readFatTouches_covers (hv : v.Unbroken) (hc : c < word) : v.Covers (v.readFatTouches c) :=
  fatTouches_covers hv hc (.inl rfl)

theorem writeFatTouches_covers (hv : v.Unbroken) (hc : c < word) : v.Covers (v.writeFatTouches c) := by
  intro t ht
  obtain ⟨f, hf, ht⟩ := List.mem_flatMap.mp ht
  exact fatTouches_covers hv hc (.inr (List.mem_range.mp hf)) t ht

theorem freeTouches_covers (hv : v.Unbroken) {cs : List Nat} (hcs : ∀ c ∈ cs, c < word) :
    v.Covers (v.freeTouches cs) := by
  induction cs with
  | nil => exact Covers.nil
  | cons c cs ih =>
    apply Covers.append (readFatTouches_covers hv (hcs c List.mem_cons_self))
    split
    · exact Covers.nil
    · exact ih fun d hd => hcs d (List.mem_cons_of_mem c hd)

theorem allocTouches_covers (hv : v.Unbroken) : v.Covers v.allocTouches := by
  have hlt := v.totalClusters_lt
  apply Covers.append
  · apply freeTouches_covers hv
    intro c hc
    have hmem := List.mem_range'_1.mp hc
    omega
  · split
    · exact Covers.nil
    · rename_i c hc
      have hcw := freeCluster_lt hc
      apply Covers.append (writeFatTouches_covers hv hcw)
      unfold clusterTouches
      split
      · exact Covers.nil
      · rename_i p hp
        exact Covers.cons (by simpa using hv.cluster hcw hp) Covers.nil

theorem nextTouches_covers (hv : v.Unbroken) (hc : h.currCluster < word) :
    v.Covers (v.nextTouches h) := by
  apply Covers.append (readFatTouches_covers hv hc)
  split
  · apply Covers.append (allocTouches_covers hv)
    split
    · exact Covers.nil
    · exact writeFatTouches_covers hv hc
  · exact Covers.nil

end tables

section directories

theorem slots_le (he : e ∈ v.slots p) : e + entrySize ≤ p + v.bytesPerCluster := by
  obtain ⟨i, hi, rfl⟩ := List.mem_map.mp he
  have hi := List.mem_range.mp hi
  have hle := Nat.mul_div_le v.bytesPerCluster entrySize
  have hmul := Nat.mul_le_mul_left entrySize (Nat.succ_le_of_lt hi)
  simp only [Nat.mul_succ] at hmul
  omega

def Entries (v : Volume) (es : List Nat) : Prop := ∀ e ∈ es, e + entrySize ≤ v.diskSize

theorem Unbroken.slots (hv : v.Unbroken) (hc : c < word) (hp : v.clusterPtr c = some p) :
    v.Entries (v.slots p) :=
  fun _ he => (slots_le he).trans (hv.cluster hc hp)

theorem Entries.tail {es : List Nat} (h : v.Entries (e :: es)) : v.Entries es :=
  fun d hd => h d (List.mem_cons_of_mem e hd)

theorem scanTouches_covers {es : List Nat} (hes : v.Entries es) : v.Covers (v.scanTouches target es) := by
  induction es with
  | nil => exact Covers.nil
  | cons e es ih =>
    have he := hes e List.mem_cons_self
    have hrest := ih hes.tail
    simp only [entrySize] at he
    apply Covers.cons (by dsimp only; omega)
    split_ifs
    · exact Covers.nil
    · exact hrest
    · exact Covers.cons (by dsimp only; omega) hrest
    · exact Covers.cons (by dsimp only; omega) (Covers.cons (by dsimp only; omega) Covers.nil)
    · exact Covers.cons (by dsimp only; omega) (Covers.cons (by dsimp only; omega) hrest)

theorem scanSlots_mem {es : List Nat} (hs : v.scanSlots target es = .found e) : e ∈ es := by
  induction es with
  | nil => cases hs
  | cons d es ih =>
    unfold scanSlots at hs
    split_ifs at hs
    · exact List.mem_cons_of_mem d (ih hs)
    · exact List.mem_cons_of_mem d (ih hs)
    · cases hs
      exact List.mem_cons_self
    · exact List.mem_cons_of_mem d (ih hs)

theorem searchTouches_covers (hv : v.Unbroken) (hc : c < word) :
    v.Covers (v.searchTouches target n c) := by
  induction n generalizing c with
  | zero => exact Covers.nil
  | succ n ih =>
    unfold searchTouches
    split
    · exact Covers.nil
    · split
      · exact Covers.nil
      · rename_i p hp
        apply Covers.append (scanTouches_covers (hv.slots hc hp))
        split
        · exact Covers.nil
        · exact Covers.nil
        · exact (readFatTouches_covers hv hc).append (ih (v.readFat_lt c))

theorem search_entry (hv : v.Unbroken) (hc : c < word)
    (hs : loopFor (v.searchTurn target) n c = some (some e)) : e + entrySize ≤ v.diskSize := by
  induction n generalizing c with
  | zero => cases hs
  | succ n ih =>
    rw [loopFor, searchTurn] at hs
    split_ifs at hs
    · cases hs
    · cases hp : v.clusterPtr c with
      | none =>
        rw [hp] at hs
        cases hs
      | some p =>
        rw [hp] at hs
        dsimp only at hs
        cases hscan : v.scanSlots target (v.slots p) with
        | stop =>
          rw [hscan] at hs
          cases hs
        | found d =>
          rw [hscan] at hs
          cases hs
          exact hv.slots hc hp e (scanSlots_mem hscan)
        | next =>
          rw [hscan] at hs
          exact ih (v.readFat_lt c) hs

theorem pathTouches_covers (hv : v.Unbroken) (hc : c < word) :
    v.Covers (v.pathTouches n k c path) := by
  induction k generalizing c path with
  | zero => exact Covers.nil
  | succ k ih =>
    unfold pathTouches
    split
    · exact Covers.nil
    · apply Covers.append (searchTouches_covers hv hc)
      split
      · exact Covers.nil
      · exact Covers.nil
      · rename_i e hs
        have he := search_entry hv hc hs
        simp only [entrySize] at he
        split_ifs
        · exact Covers.nil
        · apply Covers.cons (by dsimp only; omega)
          apply Covers.cons (by dsimp only; omega)
          exact Covers.cons (by dsimp only; omega) (ih (v.firstAt_lt e))
        · exact Covers.cons (by dsimp only; omega) Covers.nil

theorem pathFor_entry {entry : Option Nat} (hv : v.Unbroken) (hc : c < word)
    (hentry : ∀ d, entry = some d → d + entrySize ≤ v.diskSize)
    (hs : v.pathFor n k c path entry = some (some e)) : e + entrySize ≤ v.diskSize := by
  induction k generalizing c path entry with
  | zero => exact hentry e (Option.some.inj hs)
  | succ k ih =>
    unfold pathFor at hs
    split at hs
    · exact hentry e (Option.some.inj hs)
    · split at hs
      · cases hs
      · cases hs
      · rename_i d hd
        have hin := search_entry hv hc hd
        split_ifs at hs
        · cases hs
          exact hin
        · refine ih (v.firstAt_lt d) ?_ hs
          intro b hb
          cases hb
          exact hin
        · cases hs

end directories

end Volume

namespace Volume

variable {v w x : Volume} {h : Handle} {ts us : List Touch} {c e f k n p : Nat} {target path : List UInt8}

section calls

theorem findPathFor_entry (hv : v.Unbroken) (hroot : v.bpb.rootCluster < word)
    (hs : v.findPathFor n path = some (some e)) : e + entrySize ≤ v.diskSize := by
  unfold findPathFor at hs
  split at hs
  · cases hs
  · exact pathFor_entry hv hroot (fun _ hd => by cases hd) hs

theorem openTouches_covers (hv : v.Unbroken) (hroot : v.bpb.rootCluster < word) :
    v.Covers (v.openTouches n path) := by
  unfold openTouches
  split
  · exact Covers.nil
  · apply Covers.append (pathTouches_covers hv hroot)
    split
    · exact Covers.nil
    · exact Covers.nil
    · rename_i e he
      have hin := findPathFor_entry hv hroot he
      simp only [entrySize] at hin
      intro t ht
      simp only [firstTouches, List.cons_append, List.nil_append, List.mem_cons, List.not_mem_nil,
        or_false] at ht
      rcases ht with rfl | rfl | rfl | rfl <;> dsimp only <;> omega

theorem listSlotTouches_covers {es : List Nat} (hes : v.Entries es) :
    v.Covers (v.listSlotTouches es) := by
  induction es with
  | nil => exact Covers.nil
  | cons e es ih =>
    have he := hes e List.mem_cons_self
    have hrest := ih hes.tail
    simp only [entrySize] at he
    apply Covers.cons (by dsimp only; omega)
    split_ifs
    · exact Covers.nil
    · exact hrest
    · exact Covers.cons (by dsimp only; omega) hrest
    · exact Covers.cons (by dsimp only; omega) hrest
    · exact Covers.cons (by dsimp only; omega) (Covers.cons (by dsimp only; omega) hrest)

theorem listTouches_covers (hv : v.Unbroken) {s : Nat × List (List UInt8 × Bool)} (hs : s.1 < word) :
    v.Covers (v.listTouches n s) := by
  induction n generalizing s with
  | zero => exact Covers.nil
  | succ n ih =>
    unfold listTouches
    split
    · exact Covers.nil
    · split
      · exact Covers.nil
      · rename_i p hp
        apply Covers.append (listSlotTouches_covers (hv.slots hs hp))
        split
        · exact Covers.nil
        · exact (readFatTouches_covers hv hs).append (ih (v.readFat_lt s.1))

theorem chunk_inside (hpos : 0 < v.bytesPerCluster) (h : Handle) (left : Nat) :
    h.offset % v.bytesPerCluster + v.chunk h left ≤ v.bytesPerCluster := by
  have hoff := Nat.mod_lt h.offset hpos
  unfold chunk
  omega

theorem readTouches_covers (hv : v.Unbroken) (hpos : 0 < v.bytesPerCluster) {left : Nat}
    (hc : h.currCluster < word) : v.Covers (v.readTouches n h left) := by
  induction n generalizing h left with
  | zero => exact Covers.nil
  | succ n ih =>
    unfold readTouches
    split
    · exact Covers.nil
    · split
      · exact Covers.nil
      · rename_i p hp
        have hin := hv.cluster hc hp
        have hchunk := chunk_inside hpos h left
        apply Covers.cons (by dsimp only; omega)
        split
        · apply Covers.append (readFatTouches_covers hv hc)
          split
          · exact Covers.nil
          · exact ih (v.readFat_lt h.currCluster)
        · exact ih hc

theorem readLoop_placed {left : Nat} {read : List UInt8} (hp : v.Placed h) :
    v.Placed (v.readLoop n h left read).2 := by
  induction n generalizing h left read with
  | zero => exact hp
  | succ n ih =>
    unfold readLoop
    split
    · exact hp
    · split
      · exact hp
      · dsimp only
        split
        · split
          · exact ⟨hp.curr, hp.entry⟩
          · exact ih ⟨v.readFat_lt _, hp.entry⟩
        · exact ih ⟨hp.curr, hp.entry⟩

theorem fat32Read_placed {size : Nat} (hp : v.Placed h) : v.Placed (v.fat32Read h size).2 := by
  unfold fat32Read
  split
  · exact hp
  · split
    · exact hp
    · exact readLoop_placed hp

theorem fat32ReadTouches_covers {size : Nat} (hv : v.Unbroken) (hpos : 0 < v.bytesPerCluster)
    (hp : v.Placed h) : v.Covers (v.fat32ReadTouches h size) := by
  unfold fat32ReadTouches
  split
  · exact Covers.nil
  · split
    · exact Covers.nil
    · exact readTouches_covers hv hpos hp.curr

theorem Placed.like (hl : Like v w) (hp : v.Placed h) : w.Placed h :=
  ⟨hp.curr, by rw [hl.diskSize]; exact hp.entry⟩

theorem Like.unplaced (hl : Like v w) (hp : w.Placed h) : v.Placed h :=
  ⟨hp.curr, by rw [← hl.diskSize]; exact hp.entry⟩

theorem growTouches_covers (hp : v.Placed h) : v.Covers (growTouches h) := by
  have hin := hp.entry
  simp only [entrySize] at hin
  unfold growTouches
  split
  · exact Covers.cons (by dsimp only; omega) Covers.nil
  · exact Covers.nil

theorem writeLoop_placed {buf : List UInt8} {written : Nat} (hp : v.Placed h) :
    Like v (writeLoop n v h buf written).2.1 ∧
      v.Placed (writeLoop n v h buf written).2.2 := by
  induction n generalizing v h buf written with
  | zero => exact ⟨Like.rfl, hp⟩
  | succ n ih =>
    unfold writeLoop
    split
    · exact ⟨Like.rfl, hp⟩
    · split
      · exact ⟨Like.rfl, hp⟩
      · rename_i a ha
        dsimp only
        generalize hr : v.writeChunk h a (buf.take (v.chunk h buf.length)) = r
        have hlike : Like v r.1 := hr ▸ v.writeChunk_like h a _
        have hplaced : v.Placed r.2 := hr ▸ writeChunk_placed hp a _
        split
        · split
          · exact ⟨hlike, hplaced⟩
          · rename_i s hs
            obtain ⟨hlike', hplaced'⟩ := nextCluster_placed (hplaced.like hlike) hs
            obtain ⟨hl, hq⟩ := ih (hplaced'.like hlike')
            exact ⟨(hlike.trans hlike').trans hl, (hlike.trans hlike').unplaced hq⟩
        · obtain ⟨hl, hq⟩ := ih (hplaced.like hlike)
          exact ⟨hlike.trans hl, hlike.unplaced hq⟩

theorem writeTouches_covers {buf : List UInt8} (hv : v.Unbroken) (hpos : 0 < v.bytesPerCluster)
    (hp : v.Placed h) : v.Covers (writeTouches n v h buf) := by
  induction n generalizing v h buf with
  | zero => exact Covers.nil
  | succ n ih =>
    unfold writeTouches
    split
    · exact Covers.nil
    · split
      · exact Covers.nil
      · rename_i a ha
        have hin := hv.cluster hp.curr ha
        have hchunk := chunk_inside hpos h buf.length
        dsimp only
        generalize hr : v.writeChunk h a (buf.take (v.chunk h buf.length)) = r
        have hlike : Like v r.1 := hr ▸ v.writeChunk_like h a _
        have hplaced : v.Placed r.2 := hr ▸ writeChunk_placed hp a _
        have hv' := hv.like hlike
        have hpos' : 0 < r.1.bytesPerCluster := by rw [hlike.bytesPerCluster]; exact hpos
        apply Covers.append
        · refine Covers.cons (by dsimp only; omega) (growTouches_covers ⟨hp.curr, hp.entry⟩)
        · split
          · apply Covers.like hlike
            apply Covers.append (nextTouches_covers hv' hplaced.curr)
            split
            · exact Covers.nil
            · rename_i s hs
              obtain ⟨hlike', hplaced'⟩ := nextCluster_placed (hplaced.like hlike) hs
              apply Covers.like hlike'
              exact ih (hv'.like hlike') (by rw [hlike'.bytesPerCluster]; exact hpos')
                (hplaced'.like hlike')
          · exact Covers.like hlike (ih hv' hpos' (hplaced.like hlike))

theorem fat32Write_placed {buf : List UInt8} (hp : v.Placed h) :
    Like v (v.fat32Write h buf).2.1 ∧ v.Placed (v.fat32Write h buf).2.2 := by
  unfold fat32Write
  split
  · exact ⟨Like.rfl, hp⟩
  · split
    · split
      · exact ⟨Like.rfl, hp⟩
      · rename_i c w ha
        obtain ⟨hlike, hlt⟩ := allocCluster_like ha
        have hset : Like w (w.setFirst h.dirEntry c) := like_image _ _
        have hall := hlike.trans hset
        have hstart : (w.setFirst h.dirEntry c).Placed { h with firstCluster := c, currCluster := c } :=
          ⟨hlt, by rw [hall.diskSize]; exact hp.entry⟩
        obtain ⟨hl, hq⟩ := @writeLoop_placed _ _ buf.length buf 0 hstart
        exact ⟨hall.trans hl, hall.unplaced hq⟩
    · exact writeLoop_placed hp

theorem fat32WriteTouches_covers {buf : List UInt8} (hv : v.Unbroken) (hpos : 0 < v.bytesPerCluster)
    (hp : v.Placed h) : v.Covers (fat32WriteTouches v h buf) := by
  have hin := hp.entry
  simp only [entrySize] at hin
  unfold fat32WriteTouches
  split
  · exact Covers.nil
  · split
    · apply Covers.append (allocTouches_covers hv)
      split
      · exact Covers.nil
      · rename_i c w ha
        obtain ⟨hlike, hlt⟩ := allocCluster_like ha
        have hset : Like w (w.setFirst h.dirEntry c) := like_image _ _
        have hall := hlike.trans hset
        apply Covers.append
        · apply Covers.cons (by dsimp only; omega)
          exact Covers.cons (by dsimp only; omega) Covers.nil
        · apply Covers.like hall
          exact writeTouches_covers (hv.like hall) (by rw [hall.bytesPerCluster]; exact hpos)
            ⟨hlt, by rw [hall.diskSize]; exact hp.entry⟩
    · exact writeTouches_covers hv hpos hp

end calls

end Volume

section runs

/-- A call on a volume in memory. The loop over a directory need not come to an end, so a search and
a listing say how many rounds of it are looked at. -/
inductive VolumeCall where
  | fat32Open (path : List UInt8) (rounds : Nat)
  | fat32Read (k size : Nat)
  | fat32Write (k : Nat) (buf : List UInt8)
  | fat32List (rounds : Nat)
  | fat32Close (k : Nat)

def Session.call (s : Session) : VolumeCall → Option Session
  | .fat32Open path rounds => (s.vol.findPathFor rounds path).map fun found =>
    match found with
    | none => s
    | some e => { s with handles := s.handles ++ [some (s.vol.openEntry e)] }
  | .fat32Read k size => some (s.step (.fat32Read k size))
  | .fat32Write k buf => some (s.step (.fat32Write k buf))
  | .fat32List rounds => (s.vol.fat32ListFor rounds).map fun _ => s
  | .fat32Close k => some (s.step (.fat32Close k))

def Session.touches (s : Session) : VolumeCall → List Touch
  | .fat32Open path rounds => s.vol.openTouches rounds path
  | .fat32Read k size =>
    match s.handle k with
    | none => []
    | some h => s.vol.fat32ReadTouches h size
  | .fat32Write k buf =>
    match s.handle k with
    | none => []
    | some h => Volume.fat32WriteTouches s.vol h buf
  | .fat32List rounds => s.vol.listTouches rounds (s.vol.bpb.rootCluster, [])
  | .fat32Close _ => []

inductive Session.Used (image : Mem) (size : Nat) : Session → Prop
  | start {v : Volume} : mountRamdisk image size = some v → Used image size (Session.start v)
  | call {s s' : Session} {c : VolumeCall} : Used image size s → s.call c = some s' →
      Used image size s'

/-- The image is the one that was mounted, as far as its parameters go, and the handles are placed
in it. -/
structure Session.Based (v : Volume) (s : Session) : Prop where
  like : Volume.Like v s.vol
  placed : ∀ h, some h ∈ s.handles → v.Placed h

variable {v : Volume} {s s' : Session} {image : Mem} {size : Nat} {h : Handle} {k : Nat}

theorem Session.handle_mem (hk : s.handle k = some h) : some h ∈ s.handles := by
  unfold Session.handle at hk
  exact List.mem_of_getElem? (Option.join_eq_some_iff.mp hk)

theorem Session.Based.set {w : Volume} {o : Option Handle} (hb : s.Based v) (hl : Volume.Like v w)
    (ho : ∀ h, o = some h → v.Placed h) : Session.Based v ⟨w, s.handles.set k o⟩ := by
  refine ⟨hl, fun h hm => ?_⟩
  cases List.mem_or_eq_of_mem_set hm with
  | inl hm => exact hb.placed h hm
  | inr he => exact ho h he.symm

theorem Session.Based.call {c : VolumeCall} (hv : v.Unbroken) (hroot : v.bpb.rootCluster < word)
    (hb : s.Based v) (hc : s.call c = some s') : s'.Based v := by
  cases c with
  | fat32Open path rounds =>
    obtain ⟨found, hfound, he⟩ := Option.map_eq_some_iff.mp hc
    cases found with
    | none =>
      cases he
      exact hb
    | some e =>
      cases he
      refine ⟨hb.like, fun h hm => ?_⟩
      cases List.mem_append.mp hm with
      | inl hm => exact hb.placed h hm
      | inr hm =>
        cases List.mem_singleton.mp hm
        refine ⟨s.vol.firstAt_lt e, ?_⟩
        rw [← hb.like.diskSize]
        exact Volume.findPathFor_entry (hv.like hb.like) (by rw [hb.like.bpb]; exact hroot) hfound
  | fat32Read k size =>
    cases hc
    unfold Session.step
    dsimp only
    split
    · exact hb
    · rename_i h hk
      have hp := (hb.placed h (Session.handle_mem hk)).like hb.like
      refine hb.set hb.like fun d he => ?_
      cases he
      exact hb.like.unplaced (Volume.fat32Read_placed hp)
  | fat32Write k buf =>
    cases hc
    unfold Session.step
    dsimp only
    split
    · exact hb
    · rename_i h hk
      have hp := (hb.placed h (Session.handle_mem hk)).like hb.like
      obtain ⟨hlike, hq⟩ := @Volume.fat32Write_placed s.vol h buf hp
      refine hb.set (hb.like.trans hlike) fun d he => ?_
      cases he
      exact hb.like.unplaced hq
  | fat32List rounds =>
    obtain ⟨lines, -, he⟩ := Option.map_eq_some_iff.mp hc
    cases he
    exact hb
  | fat32Close k =>
    cases hc
    exact hb.set hb.like fun _ he => by cases he

/-- A mounted image has clusters and a root that fits in 32 bits. -/
theorem mountRamdisk_some (hm : mountRamdisk image size = some v) :
    0 < v.bytesPerCluster ∧ v.bpb.rootCluster < word ∧ v.diskSize = size := by
  unfold mountRamdisk initVolumeFromImage at hm
  split at hm
  · cases hm
  · dsimp only at hm
    split at hm
    · rename_i hok
      cases hm
      refine ⟨by omega, ?_, rfl⟩
      have hroot := loadLE_lt image 44 4
      unfold Bpb.withSectors
      split
      · exact hroot
      · exact hroot
    · cases hm

theorem Session.Used.based (hm : mountRamdisk image size = some v) (hv : v.Unbroken)
    (h : Session.Used image size s) : s.Based v := by
  induction h with
  | start hw =>
    cases hm.symm.trans hw
    exact ⟨Volume.Like.rfl, fun h hmem => by cases hmem⟩
  | call _ hc ih => exact ih.call hv (mountRamdisk_some hm).2.1 hc

/-- On an image in which no cluster and no entry of the table is broken off, no call of any run looks
at a byte outside or stores one there, however long a search or a listing goes on. -/
theorem touches_covered (hm : mountRamdisk image size = some v) (hv : v.Unbroken)
    (h : Session.Used image size s) (c : VolumeCall) : ∀ t ∈ s.touches c, t.start + t.len ≤ size := by
  obtain ⟨hpos, hroot, hsize⟩ := mountRamdisk_some hm
  have hb := h.based hm hv
  have hl := hb.like
  have hw := hv.like hl
  have hroot' : s.vol.bpb.rootCluster < word := by rw [hl.bpb]; exact hroot
  have hpos' : 0 < s.vol.bytesPerCluster := by rw [hl.bytesPerCluster]; exact hpos
  have hcovers : s.vol.Covers (s.touches c) := by
    cases c with
    | fat32Open path rounds => exact Volume.openTouches_covers hw hroot'
    | fat32Read k n =>
      unfold Session.touches
      dsimp only
      split
      · exact Volume.Covers.nil
      · rename_i d hk
        exact Volume.fat32ReadTouches_covers hw hpos' ((hb.placed d (Session.handle_mem hk)).like hl)
    | fat32Write k buf =>
      unfold Session.touches
      dsimp only
      split
      · exact Volume.Covers.nil
      · rename_i d hk
        exact Volume.fat32WriteTouches_covers hw hpos' ((hb.placed d (Session.handle_mem hk)).like hl)
    | fat32List rounds => exact Volume.listTouches_covers hw hroot'
    | fat32Close k => exact Volume.Covers.nil
  rw [← hsize]
  exact Volume.Covers.like hl hcovers

/-- An image without an entry of the table or a cluster that is broken off: it ends with a cluster,
and the length of clusters divides the number of sectors that can be counted. -/
theorem Volume.unbroken_of_whole {n : Nat} (hpos : 0 < v.bpb.bytesPerSector)
    (hfour : 4 ∣ v.bpb.bytesPerSector) (hword : v.bpb.sectorsPerCluster ∣ word)
    (hsize : v.diskSize = (v.dataStart + n * v.bpb.sectorsPerCluster) * v.bpb.bytesPerSector) :
    v.Unbroken := by
  have hfound : ∀ {sector p}, v.sectorPtr sector = some p → p = sector * v.bpb.bytesPerSector ∧
      sector < v.dataStart + n * v.bpb.sectorsPerCluster := by
    intro sector p hp
    unfold Volume.sectorPtr at hp
    dsimp only at hp
    split at hp
    · cases hp
    · rename_i hin
      cases hp
      rw [hsize, Nat.not_le] at hin
      exact ⟨rfl, Nat.lt_of_mul_lt_mul_right hin⟩
  constructor
  · intro c f a _ _ ha
    obtain ⟨p, hp, rfl⟩ := Option.map_eq_some_iff.mp ha
    obtain ⟨rfl, hlt⟩ := hfound hp
    have hoff : 4 ∣ c * 4 % word % v.bpb.bytesPerSector :=
      (Nat.dvd_mod_iff hfour).mpr ((Nat.dvd_mod_iff (by decide)).mpr (Nat.dvd_mul_left 4 c))
    have hend : c * 4 % word % v.bpb.bytesPerSector + 4 ≤ v.bpb.bytesPerSector := by
      have := Nat.mod_lt (c * 4 % word) hpos
      omega
    have hmul := Nat.mul_le_mul_right v.bpb.bytesPerSector (Nat.succ_le_of_lt hlt)
    rw [Nat.succ_mul, ← hsize] at hmul
    omega
  · intro c p _ hp
    unfold Volume.clusterPtr at hp
    split at hp
    · cases hp
    · obtain ⟨rfl, hlt⟩ := hfound hp
      generalize hs : (v.dataStart + (c - 2) * v.bpb.sectorsPerCluster) % word = sector at hlt ⊢
      have hmod : Nat.ModEq v.bpb.sectorsPerCluster sector
          (v.dataStart + n * v.bpb.sectorsPerCluster) := by
        unfold Nat.ModEq
        rw [← hs, Nat.mod_mod_of_dvd _ hword, Nat.add_mul_mod_self_right, Nat.add_mul_mod_self_right]
      have hle : v.bpb.sectorsPerCluster ≤ v.dataStart + n * v.bpb.sectorsPerCluster - sector :=
        Nat.le_of_dvd (by omega) ((Nat.modEq_iff_dvd' hlt.le).mp hmod)
      rw [hsize, Volume.bytesPerCluster, Nat.mul_comm v.bpb.bytesPerSector, ← Nat.add_mul]
      exact Nat.mul_le_mul_right _ (by omega)

/-- An image of eight sectors with one table, the root directory in its cluster 2 and the empty file
`A` there. -/
def fileDisk : Mem :=
  let header : Mem := fun a =>
    if a = 12 ∨ a = 44 then 2
    else if a = 13 ∨ a = 14 ∨ a = 16 ∨ a = 36 then 1
    else if a = 32 then 8 else 0
  storeBytes (storeLE header 520 4 endMark) 1024 (65 :: List.replicate 10 32 ++ [0x20])

/-- The file gets 600 bytes, which take two clusters, and is read and listed. -/
theorem fileDisk_touches_covered : ∃ v s1 s2 s3, mountRamdisk fileDisk 4096 = some v ∧
    (Session.start v).call (.fat32Open [65] 16) = some s1 ∧
    s1.call (.fat32Write 0 (List.replicate 600 7)) = some s2 ∧
    s2.call (.fat32Open [65] 16) = some s3 ∧
    (∃ t ∈ s1.touches (.fat32Write 0 (List.replicate 600 7)), t.start = 2048) ∧
    (∀ t ∈ s1.touches (.fat32Write 0 (List.replicate 600 7)), t.start + t.len ≤ 4096) ∧
    (∀ t ∈ s3.touches (.fat32Read 1 600), t.start + t.len ≤ 4096) ∧
    ∀ t ∈ s3.touches (.fat32List 16), t.start + t.len ≤ 4096 := by
  have hm : mountRamdisk fileDisk 4096 = some ⟨(bpbOf fileDisk).withSectors, 4096, fileDisk⟩ :=
    if_neg (by decide +kernel)
  have hwhole : Volume.Unbroken ⟨(bpbOf fileDisk).withSectors, 4096, fileDisk⟩ :=
    Volume.unbroken_of_whole (n := 6) (by decide +kernel) (by decide +kernel) (by decide +kernel)
      (by decide +kernel)
  have hrun : ((Session.start ⟨(bpbOf fileDisk).withSectors, 4096, fileDisk⟩).call
      (.fat32Open [65] 16)).any (fun s1 =>
        (s1.touches (.fat32Write 0 (List.replicate 600 7))).any (fun t => t.start = 2048) &&
          (s1.call (.fat32Write 0 (List.replicate 600 7))).any fun s2 =>
            (s2.call (.fat32Open [65] 16)).isSome) = true := by decide +kernel
  obtain ⟨s1, h1, hrun⟩ := (Option.any_eq_true _ _).mp hrun
  obtain ⟨hcluster, hrun⟩ := (Bool.and_eq_true _ _).mp hrun
  obtain ⟨s2, h2, hrun⟩ := (Option.any_eq_true _ _).mp hrun
  obtain ⟨s3, h3⟩ := Option.isSome_iff_exists.mp hrun
  obtain ⟨t, ht, hstart⟩ := List.any_eq_true.mp hcluster
  have hopened : Session.Used fileDisk 4096 s1 := .call (.start hm) h1
  have hwritten : Session.Used fileDisk 4096 s3 := .call (.call hopened h2) h3
  exact ⟨_, s1, s2, s3, hm, h1, h2, h3, ⟨t, ht, of_decide_eq_true hstart⟩,
    touches_covered hm hwhole hopened _, touches_covered hm hwhole hwritten _,
    touches_covered hm hwhole hwritten _⟩

end runs

end LosTacOS.Fat
