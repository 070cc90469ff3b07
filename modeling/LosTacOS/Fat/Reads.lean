import LosTacOS.Fat.Contents
import LosTacOS.Fat.Ramdisk

/-! Reading a file piece by piece. -/
namespace LosTacOS.Fat

open ByteMemory

/-- What a call of `fat32_read` returns; the count of its bytes is cast to an `int`. -/
def returned : Option (List UInt8) → Int
  | none => -1
  | some bs => Int.bmod bs.length word

namespace Volume

def reads (v : Volume) : Handle → List Nat → List (Option (List UInt8))
  | _, [] => []
  | h, size :: sizes => (v.fat32Read h size).1 :: reads v (v.fat32Read h size).2 sizes

structure Clusters (v : Volume) (first : Nat) (l : List Nat) : Prop where
  inRange : ∀ c ∈ l, v.view.InRange c
  first : ∀ c, l[0]? = some c → first = c
  next : ∀ i c d, l[i]? = some c → l[i + 1]? = some d → v.readFat c = d

def clusterBytes (v : Volume) (l : List Nat) : List UInt8 :=
  l.flatMap fun c => loadBytes v.image (v.bpb.clusterAddr c) v.bytesPerCluster

variable {v : Volume} {h : Handle} {e first j k left n o q size y : Nat} {l sizes : List Nat}

theorem clusterBytes_eq (v : Volume) (l : List Nat) :
    v.clusterBytes l = v.bytesFrom l 0 (l.length * v.bytesPerCluster) := by
  suffices hgen : ∀ pre post : List Nat, v.clusterBytes post =
      v.bytesFrom (pre ++ post) (pre.length * v.bytesPerCluster)
        (post.length * v.bytesPerCluster) by
    simpa using hgen [] l
  intro pre post
  induction post generalizing pre with
  | nil => simp [clusterBytes, bytesFrom]
  | cons c post ih =>
    have hc : (pre ++ c :: post)[pre.length]? = some c := by simp
    have hload := loadBytes_cluster (v := v) (o := 0) (k := v.bytesPerCluster) hc (by omega)
    rw [Nat.add_zero, Nat.add_zero] at hload
    have hrest := ih (pre ++ [c])
    rw [List.append_assoc, List.singleton_append, List.length_append, List.length_singleton,
      Nat.add_mul, Nat.one_mul] at hrest
    rw [List.length_cons, Nat.add_mul, Nat.one_mul, Nat.add_comm, bytesFrom_add, ← hload, ← hrest]
    rfl

theorem bytesFrom_length (v : Volume) (l : List Nat) (q n : Nat) : (v.bytesFrom l q n).length = n := by
  simp [bytesFrom]

theorem bytesFrom_take (v : Volume) (l : List Nat) (q : Nat) (hle : k ≤ n) :
    (v.bytesFrom l q n).take k = v.bytesFrom l q k := by
  obtain ⟨m, rfl⟩ := Nat.exists_eq_add_of_le hle
  rw [bytesFrom_add, List.take_append_of_le_length (by rw [bytesFrom_length]),
    List.take_of_length_le (by rw [bytesFrom_length])]

/-- A handle stands at byte `q` of a file of the length `n`. Behind the last byte its cluster does
not matter. -/
structure StandsAt (v : Volume) (l : List Nat) (n q : Nat) (h : Handle) : Prop where
  file : h.isDir = false
  size : h.fileSize = n
  offset : h.offset = q
  le : q ≤ n
  cluster : q < n → l[q / v.bytesPerCluster]? = some h.currCluster

/-- The loop of `fat32_read` reads on along the clusters, as long as they hold what is left. -/
theorem readLoop_clusters {fuel : Nat} {read : List UInt8} (hv : v.Formatted)
    (hl : v.Clusters first l) (hroom : n ≤ l.length * v.bytesPerCluster) (hh : StandsAt v l n q h)
    (hleft : q + left ≤ n) (hfuel : left ≤ fuel) :
    (v.readLoop fuel h left read).1 = read ++ v.bytesFrom l q left ∧
      StandsAt v l n (q + left) (v.readLoop fuel h left read).2 := by
  induction fuel generalizing h left read q with
  | zero =>
    obtain rfl : left = 0 := by omega
    exact ⟨by simp [readLoop, bytesFrom], hh⟩
  | succ fuel ih =>
    rw [readLoop]
    by_cases h0 : left = 0
    · subst h0
      rw [if_pos rfl]
      exact ⟨by simp [bytesFrom], hh⟩
    · rw [if_neg h0]
      have hpos := hv.bytesPerCluster_pos
      have hrem := Nat.mod_lt q hpos
      have hcur := hh.cluster (by omega)
      have hmem : h.currCluster ∈ l := List.mem_of_getElem? hcur
      rw [hv.clusterPtr (hl.inRange _ hmem)]
      dsimp only
      have hfit := chunk_le hv h left
      have hk : v.chunk h left = min (v.bytesPerCluster - h.offset % v.bytesPerCluster) left := rfl
      generalize v.chunk h left = k at hk hfit ⊢
      rw [hh.offset] at hk hfit ⊢
      have hload := loadBytes_cluster hcur hfit
      rw [Nat.div_add_mod'] at hload
      rw [hload]
      have hmod := add_mod_of_le hfit
      have hsplit : left = k + (left - k) := by omega
      have hwhole : read ++ v.bytesFrom l q k ++ v.bytesFrom l (q + k) (left - k) =
          read ++ v.bytesFrom l q left := by
        rw [List.append_assoc, ← bytesFrom_add, ← hsplit]
      have hplace : q + left = q + k + (left - k) := by omega
      by_cases hfull : q % v.bytesPerCluster + k = v.bytesPerCluster
      · rw [if_pos hfull] at hmod
        rw [if_pos hmod]
        have hdiv : (q + k) / v.bytesPerCluster = q / v.bytesPerCluster + 1 := by
          have hq := Nat.div_add_mod q v.bytesPerCluster
          rw [show q + k = v.bytesPerCluster * (q / v.bytesPerCluster + 1) by
            rw [Nat.mul_add, Nat.mul_one]
            omega, Nat.mul_div_cancel_left _ hpos]
        -- behind a full cluster there is a next one, or nothing is left
        have hnext : q + k < n → l[(q + k) / v.bytesPerCluster]? =
            some (v.readFat h.currCluster) ∧ v.readFat h.currCluster < endOfChain := by
          intro hlt
          have hidx : (q + k) / v.bytesPerCluster < l.length := by
            rw [Nat.div_lt_iff_lt_mul hpos]
            omega
          obtain ⟨d, hd⟩ : ∃ d, l[(q + k) / v.bytesPerCluster]? = some d :=
            ⟨_, List.getElem?_eq_getElem hidx⟩
          have hfat := hl.next _ _ _ hcur (hdiv ▸ hd)
          have hlim : d < v.totalClusters + 2 := (hl.inRange _ (List.mem_of_getElem? hd)).2
          have hmarks := hv.marks
          rw [hfat]
          exact ⟨hd, by omega⟩
        by_cases hend : endOfChain ≤ v.readFat h.currCluster
        · rw [if_pos hend]
          have hlast : ¬ q + k < n := fun hlt => absurd (hnext hlt).2 (by omega)
          have hall : left = k := by omega
          rw [hall]
          exact ⟨rfl, ⟨hh.file, hh.size, rfl, by omega, fun hlt => absurd hlt hlast⟩⟩
        · rw [if_neg hend]
          have hh' : StandsAt v l n (q + k)
              { h with offset := q + k, currCluster := v.readFat h.currCluster } :=
            ⟨hh.file, hh.size, rfl, by omega, fun hlt => (hnext hlt).1⟩
          obtain ⟨h1, h2⟩ := @ih _ (left - k) (q + k) (read ++ v.bytesFrom l q k) hh' (by omega)
            (by omega)
          rw [h1, hwhole, hplace]
          exact ⟨rfl, h2⟩
      · rw [if_neg hfull] at hmod
        rw [if_neg (by omega)]
        have hh' : StandsAt v l n (q + k) { h with offset := q + k } := by
          refine ⟨hh.file, hh.size, rfl, by omega, fun _ => ?_⟩
          have hdiv : (q + k) / v.bytesPerCluster = q / v.bytesPerCluster := by
            have hq := Nat.div_add_mod q v.bytesPerCluster
            have hqk := Nat.div_add_mod (q + k) v.bytesPerCluster
            apply Nat.eq_of_mul_eq_mul_left hpos
            omega
          rw [hdiv]
          exact hcur
        obtain ⟨h1, h2⟩ := @ih _ (left - k) (q + k) (read ++ v.bytesFrom l q k) hh' (by omega)
          (by omega)
        rw [h1, hwhole, hplace]
        exact ⟨rfl, h2⟩

/-- One call of `fat32_read` reads what is asked for, or what is left. -/
theorem StandsAt.fat32Read (hh : StandsAt v l n q h) (hv : v.Formatted) (hl : v.Clusters first l)
    (hroom : n ≤ l.length * v.bytesPerCluster) (size : Nat) :
    (v.fat32Read h size).1 = some (v.bytesFrom l q (min size (n - q))) ∧
      StandsAt v l n (q + min size (n - q)) (v.fat32Read h size).2 := by
  have hle := hh.le
  rw [Volume.fat32Read, hh.file, if_neg (by simp), hh.size, hh.offset]
  by_cases hend : n ≤ q
  · rw [if_pos hend, show min size (n - q) = 0 by omega]
    exact ⟨by simp [bytesFrom], hh⟩
  · rw [if_neg hend]
    dsimp only
    obtain ⟨h1, h2⟩ := readLoop_clusters hv hl hroom hh
      (show q + min size (n - q) ≤ n by omega) (Nat.le_refl _)
    exact ⟨congrArg some (h1.trans (List.nil_append _)), h2⟩

/-- Calls one after the other: the `i`-th reads behind what those before it were asked for. -/
theorem StandsAt.reads (sizes : List Nat) (hh : StandsAt v l n q h) (hv : v.Formatted)
    (hl : v.Clusters first l) (hroom : n ≤ l.length * v.bytesPerCluster) :
    (v.reads h sizes).flatMap (·.getD []) = v.bytesFrom l q (min (n - q) sizes.sum) ∧
      (v.reads h sizes).length = sizes.length ∧
      ∀ i size, sizes[i]? = some size → (v.reads h sizes)[i]? =
        some (some (v.bytesFrom l (q + min (n - q) (sizes.take i).sum)
          (min size (n - q - (sizes.take i).sum)))) := by
  induction sizes generalizing h q with
  | nil => exact ⟨by simp [Volume.reads, bytesFrom], rfl, by simp⟩
  | cons s sizes ih =>
    have hle := hh.le
    obtain ⟨h1, h2⟩ := hh.fat32Read hv hl hroom s
    obtain ⟨ih1, ih2, ih3⟩ := ih h2
    refine ⟨?_, ?_, fun i size hi => ?_⟩
    · rw [Volume.reads, List.flatMap_cons, h1, ih1, Option.getD_some, ← bytesFrom_add, List.sum_cons]
      congr 1
      omega
    · rw [Volume.reads, List.length_cons, ih2, List.length_cons]
    · rw [Volume.reads]
      cases i with
      | zero =>
        cases hi
        simp [h1]
      | succ i =>
        rw [List.getElem?_cons_succ, ih3 i size hi, List.take_succ_cons, List.sum_cons]
        congr 3
        · omega
        · omega

theorem openEntry_stands (hl : v.Clusters (v.firstAt e) l) (hfile : isDirectory (v.attrAt e) = false)
    (hroom : v.sizeAt e ≤ l.length * v.bytesPerCluster) :
    StandsAt v l (v.sizeAt e) 0 (v.openEntry e) := by
  refine ⟨hfile, rfl, rfl, Nat.zero_le _, fun hlt => ?_⟩
  rw [Nat.zero_div]
  cases l with
  | nil => simp at hroom; omega
  | cons c l => exact congrArg some (hl.first c rfl).symm

/-- The calls give the bytes of the clusters up to the end of the file, and each returns how many it
read, zero only at the end of the file or when it was asked for none. -/
structure ReadsRight (v : Volume) (e : Nat) (l sizes : List Nat) : Prop where
  bytes : (v.reads (v.openEntry e) sizes).flatMap (·.getD []) =
    (v.clusterBytes l).take (min (v.sizeAt e) sizes.sum)
  count : ∀ i size, sizes[i]? = some size → ∃ r, (v.reads (v.openEntry e) sizes)[i]? = some r ∧
    returned r = (min size (v.sizeAt e - (sizes.take i).sum) : Nat) ∧
    (returned r = 0 ↔ size = 0 ∨ v.sizeAt e ≤ (sizes.take i).sum)

theorem bmod_count {n : Nat} (hn : n < word) :
    Int.bmod n word = if n < 2^31 then (n : Int) else n - 2^32 := by
  have hword : ((2^32 : Nat) : Int) = 2^32 := by norm_num
  have hmod : ((n : Nat) : Int) % (word : Nat) = n := Int.emod_eq_of_lt (by omega) (by omega)
  rw [Int.bmod_def, hmod, hword]
  split <;> split <;> omega

theorem returned_some (bs : List UInt8) : returned (some bs) = Int.bmod bs.length word := rfl

theorem returned_eq_iff {bs : List UInt8} (hlt : bs.length < word) :
    returned (some bs) = bs.length ↔ bs.length < 2^31 := by
  have hcount := (returned_some bs).trans (bmod_count hlt)
  split at hcount <;> omega

theorem returned_eq_zero_iff {bs : List UInt8} (hlt : bs.length < word) :
    returned (some bs) = 0 ↔ bs.length = 0 := by
  have hword : word = 4294967296 := rfl
  have hcount := (returned_some bs).trans (bmod_count hlt)
  split at hcount <;> omega

theorem sizeAt_lt (v : Volume) (e : Nat) : v.sizeAt e < word :=
  (loadLE_lt v.image (e + 28) 4).trans_eq (by norm_num)

section right

variable (hv : v.Formatted) (hfile : isDirectory (v.attrAt e) = false)
  (hl : v.Clusters (v.firstAt e) l) (hroom : v.sizeAt e ≤ l.length * v.bytesPerCluster)

include hv hfile hl hroom

theorem ReadsRight.short (h : v.ReadsRight e l sizes) {i : Nat} (hi : sizes[i]? = some size) :
    min size (v.sizeAt e - (sizes.take i).sum) < 2^31 := by
  obtain ⟨-, -, h3⟩ := (openEntry_stands hl hfile hroom).reads sizes hv hl hroom
  simp only [Nat.sub_zero, Nat.zero_add] at h3
  have hsize := v.sizeAt_lt e
  obtain ⟨r, hr, hcount, -⟩ := h.count i size hi
  cases (h3 i size hi).symm.trans hr
  have hiff := @returned_eq_iff (v.bytesFrom l (min (v.sizeAt e) (sizes.take i).sum)
    (min size (v.sizeAt e - (sizes.take i).sum)))
  rw [bytesFrom_length] at hiff
  exact (hiff (by omega)).mp hcount

theorem readsRight_of_short (h : ∀ i size, sizes[i]? = some size →
    min size (v.sizeAt e - (sizes.take i).sum) < 2^31) : v.ReadsRight e l sizes := by
  obtain ⟨h1, -, h3⟩ := (openEntry_stands hl hfile hroom).reads sizes hv hl hroom
  simp only [Nat.sub_zero, Nat.zero_add] at h1 h3
  have hsize := v.sizeAt_lt e
  constructor
  · rw [h1, clusterBytes_eq, bytesFrom_take _ _ _ (by omega)]
  · intro i size hi
    have hiff := @returned_eq_iff (v.bytesFrom l (min (v.sizeAt e) (sizes.take i).sum)
      (min size (v.sizeAt e - (sizes.take i).sum)))
    have hzero := @returned_eq_zero_iff (v.bytesFrom l (min (v.sizeAt e) (sizes.take i).sum)
      (min size (v.sizeAt e - (sizes.take i).sum)))
    rw [bytesFrom_length] at hiff hzero
    refine ⟨_, h3 i size hi, (hiff (by omega)).mpr (h i size hi), (hzero (by omega)).trans ?_⟩
    omega

/-- A file is read piece by piece as it should be exactly when every call reads less than 2^31
bytes. -/
theorem reads_right_iff : v.ReadsRight e l sizes ↔ ∀ i size, sizes[i]? = some size →
    min size (v.sizeAt e - (sizes.take i).sum) < 2^31 :=
  ⟨fun h _ _ => h.short hv hfile hl hroom, readsRight_of_short hv hfile hl hroom⟩

end right

section bigFile

/-- The table of `bigFile`: the file's clusters from 3 on follow each other. -/
def bigTable (c : Nat) : Nat := if 3 ≤ c ∧ c < 514 then c + 1 else endMark

/-- An image with clusters of 4 MiB and one file, of 2^31 bytes. -/
def bigFile : Mem := fun a =>
  if 32768 ≤ a ∧ a < 34828 then
    UInt8.ofNat (bigTable ((a - 32768) / 4) / 256 ^ ((a - 32768) % 4) % 256)
  else if a = 12 ∨ a = 13 ∨ a = 65567 then 128
  else if a = 14 ∨ a = 16 ∨ a = 34 ∨ a = 36 then 1
  else if a = 32 then 130
  else if a = 44 then 2
  else if a = 65562 then 3
  else if 65536 ≤ a ∧ a < 65548 then 32
  else 0

def bigVolume : Volume := ⟨(bpbOf bigFile).withSectors, 65666 * 32768, bigFile⟩

theorem bigVolume_bpb : bigVolume.bpb = ⟨32768, 128, 1, 1, 65666, 1, 2⟩ := by
  have h1 : loadLE bigFile 11 2 = 32768 := by decide
  have h2 : loadLE bigFile 13 1 = 128 := by decide
  have h3 : loadLE bigFile 14 2 = 1 := by decide
  have h4 : loadLE bigFile 16 1 = 1 := by decide
  have h5 : loadLE bigFile 32 4 = 65666 := by decide
  have h6 : loadLE bigFile 36 4 = 1 := by decide
  have h7 : loadLE bigFile 44 4 = 2 := by decide
  simp [bigVolume, bpbOf, Bpb.withSectors, h1, h2, h3, h4, h5, h6, h7]

theorem bigVolume_total : bigVolume.totalClusters = 513 := by
  simp [totalClusters, dataStart, bigVolume_bpb, word]

theorem bigVolume_formatted : bigVolume.Formatted := by
  have hsize : bigVolume.diskSize = 65666 * 32768 := rfl
  constructor <;> simp [bigVolume_bpb, bigVolume_total, Bpb.tableSize, hsize, word, endOfChain]

theorem bigVolume_fat {c : Nat} (h3 : 3 ≤ c) (hlt : c < 514) : bigVolume.readFat c = c + 1 := by
  have hclusters := bigVolume_total
  have haddr : bigVolume.bpb.fatAddr 0 c = 32768 + 4 * c := by
    simp [Bpb.fatAddr, bigVolume_bpb]
  have hbytes : ∀ i, i < 4 → (bigFile (32768 + 4 * c + i)).toNat = (c + 1) / 256 ^ i % 256 := by
    intro i hi
    have hentry : (32768 + 4 * c + i - 32768) / 4 = c := by omega
    have hbyte : (32768 + 4 * c + i - 32768) % 4 = i := by omega
    rw [bigFile, if_pos (by omega), hentry, hbyte, bigTable, if_pos ⟨h3, hlt⟩, UInt8.toNat_ofNat']
    exact Nat.mod_eq_of_lt (Nat.mod_lt _ (by omega))
  rw [bigVolume_formatted.readFat (by omega), haddr]
  rw [show bigVolume.image = bigFile from rfl, loadLE_digits bigFile _ 4 (c + 1) hbytes]
  omega

theorem bigVolume_clusters : bigVolume.Clusters (bigVolume.firstAt 65536) (List.range' 3 512) := by
  constructor
  · intro c hc
    obtain ⟨i, hi, rfl⟩ := List.mem_range'.mp hc
    have hlim : bigVolume.view.limit = 515 := congrArg (· + 2) bigVolume_total
    exact ⟨by omega, by omega⟩
  · intro c hc
    have hfirst : bigVolume.firstAt 65536 = 3 := by decide
    rw [hfirst]
    simpa using hc
  · intro i c d hc hd
    obtain ⟨hi, rfl⟩ := List.getElem?_eq_some_iff.mp hc
    obtain ⟨hi', rfl⟩ := List.getElem?_eq_some_iff.mp hd
    simp only [List.length_range', List.getElem_range'] at hi hi' ⊢
    rw [bigVolume_fat (by omega) (by omega)]
    omega

theorem bigVolume_room :
    bigVolume.sizeAt 65536 ≤ (List.range' 3 512).length * bigVolume.bytesPerCluster := by
  have hsize : bigVolume.sizeAt 65536 = 2^31 := by decide
  simp [hsize, bytesPerCluster, bigVolume_bpb]

/-- In two calls the file is read as it should be. -/
theorem bigVolume_halves : bigVolume.ReadsRight 65536 (List.range' 3 512) [2^30, 2^30] := by
  refine (reads_right_iff bigVolume_formatted (by decide) bigVolume_clusters
    bigVolume_room).mpr fun i size hi => ?_
  have hsize : size = 2^30 := by
    have := List.mem_of_getElem? hi
    simpa using this
  omega

/-- In one call it is not. -/
theorem bigVolume_whole : ∃ v e l, mountRamdisk bigFile (65666 * 32768) = some v ∧ v.Formatted ∧
    isDirectory (v.attrAt e) = false ∧ v.Clusters (v.firstAt e) l ∧
    v.sizeAt e ≤ l.length * v.bytesPerCluster ∧ ¬ v.ReadsRight e l [2^31] := by
  have hfile : isDirectory (bigVolume.attrAt 65536) = false := by decide
  refine ⟨bigVolume, 65536, List.range' 3 512, ?_, bigVolume_formatted, hfile, bigVolume_clusters,
    bigVolume_room, fun h => ?_⟩
  · have haccept : 512 ≤ bigVolume.bytesPerCluster ∧ 0 < bigVolume.dataStart := by
      simp [bytesPerCluster, dataStart, bigVolume_bpb, word]
    rw [mountRamdisk, if_neg (by decide), initVolumeFromImage]
    exact if_pos haccept
  · have hsize : bigVolume.sizeAt 65536 = 2^31 := by decide
    have hlt := h.short bigVolume_formatted hfile bigVolume_clusters bigVolume_room
      (show ([2^31] : List Nat)[0]? = some (2^31) from rfl)
    rw [hsize] at hlt
    simp at hlt

end bigFile

end Volume

end LosTacOS.Fat
