import LosTacOS.Fat.Sessions

/-! The bytes of a file, along its chain, and what reading them gives. -/
namespace LosTacOS.Fat

open ByteMemory

namespace Volume

def byteAt (v : Volume) (l : List Nat) (q : Nat) : UInt8 :=
  v.image (v.bpb.clusterAddr (l.getD (q / v.bytesPerCluster) 0) + q % v.bytesPerCluster)

def bytesFrom (v : Volume) (l : List Nat) (q n : Nat) : List UInt8 :=
  (List.range n).map fun i => v.byteAt l (q + i)

variable {v w : Volume} {h : Handle} {c i j k n o q y : Nat} {l : List Nat}

theorem Formatted.bytesPerCluster_pos (hv : v.Formatted) : 0 < v.bytesPerCluster :=
  Nat.mul_pos hv.sector_pos hv.cluster_pos

theorem byteAt_cluster (hj : l[j]? = some y) (ho : o < v.bytesPerCluster) :
    v.byteAt l (j * v.bytesPerCluster + o) = v.image (v.bpb.clusterAddr y + o) := by
  have hdiv : (j * v.bytesPerCluster + o) / v.bytesPerCluster = j := by
    rw [Nat.add_comm, Nat.add_mul_div_right _ _ (by omega), Nat.div_eq_of_lt ho, Nat.zero_add]
  have hmod : (j * v.bytesPerCluster + o) % v.bytesPerCluster = o := by
    rw [Nat.add_comm, Nat.add_mul_mod_self_right, Nat.mod_eq_of_lt ho]
  rw [byteAt, hdiv, hmod, List.getD_eq_getElem?_getD, hj, Option.getD_some]

theorem bytesFrom_add (v : Volume) (l : List Nat) (q n k : Nat) :
    v.bytesFrom l q (n + k) = v.bytesFrom l q n ++ v.bytesFrom l (q + n) k := by
  unfold bytesFrom
  rw [List.range_add, List.map_append, List.map_map]
  simp [Function.comp_def, Nat.add_assoc]

theorem loadBytes_cluster (hj : l[j]? = some y) (hle : o + k ≤ v.bytesPerCluster) :
    loadBytes v.image (v.bpb.clusterAddr y + o) k = v.bytesFrom l (j * v.bytesPerCluster + o) k := by
  refine List.map_congr_left fun i hi => ?_
  have hlt := List.mem_range.mp hi
  rw [Nat.add_assoc, Nat.add_assoc, byteAt_cluster hj (by omega)]

theorem add_mod_of_le {a m : Nat} (hle : a % m + k ≤ m) :
    (a + k) % m = if a % m + k = m then 0 else a % m + k := by
  have hsplit : a + k = a % m + k + m * (a / m) := by
    have := Nat.div_add_mod a m
    omega
  rw [hsplit, Nat.add_mul_mod_self_left]
  split
  · rename_i hm
    rw [hm, Nat.mod_self]
  · exact Nat.mod_eq_of_lt (by omega)

/-- What the loop of `fat32_read` reads: the bytes from its place on, up to the end of the chain. -/
theorem readLoop_bytes {fuel left : Nat} {read : List UInt8} (hv : v.Formatted)
    (hl : v.view.Runs n l) (hj : l[j]? = some h.currCluster) (hfuel : left ≤ fuel) :
    (v.readLoop fuel h left read).1 = read ++
      v.bytesFrom l (j * v.bytesPerCluster + h.offset % v.bytesPerCluster)
        (min left (l.length * v.bytesPerCluster -
          (j * v.bytesPerCluster + h.offset % v.bytesPerCluster))) := by
  induction fuel generalizing h left read j with
  | zero =>
    have h0 : left = 0 := by omega
    simp [readLoop, h0, bytesFrom]
  | succ fuel ih =>
    have hpos := hv.bytesPerCluster_pos
    have ho := Nat.mod_lt h.offset hpos
    have hjlt := (List.getElem?_eq_some_iff.mp hj).1
    have hroom := Nat.mul_le_mul_right v.bytesPerCluster (show j + 1 ≤ l.length from hjlt)
    rw [Nat.add_mul, Nat.one_mul] at hroom
    have hmem : h.currCluster ∈ l := List.mem_of_getElem? hj
    rw [readLoop]
    by_cases h0 : left = 0
    · rw [if_pos h0]
      simp [h0, bytesFrom]
    · rw [if_neg h0, hv.clusterPtr (hl.inRange _ hmem)]
      have hfit := chunk_le hv h left
      have hk : v.chunk h left = min (v.bytesPerCluster - h.offset % v.bytesPerCluster) left := rfl
      dsimp only
      rw [loadBytes_cluster hj hfit]
      generalize v.chunk h left = k at hk hfit ⊢
      have hmod := add_mod_of_le hfit
      by_cases hfull : h.offset % v.bytesPerCluster + k = v.bytesPerCluster
      · rw [if_pos hfull] at hmod
        rw [if_pos hmod]
        have hnext := hl.chain.next_getElem? hj
        by_cases hend : endOfChain ≤ v.readFat h.currCluster
        · -- the chain ends here
          rw [if_pos hend]
          have hlast : l.length ≤ j + 1 := by
            rw [View.next, show v.view.fat h.currCluster = v.readFat h.currCluster from rfl,
              if_pos hend] at hnext
            exact List.getElem?_eq_none_iff.mp hnext.symm
          have hlen : l.length = j + 1 := by omega
          rw [hlen, Nat.add_mul, Nat.one_mul, show min left (j * v.bytesPerCluster + v.bytesPerCluster -
            (j * v.bytesPerCluster + h.offset % v.bytesPerCluster)) = k by omega]
        · rw [if_neg hend]
          have hj' : l[j + 1]? = some (v.readFat h.currCluster) := by
            rw [← hnext]
            exact if_neg hend
          rw [@ih { h with offset := h.offset + k, currCluster := v.readFat h.currCluster } (j + 1)
            (left - k) _ hj' (by omega)]
          simp only [hmod, Nat.add_zero, Nat.add_mul, Nat.one_mul]
          rw [List.append_assoc, show j * v.bytesPerCluster + v.bytesPerCluster =
            j * v.bytesPerCluster + h.offset % v.bytesPerCluster + k by omega, ← bytesFrom_add]
          congr 2
          omega
      · rw [if_neg hfull] at hmod
        rw [if_neg (by omega)]
        have hall : left - k = 0 := by omega
        rw [@ih { h with offset := h.offset + k } j (left - k) _ hj (by omega), hall]
        simp only [Nat.zero_min, bytesFrom, List.range_zero, List.map_nil, List.append_nil]
        congr 3
        omega

theorem read_fresh {e : Nat} (hv : v.Formatted) (hl : v.view.Runs (v.firstAt e) l)
    (hfile : isDirectory (v.attrAt e) = false) (n : Nat) :
    (v.fat32Read (v.openEntry e) n).1 =
      some (v.bytesFrom l 0 (min (min n (v.sizeAt e)) (l.length * v.bytesPerCluster))) := by
  simp only [fat32Read, openEntry, hfile, Bool.false_eq_true, if_false, Nat.sub_zero]
  by_cases h0 : v.sizeAt e ≤ 0
  · rw [if_pos h0, show min (min n (v.sizeAt e)) (l.length * v.bytesPerCluster) = 0 by omega]
    rfl
  · rw [if_neg h0]
    generalize min n (v.sizeAt e) = left
    have hchain := hl.chain
    cases l with
    | nil =>
      have hfirst : v.firstAt e = 0 := by
        by_contra hne
        rw [View.headOf, if_neg hne] at hchain
        cases hchain
      have hnone : v.clusterPtr (v.firstAt e) = none := if_pos (by omega)
      cases left with
      | zero => simp [readLoop, bytesFrom]
      | succ left => simp [readLoop, hnone, bytesFrom]
    | cons y l =>
      have hy : v.firstAt e = y := by
        have hhead := hchain.1
        unfold View.headOf at hhead
        split at hhead
        · cases hhead
        · exact Option.some.inj hhead
      have hj : (y :: l)[0]? = some (v.openEntry e).currCluster := congrArg some hy.symm
      have hread := @readLoop_bytes v (v.openEntry e) 0 _ (y :: l) left left [] hv hl hj (Nat.le_refl _)
      simp only [openEntry, hfile, Nat.zero_mul, Nat.zero_mod, Nat.add_zero, Nat.sub_zero,
        List.nil_append] at hread
      rw [hread]

end Volume

end LosTacOS.Fat
