import Mathlib

/-! The log of the kernel: a ring of characters, of which `/dev/kmsg` hands out the newest. -/
namespace LosTacOS.Logger

section code

abbrev ringSize : UInt64 := 32768

/-- `klog_ring` and `klog_write_head`, which counts the characters and starts again at 2^64. -/
structure Klog where
  ring : Nat → UInt8
  writeHead : UInt64

def Klog.boot : Klog := ⟨fun _ => 0, 0⟩

def Klog.appendChar (k : Klog) (c : UInt8) : Klog :=
  ⟨Function.update k.ring (k.writeHead % ringSize).toNat c, k.writeHead + 1⟩

/-- `read_klog`: what is written to `out`. The result of the source is its length. -/
def Klog.read (k : Klog) (maxLen offset : UInt64) : List UInt8 :=
  let total := if ringSize < k.writeHead then ringSize else k.writeHead
  let start := if ringSize < k.writeHead then k.writeHead % ringSize else 0
  if total ≤ offset then []
  else
    let avail := total - offset
    let n := if maxLen < avail then maxLen else avail
    (List.range n.toNat).map fun i => k.ring ((start + offset + UInt64.ofNat i) % ringSize).toNat

/-- `kmsg_read`, the `read` of `/dev/kmsg`. -/
def Klog.kmsgRead (k : Klog) (len offset : UInt64) : List UInt8 := k.read len offset

/-- Reads of `/dev/kmsg` one after the other: `sys_read` moves the offset by what it got. -/
def Klog.drain (k : Klog) : UInt64 → List UInt64 → List UInt8
  | _, [] => []
  | offset, len :: lens =>
    let got := k.kmsgRead len offset
    got ++ k.drain (offset + UInt64.ofNat got.length) lens

end code

def logged (s : List UInt8) : Klog := s.foldl Klog.appendChar Klog.boot

/-- The last characters that are kept: up to 32768 of those since the counter last started. -/
def window (s : List UInt8) : List UInt8 := s.drop (s.length - min (s.length % 2 ^ 64) 32768)

section ring

variable {s : List UInt8} {i : Nat}

theorem logged_snoc (s : List UInt8) (c : UInt8) : logged (s ++ [c]) = (logged s).appendChar c := by
  simp only [logged, List.foldl_append, List.foldl_cons, List.foldl_nil]

theorem logged_head (s : List UInt8) : (logged s).writeHead.toNat = s.length % 2 ^ 64 := by
  induction s using List.reverseRecOn with
  | nil => rfl
  | append_singleton s c ih =>
    have hone : ((logged s).appendChar c).writeHead = (logged s).writeHead + 1 := rfl
    rw [logged_snoc, hone, UInt64.toNat_add, ih, List.length_append, List.length_singleton]
    exact Nat.mod_add_mod _ _ _

theorem toNat_mod_ring (x : UInt64) : (x % ringSize).toNat = x.toNat % 32768 := UInt64.toNat_mod ..

theorem logged_ring (h : i < s.length) (hnew : s.length ≤ i + 32768) :
    (logged s).ring (i % 32768) = s.getD i 0 := by
  induction s using List.reverseRecOn with
  | nil => cases h
  | append_singleton s c ih =>
    have hspot : ((logged s).writeHead % ringSize).toNat = s.length % 32768 := by
      rw [toNat_mod_ring, logged_head]
      exact Nat.mod_mod_of_dvd _ (by decide)
    have hring : ((logged s).appendChar c).ring = Function.update (logged s).ring (s.length % 32768) c := by
      rw [← hspot]
      rfl
    rw [List.length_append, List.length_singleton] at h hnew
    rw [logged_snoc, hring]
    rcases Nat.lt_succ_iff_lt_or_eq.mp h with hlt | rfl
    · have hne : i % 32768 ≠ s.length % 32768 := by omega
      rw [Function.update_of_ne hne, ih hlt (by omega), List.getD_append _ _ _ _ hlt]
    · rw [Function.update_self, List.getD_append_right _ _ _ _ (Nat.le_refl _), Nat.sub_self]
      rfl

theorem window_length (s : List UInt8) : (window s).length = min (s.length % 2 ^ 64) 32768 := by
  have hle := Nat.mod_le s.length (2 ^ 64)
  rw [window, List.length_drop]
  omega

theorem window_getD (s : List UInt8) (i : Nat) :
    (window s).getD i 0 = s.getD (s.length - min (s.length % 2 ^ 64) 32768 + i) 0 := by
  simp only [window, List.getD_eq_getElem?_getD, List.getElem?_drop]

end ring

section read

variable {s : List UInt8} {maxLen offset : UInt64}

/-- `total` of `read_klog`. -/
theorem total_eq (s : List UInt8) :
    (if ringSize < (logged s).writeHead then ringSize else (logged s).writeHead).toNat =
      (window s).length := by
  have hhead := logged_head s
  rw [window_length]
  split
  · rename_i h
    have hlt := UInt64.lt_iff_toNat_lt.mp h
    rw [hhead] at hlt
    change 32768 < _ at hlt
    change 32768 = _
    omega
  · rename_i h
    have hle := UInt64.not_lt.mp h
    rw [UInt64.le_iff_toNat_le, hhead] at hle
    change _ ≤ 32768 at hle
    rw [hhead]
    omega

/-- A place that `read_klog` looks at. -/
theorem ring_window (hi : offset.toNat + i < (window s).length) :
    (logged s).ring (((if ringSize < (logged s).writeHead then (logged s).writeHead % ringSize
      else 0) + offset + UInt64.ofNat i) % ringSize).toNat = (window s).getD (offset.toNat + i) 0 := by
  have hhead := logged_head s
  have hle := Nat.mod_le s.length (2 ^ 64)
  have hdvd : s.length % 2 ^ 64 % 32768 = s.length % 32768 := Nat.mod_mod_of_dvd _ (by decide)
  rw [window_length] at hi
  have hsmall : (UInt64.ofNat i).toNat = i := by
    rw [UInt64.toNat_ofNat']
    omega
  have hplace : ((if ringSize < (logged s).writeHead then (logged s).writeHead % ringSize else 0) +
      offset + UInt64.ofNat i).toNat % 32768 =
        (s.length - min (s.length % 2 ^ 64) 32768 + (offset.toNat + i)) % 32768 := by
    rw [UInt64.toNat_add, UInt64.toNat_add, hsmall]
    split
    · rename_i h
      have hlt := UInt64.lt_iff_toNat_lt.mp h
      rw [hhead] at hlt
      change 32768 < _ at hlt
      rw [toNat_mod_ring, hhead]
      omega
    · rename_i h
      have hge := UInt64.not_lt.mp h
      rw [UInt64.le_iff_toNat_le, hhead] at hge
      change _ ≤ 32768 at hge
      change ((0 + _) % _ + _) % _ % _ = _
      omega
  rw [window_getD, toNat_mod_ring, hplace]
  exact logged_ring (by omega) (by omega)

/-- A read hands out the characters of the window from its offset on. -/
theorem read_eq (s : List UInt8) (maxLen offset : UInt64) :
    (logged s).read maxLen offset = ((window s).drop offset.toNat).take maxLen.toNat := by
  have htotal := total_eq s
  unfold Klog.read
  dsimp only
  generalize (if ringSize < (logged s).writeHead then ringSize else (logged s).writeHead) = total
    at htotal
  by_cases hend : total ≤ offset
  · rw [if_pos hend, List.drop_eq_nil_of_le (by rw [← htotal]; exact hend), List.take_nil]
  · rw [if_neg hend]
    have hlt : offset.toNat < total.toNat := Nat.lt_of_not_le hend
    have havail : (total - offset).toNat = (window s).length - offset.toNat := by
      rw [UInt64.toNat_sub_of_le _ _ (UInt64.le_iff_toNat_le.mpr (Nat.le_of_lt hlt)), htotal]
    have hn : (if maxLen < total - offset then maxLen else total - offset).toNat =
        min maxLen.toNat ((window s).length - offset.toNat) := by
      split
      · rename_i h
        have := UInt64.lt_iff_toNat_lt.mp h
        omega
      · rename_i h
        have := UInt64.le_iff_toNat_le.mp (UInt64.not_lt.mp h)
        omega
    rw [hn]
    apply List.ext_getElem?
    intro i
    rw [List.getElem?_map, List.getElem?_take, List.getElem?_drop]
    by_cases hi : i < min maxLen.toNat ((window s).length - offset.toNat)
    · have hin : offset.toNat + i < (window s).length := by omega
      rw [List.getElem?_range hi, Option.map_some, ring_window hin, if_pos (by omega),
        List.getD_eq_getElem?_getD, List.getElem?_eq_getElem hin, Option.getD_some]
    · rw [List.getElem?_eq_none (by rw [List.length_range]; omega), Option.map_none]
      split
      · exact (List.getElem?_eq_none (by omega)).symm
      · rfl

theorem drain_eq (s : List UInt8) (lens : List UInt64) (h : offset.toNat ≤ (window s).length) :
    (logged s).drain offset lens =
      ((window s).drop offset.toNat).take (lens.map UInt64.toNat).sum := by
  induction lens generalizing offset with
  | nil => simp [Klog.drain]
  | cons len lens ih =>
    have hwindow := window_length s
    have hgot : (logged s).kmsgRead len offset = ((window s).drop offset.toNat).take len.toNat :=
      read_eq s len offset
    have hlen : ((logged s).kmsgRead len offset).length =
        min len.toNat ((window s).length - offset.toNat) := by
      rw [hgot, List.length_take, List.length_drop]
    have hoff : (offset + UInt64.ofNat ((logged s).kmsgRead len offset).length).toNat =
        offset.toNat + min len.toNat ((window s).length - offset.toNat) := by
      rw [UInt64.toNat_add, UInt64.toNat_ofNat', hlen]
      omega
    rw [Klog.drain, ih (by omega), hoff, hgot, List.map_cons, List.sum_cons, List.take_add, List.drop_drop]
    congr 1
    rcases Nat.le_total len.toNat ((window s).length - offset.toNat) with hle | hle
    · rw [Nat.min_eq_left hle]
    · rw [Nat.min_eq_right hle, List.drop_eq_nil_of_le (by omega),
        List.drop_eq_nil_of_le (by omega)]

end read

/-- Whatever was logged since boot, a read hands out the characters of the window from its offset on,
and reads one after the other hand out the window once. -/
theorem reads_window (s : List UInt8) :
    (∀ maxLen offset, (logged s).read maxLen offset =
      ((window s).drop offset.toNat).take maxLen.toNat) ∧
    ∀ lens, (logged s).drain 0 lens = (window s).take (lens.map UInt64.toNat).sum :=
  ⟨read_eq s, fun lens => drain_eq s lens (Nat.zero_le _)⟩

/-- After 2^64 characters the log reads as empty. -/
theorem counter_restarts : ¬ ∀ (s : List UInt8) (maxLen offset : UInt64),
    (logged s).read maxLen offset =
      ((s.drop (s.length - min s.length 32768)).drop offset.toNat).take maxLen.toNat := by
  intro hall
  have hlen : (List.replicate (2 ^ 64) (0 : UInt8)).length = 2 ^ 64 := List.length_replicate
  have hread := hall (List.replicate (2 ^ 64) 0) 1 0
  have hempty : window (List.replicate (2 ^ 64) 0) = [] := by
    rw [← List.length_eq_zero_iff, window_length, hlen]
    rfl
  rw [read_eq, hempty, List.drop_nil, List.take_nil] at hread
  have hlong := congrArg List.length hread
  have hmin : min (2 ^ 64) 32768 = 32768 := by decide
  rw [List.length_take, List.length_drop, List.length_drop, hlen, hmin, List.length_nil] at hlong
  have hzero : (0 : UInt64).toNat = 0 := rfl
  have hone : (1 : UInt64).toNat = 1 := rfl
  omega

end LosTacOS.Logger
