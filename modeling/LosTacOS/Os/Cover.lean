import LosTacOS.Lib.FirstMax
import LosTacOS.Os.Dispatch

/-! Which mount covers a path. `find_mount` compares bytes, the mounts of a path are those whose
components begin the components of the path. -/
namespace LosTacOS.Os.Kernel

variable {k : Kernel} {path : List Char} {m x : Nat}

def mountPoint (k : Kernel) (m : Nat) : List (List Char) := segments (k.mounts.cell m).path

/-- The mount whose components begin those of the path, the most of them; of several the newest. -/
def Covering (k : Kernel) (path : List Char) : Nat → Prop :=
  FirstMax (fun m => k.mountPoint m <+: segments path) (fun m => (k.mountPoint m).length)
    k.mountTable

def RightMount (k : Kernel) (path : List Char) : Option Nat → Prop
  | some m => k.Covering path m
  | none => ∀ m ∈ k.mountTable, ¬k.mountPoint m <+: segments path

/-- The test of `find_mount`: the path of the mount begins the text of the path and ends at a slash
or at its end. -/
def matchesPath (k : Kernel) (path : List Char) (m : Nat) : Bool :=
  (k.mounts.cell m).path.isPrefixOf path &&
    ((path.drop (k.mounts.cell m).path.length).head? = some '/' ||
      path.length = (k.mounts.cell m).path.length)

def pathLength (k : Kernel) (m : Nat) : Nat := (k.mounts.cell m).path.length

/-- The mount that covers the path is written so that the test finds it, and nothing longer passes
the test. -/
def Spelled (k : Kernel) (path : List Char) : Prop :=
  ∀ m, k.Covering path m → k.matchesPath path m = true ∧ 0 < k.pathLength m ∧
    ∀ x ∈ k.mountTable, k.matchesPath path x = true → k.pathLength x ≤ k.pathLength m

theorem matchesPath_iff : k.matchesPath path m = true ↔
    ∃ t, path = (k.mounts.cell m).path ++ t ∧ (t = [] ∨ t.head? = some '/') := mountTest_iff

theorem matchesPath_covers (h : k.matchesPath path m = true) :
    k.mountPoint m <+: segments path := by
  obtain ⟨t, rfl, hend⟩ := matchesPath_iff.mp h
  rw [mountPoint]
  cases t with
  | nil => rw [List.append_nil]
  | cons c t =>
    have hc : c = '/' := by
      cases hend with
      | inl hnil => cases hnil
      | inr hslash => exact Option.some.inj hslash
    rw [hc, segments_append]
    exact List.prefix_append _ _

theorem exists_covering (hx : x ∈ k.mountTable) (hcover : k.mountPoint x <+: segments path) :
    ∃ m, k.Covering path m :=
  FirstMax.exists_of_mem (p := fun m => k.mountPoint m <+: segments path) hx hcover

/-- Two mounts of one length that pass the test have one path. -/
theorem matchesPath_unique (hm : k.matchesPath path m = true) (hx : k.matchesPath path x = true)
    (hlen : k.pathLength m = k.pathLength x) : (k.mounts.cell m).path = (k.mounts.cell x).path := by
  obtain ⟨t, ht, -⟩ := matchesPath_iff.mp hm
  obtain ⟨u, hu, -⟩ := matchesPath_iff.mp hx
  exact (List.append_inj (ht.symm.trans hu) hlen).1

/-- `find_mount` finds the first of the longest mounts that pass the test. -/
theorem findMount_spec :
    (k.findMount path = none ∧
      ∀ x ∈ k.mountTable, k.matchesPath path x = true → k.pathLength x = 0) ∨
    ∃ m, k.findMount path = some m ∧
      FirstMax (fun x => k.matchesPath path x = true ∧ 0 < k.pathLength x) k.pathLength
        k.mountTable m := by
  rcases FirstMax.foldl_spec (p := fun x => k.matchesPath path x = true) (f := k.pathLength)
    (l := k.mountTable) none 0 with ⟨hzero, hfold⟩ | ⟨m, hm, hfold⟩
  · exact Or.inl ⟨congrArg Prod.fst hfold, fun x hx hp => Nat.le_zero.mp (hzero x hx hp)⟩
  · exact Or.inr ⟨m, congrArg Prod.fst hfold, hm⟩

/-- A spelled mount is the one that `find_mount` finds. -/
theorem Spelled.findMount (h : k.Spelled path) (hm : k.Covering path m) :
    k.findMount path = some m := by
  obtain ⟨hmatch, hpos, hlongest⟩ := h m hm
  obtain ⟨before, behind, htable, hcover, hlt, hle⟩ := hm
  have hfirst : FirstMax (fun x => k.matchesPath path x = true ∧ 0 < k.pathLength x) k.pathLength
      k.mountTable m := by
    refine ⟨before, behind, htable, ⟨hmatch, hpos⟩, fun x hx hp => ?_, fun x hx hp => ?_⟩
    · have hlonger := hlongest x (by rw [htable]; exact List.mem_append_left _ hx) hp.1
      apply lt_of_le_of_ne hlonger
      intro hlen
      -- of one length they would have one path, and a newer mount with it would be chosen
      have hfewer : (k.mountPoint x).length < (k.mountPoint m).length :=
        hlt x hx (matchesPath_covers hp.1)
      rw [mountPoint, mountPoint, matchesPath_unique hp.1 hmatch hlen] at hfewer
      exact absurd hfewer (lt_irrefl _)
    · exact hlongest x (by rw [htable]; simp [hx]) hp.1
  rcases @findMount_spec k path with ⟨-, hnone⟩ | ⟨m', hfound, hm'⟩
  · rw [hnone m hfirst.mem hmatch] at hpos
    exact absurd hpos (lt_irrefl 0)
  · rw [hfound, hm'.unique hfirst]

/-- `find_mount` finds the mount that covers the path exactly when that mount is spelled so. -/
theorem findMount_right_iff (k : Kernel) (path : List Char) :
    k.RightMount path (k.findMount path) ↔ k.Spelled path := by
  constructor
  · intro h m hm
    rcases @findMount_spec k path with ⟨hfound, -⟩ | ⟨m', hfound, hm'⟩
    · rw [hfound] at h
      exact absurd hm.prop (h m hm.mem)
    · rw [hfound] at h
      have hsame : m = m' := FirstMax.unique hm h
      subst hsame
      refine ⟨hm'.prop.1, hm'.prop.2, fun x hx hp => ?_⟩
      by_cases hpos : 0 < k.pathLength x
      · exact hm'.le hx ⟨hp, hpos⟩
      · omega
  · intro h
    cases hfound : k.findMount path with
    | none =>
      intro x hx hcover
      obtain ⟨m, hm⟩ := exists_covering hx hcover
      rw [h.findMount hm] at hfound
      cases hfound
    | some m' =>
      have hcover := findMount_some hfound
      obtain ⟨m, hm⟩ := exists_covering hcover.1 (matchesPath_covers hcover.2)
      rw [h.findMount hm] at hfound
      cases hfound
      exact hm

def rootMounted : Kernel :=
  { boot with mounts := ⟨fun _ => ⟨['/'], some .tarfs, 0⟩, {0}⟩, mountTable := [0] }

/-- The mount on the root covers every path and is found for none but its own. -/
theorem root_mount_not_found : ¬ ∀ (k : Kernel) (path : List Char), path.head? = some '/' →
    k.RightMount path (k.findMount path) := by
  intro h
  have hnone := h rootMounted "/etc".toList rfl
  have hfound : rootMounted.findMount "/etc".toList = none := by decide
  rw [hfound] at hnone
  exact hnone 0 (by decide) (by decide)

end LosTacOS.Os.Kernel
