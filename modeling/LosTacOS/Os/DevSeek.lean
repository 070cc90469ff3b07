import LosTacOS.Os.Syscall
import Mathlib

/-! Seeking on a device. A descriptor of devfs and its handle each have an offset: `devfs_lseek`
moves the handle and narrows its answer to an `int`, `sys_lseek` copies that answer. -/
namespace LosTacOS.Os

/-- A device: its size in bytes, which devfs does not know, and what its operations move for a
length and an offset, when it has them. -/
structure Device where
  size : Nat
  read : Option (Nat → Nat → Nat)
  write : Option (Nat → Nat → Nat)

/-- `DevHandle`; the offset is a `size_t`. -/
structure DevHandle where
  device : Device
  offset : Nat
  fits : offset < 2^64

namespace DevHandle

def moved (h : DevHandle) (offset : Nat) : DevHandle :=
  ⟨h.device, offset % 2^64, Nat.mod_lt _ (by norm_num)⟩

/-- `read` and `write` of devfs: the bytes moved at the offset of the handle, and the handle
after. -/
def transfer (h : DevHandle) (op : Option (Nat → Nat → Nat)) (len : Nat) : Int × DevHandle :=
  match op with
  | none => (0, h)
  | some op => (Int.bmod (op len h.offset) (2^32), h.moved (h.offset + op len h.offset))

def read (h : DevHandle) (len : Nat) : Int × DevHandle := h.transfer h.device.read len

def write (h : DevHandle) (len : Nat) : Int × DevHandle := h.transfer h.device.write len

/-- The `base` of `devfs_lseek`, which takes the handle's own offset for the end as well. -/
def base (h : DevHandle) (whence : Nat) : Int :=
  if whence = 0 then 0
  else if whence = 1 then Int.bmod h.offset (2^64)
  else if whence = 2 then Int.bmod h.offset (2^64)
  else 0

def lseek (h : DevHandle) (offset : Int) (whence : Nat) : Int × DevHandle :=
  let next := Int.bmod (h.base whence + offset) (2^64)
  if next < 0 then (-1, h) else (Int.bmod next (2^32), h.moved next.toNat)

def asked (h : DevHandle) (offset : Int) (whence : Nat) : Int :=
  (if whence = 0 then 0 else if whence = 1 then h.offset else h.device.size) + offset

/-- The offset that the arithmetic of `long` leads to. -/
def reached (h : DevHandle) (offset : Int) (whence : Nat) : Int :=
  Int.bmod ((if whence = 0 then 0 else (h.offset : Int)) + offset) (2^64)

/-- The seeks that go right: those before the start, those to the offset asked for while it is an
`int`, and those to where the handle is when that narrows to -1. -/
def SeeksRight (h : DevHandle) (offset : Int) (whence : Nat) : Prop :=
  let next := h.reached offset whence
  next < 0 ∨ (next = h.asked offset whence ∧ next < 2^31) ∨
    (next = h.offset ∧ Int.bmod next (2^32) = -1)

theorem lseek_eq (h : DevHandle) (offset : Int) {whence : Nat} (hw : whence ≤ 2) :
    h.lseek offset whence = if h.reached offset whence < 0 then (-1, h)
      else (Int.bmod (h.reached offset whence) (2^32), h.moved (h.reached offset whence).toNat) := by
  have hnext : Int.bmod (h.base whence + offset) (2^64) = h.reached offset whence := by
    have hcases : whence = 0 ∨ whence = 1 ∨ whence = 2 := by omega
    rcases hcases with rfl | rfl | rfl <;> simp [base, reached]
  rw [lseek, hnext]

theorem reached_lt (h : DevHandle) (offset : Int) (whence : Nat) :
    h.reached offset whence < 2^63 := by
  have hlt := Int.bmod_lt (x := (if whence = 0 then 0 else (h.offset : Int)) + offset)
    (m := 2^64) (by norm_num)
  rw [reached]
  omega

/-- After a seek the handle is where the arithmetic leads. -/
theorem moved_reached {h : DevHandle} {offset : Int} {whence : Nat}
    (hnext : 0 ≤ h.reached offset whence) :
    ((h.moved (h.reached offset whence).toNat).offset : Int) = h.reached offset whence := by
  have hlt := reached_lt h offset whence
  simp only [moved]
  omega

/-- A position that is not negative is its own `int` below 2 GiB only. -/
theorem narrow_iff {x : Int} (h : 0 ≤ x) : Int.bmod x (2^32) = x ↔ x < 2^31 := by
  constructor
  · intro heq
    have hlt := Int.bmod_lt (x := x) (m := 2^32) (by norm_num)
    omega
  · intro hlt
    apply Int.bmod_eq_of_le <;> omega

end DevHandle

namespace Kernel

variable {env : Env} {k : Kernel} {hs : Nat → DevHandle} {fd offset : Int} {whence : Nat}
  {p h : Nat} {i : Fin maxFds}

structure DevFd (k : Kernel) (fd : Int) (p : Nat) (i : Fin maxFds) (h : Nat) : Prop where
  opened : k.openFd fd = some (p, i)
  noPipe : (k.entry p i).type ≠ .pipe
  noNode : (k.entry p i).node = none
  handle : k.fsOf (k.entry p i) .lseek = some (.devfs, h)

/-- `sys_lseek` with the handles of devfs: where it asks devfs, the answer is that of
`devfs_lseek`. -/
def seekDevice (env : Env) (k : Kernel) (hs : Nat → DevHandle) (fd offset : Int) (whence : Nat) :
    Int × Kernel × (Nat → DevHandle) :=
  match (k.openFd fd).bind fun x => k.fsOf (k.entry x.1 x.2) .lseek with
  | some (.devfs, h) =>
    let (ret, h') := (hs h).lseek offset whence
    let (r, k) := k.sysLseek { env with answer := ret } fd offset whence
    (r, k, Function.update hs h h')
  | _ =>
    let (r, k) := k.sysLseek env fd offset whence
    (r, k, hs)

/-- What a seek on a device promises: the exact offset for the caller and for the next transfer, or
-1 and neither offset moved. -/
def SeekKept (k : Kernel) (hs : Nat → DevHandle) (p : Nat) (i : Fin maxFds) (h : Nat)
    (offset : Int) (whence : Nat) (after : Int × Kernel × (Nat → DevHandle)) : Prop :=
  (after.1 = (hs h).asked offset whence ∧
    ((after.2.2 h).offset : Int) = (hs h).asked offset whence) ∨
  (after.1 = -1 ∧ (after.2.2 h).offset = (hs h).offset ∧
    (after.2.1.entry p i).offset = (k.entry p i).offset)

/-- After a kept seek that is not refused the next transfer is at the offset asked for. -/
theorem SeekKept.transfers {after : Int × Kernel × (Nat → DevHandle)}
    (hkept : k.SeekKept hs p i h offset whence after) (hr : after.1 ≠ -1)
    (op : Nat → Nat → Nat) (len : Nat) : ((after.2.2 h).transfer (some op) len).1 =
      Int.bmod (op len ((hs h).asked offset whence).toNat) (2^32) := by
  have hexact : ((after.2.2 h).offset : Int) = (hs h).asked offset whence :=
    hkept.elim And.right fun hminus => absurd hminus.1 hr
  have hoffset : (after.2.2 h).offset = ((hs h).asked offset whence).toNat := by
    rw [← hexact]
    rfl
  rw [← hoffset]
  unfold DevHandle.transfer
  dsimp only

/-- `sys_lseek` on a device returns the answer of devfs and stores it unless it is negative. -/
theorem sysLseek_device (hd : k.DevFd fd p i h) :
    k.sysLseek env fd offset whence =
      let k' := { k with fsLog := .used .devfs .lseek h :: k.fsLog }
      (env.answer, if 0 ≤ env.answer then
        k'.setEntry p i { k.entry p i with offset := env.answer.toNat } else k') := by
  have hasked : (if (k.entry p i).node.isNone then k.fsOf (k.entry p i) .lseek else none) =
      some (.devfs, h) := by
    rw [hd.noNode]
    exact hd.handle
  rw [sysLseek, hd.opened]
  dsimp only
  rw [if_neg hd.noPipe, hasked]
  dsimp only
  split_ifs
  · rfl
  · rfl

/-- The three things a seek on a device leaves: its result and the two offsets. -/
theorem seekDevice_left (hd : k.DevFd fd p i h) :
    let after := k.seekDevice env hs fd offset whence
    let answer := (hs h).lseek offset whence
    after.1 = answer.1 ∧ after.2.2 h = answer.2 ∧
      (after.2.1.entry p i).offset =
        if 0 ≤ answer.1 then answer.1.toNat else (k.entry p i).offset := by
  have hasked : ((k.openFd fd).bind fun x => k.fsOf (k.entry x.1 x.2) .lseek) =
      some (.devfs, h) := by
    rw [hd.opened, Option.bind_some]
    exact hd.handle
  dsimp only
  rw [seekDevice, hasked]
  dsimp only
  rw [sysLseek_device hd]
  refine ⟨rfl, Function.update_self .., ?_⟩
  dsimp only
  split_ifs
  · simp [entry, setEntry, proc, setProc]
  · rfl

/-- A seek on a device keeps its promise exactly for the seeks that go right. -/
theorem seek_kept_iff (hd : k.DevFd fd p i h) (hw : whence ≤ 2) :
    k.SeekKept hs p i h offset whence (k.seekDevice env hs fd offset whence) ↔
      (hs h).SeeksRight offset whence := by
  obtain ⟨hret, hmoved, hentry⟩ := @seekDevice_left env k hs fd offset whence _ _ _ hd
  rw [SeekKept, hret, hmoved, hentry, DevHandle.lseek_eq _ _ hw, DevHandle.SeeksRight]
  generalize hnext : (hs h).reached offset whence = next
  by_cases hneg : next < 0
  · simp [hneg]
  · have hpos : 0 ≤ next := by omega
    have hat : (((hs h).moved next.toNat).offset : Int) = next := by
      subst hnext
      exact DevHandle.moved_reached hpos
    have hlt : next < 2^63 := by
      subst hnext
      exact DevHandle.reached_lt ..
    rw [if_neg hneg]
    dsimp only
    rw [hat]
    constructor
    · rintro (⟨hexact, hthere⟩ | ⟨hminus, hsame, -⟩)
      · refine Or.inr (Or.inl ⟨hthere, ?_⟩)
        exact (DevHandle.narrow_iff hpos).mp (hexact.trans hthere.symm)
      · refine Or.inr (Or.inr ⟨?_, hminus⟩)
        rw [← hat, hsame]
    · rintro (hlow | ⟨hthere, hint⟩ | ⟨hsame, hminus⟩)
      · exact absurd hlow hneg
      · exact Or.inl ⟨((DevHandle.narrow_iff hpos).mpr hint).trans hthere, hthere⟩
      · refine Or.inr ⟨hminus, ?_, ?_⟩
        · exact_mod_cast hat.trans hsame
        · rw [hminus]
          rfl

theorem maxFds_neZero : NeZero maxFds := ⟨by decide⟩

attribute [local instance] maxFds_neZero in
def withDevice : Kernel :=
  { boot with mounts := ⟨fun _ => ⟨"/dev".toList, some .devfs, 0⟩, {0}⟩, mountTable := [0] }.setEntry
    0 3 { FdEntry.zero with type := .file, mount := some 0, fsHandle := some 0 }

theorem withDevice_fd : withDevice.DevFd 3 0 3 0 := ⟨by decide, by decide, by decide, by decide⟩

def disk : DevHandle := ⟨⟨2^32, none, none⟩, 0, by norm_num⟩

def deafEnv : Env :=
  ⟨0, fun _ => none, fun _ => false, fun _ => true, fun _ _ => 0, fun _ _ _ _ => false, 0, [], [], [],
    false, false, false⟩

theorem seek_kept_disk : withDevice.SeekKept (fun _ => disk) 0 3 0 512 0
    (withDevice.seekDevice deafEnv (fun _ => disk) 3 512 0) := by
  have hright : disk.SeeksRight 512 0 := Or.inr (Or.inl ⟨by decide, by decide⟩)
  exact (seek_kept_iff withDevice_fd (by decide)).mpr hright

/-- A seek to 2 GiB answers with a negative number that is not -1, and the handle has moved. -/
theorem seek_far_not_kept : ¬ ∀ (env : Env) (k : Kernel) (hs : Nat → DevHandle) (fd offset : Int)
    (whence p h : Nat) (i : Fin maxFds), k.DevFd fd p i h → whence ≤ 2 →
    k.SeekKept hs p i h offset whence (k.seekDevice env hs fd offset whence) := by
  intro hall
  have hkept := hall deafEnv withDevice (fun _ => disk) 3 (2^31) 0 0 0 3 withDevice_fd (by decide)
  obtain ⟨hret, -, -⟩ := @seekDevice_left deafEnv _ (fun _ => disk) 3 (2^31) 0 _ _ _ withDevice_fd
  have hanswer : (disk.lseek (2^31) 0).1 = -2^31 := by decide
  rw [hanswer] at hret
  rw [SeekKept, hret] at hkept
  have hasked : disk.asked (2^31) 0 = 2^31 := by decide
  rw [hasked] at hkept
  omega

end Kernel

end LosTacOS.Os
