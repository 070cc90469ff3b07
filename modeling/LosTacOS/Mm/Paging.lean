import LosTacOS.Mm.Pmm
import Mathlib.Data.Nat.Bitwise
import Mathlib.Tactic

/-! Four-level page tables in physical memory, as `paging.cpp` builds, copies and clears them.
A table or a page is named by its frame number; frame 0 is the null pointer. -/
namespace LosTacOS.Mm

abbrev pagePresent : Nat := 1
abbrev pageWritable : Nat := 2
abbrev pageUser : Nat := 4

def present (w : Nat) : Bool := w.testBit 0
def writable (w : Nat) : Bool := w.testBit 1
def user (w : Nat) : Bool := w.testBit 2

/-- `w & ~0xFFF`, as a frame number. -/
def frameOf (w : Nat) : Nat := w / 4096

def flagsOf (w : Nat) : Nat := w % 4096

def entry (frame flags : Nat) : Nat := frame * 4096 ||| flags

def pml4Index (va : Nat) : Nat := va / 2^39 % 512
def pdptIndex (va : Nat) : Nat := va / 2^30 % 512
def pdIndex (va : Nat) : Nat := va / 2^21 % 512
def ptIndex (va : Nat) : Nat := va / 2^12 % 512

/-- Word `i` of frame `f`. -/
abbrev Ram := Nat → Nat → Nat

structure Machine where
  pmm : Pmm
  ram : Ram

def Machine.store (m : Machine) (f i w : Nat) : Machine :=
  { m with ram := Function.update m.ram f (Function.update (m.ram f) i w) }

def Machine.fill (m : Machine) (f : Nat) (words : Nat → Nat) : Machine :=
  { m with ram := Function.update m.ram f words }

def Machine.freePage (m : Machine) (f : Nat) : Machine := { m with pmm := m.pmm.freePage (f * pageSize) }

abbrev identityMapLimit : Nat := 0x10000000

def Machine.allocPage (m : Machine) : Nat × Machine :=
  let (phys, s) := m.pmm.allocPage
  if phys = 0 then (0, { m with pmm := s })
  else if identityMapLimit ≤ phys then (0, { m with pmm := s.freePage phys })
  else (phys / pageSize, { m with pmm := s }.fill (phys / pageSize) fun _ => 0)

/-- One level of `map_page`: the table below entry `i`, allocated when it is missing. -/
def Machine.descend (m : Machine) (table i upper : Nat) : Option Nat × Machine :=
  let w := m.ram table i
  if present w then (some (frameOf w), m.store table i (w ||| upper))
  else
    let (f, m) := m.allocPage
    if f = 0 then (none, m) else (some f, m.store table i (entry f upper))

def Machine.descendAll (upper : Nat) : Nat → List Nat → Machine → Option Nat × Machine
  | table, [], m => (some table, m)
  | table, i :: is, m =>
    match m.descend table i upper with
    | (none, m) => (none, m)
    | (some t, m) => descendAll upper t is m

def Machine.tableFor (m : Machine) (pml4 va upper : Nat) : Option Nat × Machine :=
  m.descendAll upper pml4 [pml4Index va, pdptIndex va, pdIndex va]

/-- `map_page`; `frame` is the frame of `pa`. -/
def Machine.mapPage (m : Machine) (pml4 va frame flags : Nat) : Bool × Machine :=
  let upper := if user flags then 7 else 3
  match m.tableFor pml4 va upper with
  | (none, m) => (false, m)
  | (some pt, m) => (true, m.store pt (ptIndex va) (entry frame flags))

/-- A new top-level table that shares the kernel's directories, or 0. -/
def Machine.createAddressSpace (m : Machine) (kernelPml4 : Nat) : Nat × Machine :=
  let (pml4, m) := m.allocPage
  if pml4 = 0 then (0, m)
  else
    let m := m.fill pml4 fun i =>
      if 256 ≤ i ∧ i < 512 then m.ram kernelPml4 i else m.ram pml4 i
    let (pdpt, m) := m.allocPage
    if pdpt = 0 then (0, m.freePage pml4)
    else
      let kernelPdpt := frameOf (m.ram kernelPml4 0)
      let m :=
        if kernelPdpt ≠ 0 then
          m.fill pdpt fun i => if i < 512 then m.ram kernelPdpt i else m.ram pdpt i
        else m
      (pml4, m.store pml4 0 (entry pdpt 7))

/-- `for` over the present entries of a table; the body stops the loop with `false`. -/
def Machine.eachEntry (table : Nat) (body : Nat → Nat → Machine → Bool × Machine) :
    List Nat → Machine → Bool × Machine
  | [], m => (true, m)
  | i :: is, m =>
    if present (m.ram table i) then
      match body i (m.ram table i) m with
      | (true, m) => eachEntry table body is m
      | (false, m) => (false, m)
    else eachEntry table body is m

def Machine.eachLeaf (pml4 : Nat) (body : Nat → Nat → Nat → Nat → Nat → Nat → Machine → Bool × Machine) :
    Machine → Bool × Machine :=
  eachEntry pml4 (fun i4 e4 =>
    eachEntry (frameOf e4) (fun i3 e3 =>
      eachEntry (frameOf e3) (fun i2 e2 =>
        eachEntry (frameOf e2) (fun i1 e1 => body i4 i3 i2 i1 (frameOf e2) e1)
          (List.range 512))
        (List.range 512))
      (List.range 512))
    (List.range 256)

structure Framebuffer where
  address : Nat
  size : Nat
  below_top : address + size < 2^64

def Framebuffer.phys (fb : Framebuffer) : Nat :=
  if 0xffff800000000000 ≤ fb.address then fb.address - 0xffff800000000000 else fb.address

def Framebuffer.isFbPhysAddress (fb : Framebuffer) (phys : Nat) : Bool :=
  fb.address ≠ 0 && fb.size ≠ 0 && fb.phys ≤ phys && phys < fb.phys + fb.size

def Machine.releaseLeaf (fb : Framebuffer) (_ _ _ i1 pt e : Nat) (m : Machine) : Bool × Machine :=
  if user e then
    if fb.isFbPhysAddress (frameOf e * pageSize) then (true, m)
    else (true, (m.freePage (frameOf e)).store pt i1 0)
  else (true, m)

def Machine.destroyUserPages (m : Machine) (fb : Framebuffer) (pml4 : Nat) : Machine :=
  (eachLeaf pml4 (releaseLeaf fb) m).2

def vaOf (i4 i3 i2 i1 : Nat) : Nat := i4 * 2^39 + i3 * 2^30 + i2 * 2^21 + i1 * 2^12

def Machine.copyLeaf (fb : Framebuffer) (dst i4 i3 i2 i1 _pt e : Nat) (m : Machine) :
    Bool × Machine :=
  if user e then
    if fb.isFbPhysAddress (frameOf e * pageSize) then
      (true, (m.mapPage dst (vaOf i4 i3 i2 i1) (frameOf e) (flagsOf e)).2)
    else
      let (page, m) := m.allocPage
      if page = 0 then (false, m)
      else
        let m := m.fill page (m.ram (frameOf e))
        match m.mapPage dst (vaOf i4 i3 i2 i1) page (flagsOf e) with
        | (true, m) => (true, m)
        | (false, m) => (false, m.freePage page)
  else (true, m)

def Machine.cloneUserPages (m : Machine) (fb : Framebuffer) (dst src : Nat) : Bool × Machine :=
  eachLeaf src (copyLeaf fb dst) m

def lookup (ram : Ram) (table i : Nat) : Option Nat :=
  if present (ram table i) then some (ram table i) else none

def leafEntry (ram : Ram) (pml4 va : Nat) : Option Nat := do
  let e4 ← lookup ram pml4 (pml4Index va)
  let e3 ← lookup ram (frameOf e4) (pdptIndex va)
  let e2 ← lookup ram (frameOf e3) (pdIndex va)
  lookup ram (frameOf e2) (ptIndex va)

structure Translation where
  frame : Nat
  user : Bool
  writable : Bool
deriving DecidableEq

/-- Frame and permissions of a virtual address: a permission holds when all four entries give
it. -/
def translate (ram : Ram) (pml4 va : Nat) : Option Translation := do
  let e4 ← lookup ram pml4 (pml4Index va)
  let e3 ← lookup ram (frameOf e4) (pdptIndex va)
  let e2 ← lookup ram (frameOf e3) (pdIndex va)
  let e1 ← lookup ram (frameOf e2) (ptIndex va)
  return ⟨frameOf e1, user e4 && user e3 && user e2 && user e1,
    writable e4 && writable e3 && writable e2 && writable e1⟩

/-- The kernel's own tables leave the slot of the address empty where new address spaces copy
them: the 1 GiB slot under entry 0, or the whole entry in the upper half. -/
def Machine.vacant (m : Machine) (kernelPml4 va : Nat) : Bool :=
  if pml4Index va = 0 then
    !(present (m.ram kernelPml4 0) &&
      present (m.ram (frameOf (m.ram kernelPml4 0)) (pdptIndex va)))
  else !(256 ≤ pml4Index va && present (m.ram kernelPml4 (pml4Index va)))

section words

@[simp] theorem present_zero : present 0 = false := by decide

theorem frameOf_or {w u : Nat} (hu : u < 4096) : frameOf (w ||| u) = frameOf w := by
  have h := Nat.shiftRight_or_distrib (a := w) (b := u) (i := 12)
  simp only [Nat.shiftRight_eq_div_pow] at h
  have hz : u / 2^12 = 0 := Nat.div_eq_of_lt hu
  rw [hz, Nat.or_zero] at h
  exact h

theorem frameOf_entry {f u : Nat} (hu : u < 4096) : frameOf (entry f u) = f := by
  rw [entry, frameOf_or hu, frameOf, Nat.mul_div_cancel _ (by norm_num)]

theorem flagsOf_entry {f u : Nat} (hu : u < 4096) : flagsOf (entry f u) = u := by
  have h := Nat.two_pow_add_eq_or_of_lt (b := u) (i := 12) hu f
  rw [entry, flagsOf, Nat.mul_comm, ← h]
  omega

theorem testBit_frame (f : Nat) {i : Nat} (hi : i < 12) : (f * 4096).testBit i = false := by
  rw [show 4096 = 2^12 by norm_num, Nat.testBit_mul_two_pow]
  simp [Nat.not_le.mpr hi]

theorem present_entry (f u : Nat) : present (entry f u) = present u := by
  simp only [present, entry, Nat.testBit_or, testBit_frame f (show 0 < 12 by norm_num),
    Bool.false_or]

theorem user_entry (f u : Nat) : user (entry f u) = user u := by
  simp only [user, entry, Nat.testBit_or, testBit_frame f (show 2 < 12 by norm_num),
    Bool.false_or]

theorem present_or (w u : Nat) : present (w ||| u) = (present w || present u) := by
  simp only [present, Nat.testBit_or]

theorem entry_frameOf_flagsOf (w : Nat) : entry (frameOf w) (flagsOf w) = w := by
  have h := Nat.two_pow_add_eq_or_of_lt (b := w % 4096) (i := 12) (Nat.mod_lt w (by norm_num))
    (w / 4096)
  rw [entry, frameOf, flagsOf, Nat.mul_comm, ← h]
  exact Nat.div_add_mod w 4096

end words

end LosTacOS.Mm
