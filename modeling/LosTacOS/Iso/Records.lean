import LosTacOS.Lib.ByteMemory
import Mathlib.Data.List.TakeWhile

/-! Directory records of ISO 9660 in memory, their names as `isofs_open` and `isofs_list` read them,
and the two loops over a directory. A load outside the buffer is a fault, `none`. -/
namespace LosTacOS.Iso

open ByteMemory

section names

/-- `c += 32` for the letters `A` to `Z`. -/
def lower (c : UInt8) : UInt8 := if 'A'.toUInt8 ≤ c ∧ c ≤ 'Z'.toUInt8 then c + 32 else c

def isDigit (c : UInt8) : Bool := '0'.toUInt8 ≤ c && c ≤ '9'.toUInt8

def stem (name : List UInt8) : List UInt8 := name.takeWhile (· ≠ ';'.toUInt8)

/-- `isofs_open`'s loop back to the last dot, over a name without a semicolon; `j` counts down. -/
def versionCut (name : List UInt8) : Nat → Nat
  | 0 => name.length
  | j + 1 =>
    if name.getD j 0 = '.'.toUInt8 then
      if 2 ≤ j ∧ name.getD (j - 1) 0 = ';'.toUInt8 ∧ name.getD (j - 2) 0 = '1'.toUInt8 then j - 2
      else name.length
    else versionCut name j

def openName (name : List UInt8) : List UInt8 :=
  if 2 ≤ name.length ∧ name.headD 0 = 0 then ['.'.toUInt8]
  else if 2 ≤ name.length ∧ name.headD 0 = 1 then ['.'.toUInt8, '.'.toUInt8]
  else
    let cut := if ';'.toUInt8 ∈ name then (stem name).length
      else versionCut (stem name) (stem name).length
    ((stem name).take cut).map lower

def stemReads (name : List UInt8) : Nat := min name.length ((stem name).length + 1)

def openReads (name : List UInt8) : Nat :=
  if 2 ≤ name.length ∧ (name.headD 0 = 0 ∨ name.headD 0 = 1) then 1 else stemReads name

/-- `isofs_list`'s loop over the name: a dot before nothing but digits becomes a NUL. -/
def markVersion : List UInt8 → List UInt8
  | [] => []
  | c :: cs =>
    (if lower c = '.'.toUInt8 ∧ cs.all isDigit then 0 else lower c) :: markVersion cs

/-- The name that `isofs_list` prints, which ends at the first NUL. -/
def listName (name : List UInt8) : List UInt8 := (markVersion (stem name)).takeWhile (· ≠ 0)

end names

section loads

structure Buffer where
  addr : Nat
  size : Nat

def Buffer.holds (b : Buffer) (a n : Nat) : Prop := b.addr ≤ a ∧ a + n ≤ b.addr + b.size

instance (b : Buffer) (a n : Nat) : Decidable (b.holds a n) := inferInstanceAs (Decidable (_ ∧ _))

def Buffer.load (b : Buffer) (m : Mem) (a n : Nat) : Option Nat :=
  if b.holds a n then some (loadLE m a n) else none

/-- The fields of `IsoDirectoryRecord` that are looked at, of the record at `rec`. -/
def recLength (m : Mem) (rec : Nat) : Nat := (m rec).toNat
def recExtent (m : Mem) (rec : Nat) : UInt32 := UInt32.ofNat (loadLE m (rec + 2) 4)
def recSize (m : Mem) (rec : Nat) : UInt32 := UInt32.ofNat (loadLE m (rec + 10) 4)
def recFlags (m : Mem) (rec : Nat) : UInt8 := m (rec + 25)
def recNameLen (m : Mem) (rec : Nat) : Nat := (m (rec + 32)).toNat
def recName (m : Mem) (rec : Nat) : List UInt8 :=
  (List.range (recNameLen m rec)).map fun j => m (rec + 33 + j)

def isDirectory (flags : UInt8) : Bool := flags &&& 0x02 ≠ 0

end loads

section loops

variable (m : Mem) (b : Buffer)

/-- `isofs_open`'s loop over a directory that ends at `stop`: the record with a component's name. -/
def findRecord (component : List UInt8) (stop ptr : Nat) : Option (Option Nat) :=
  if ptr < stop then
    if b.holds ptr 1 then
      if recLength m ptr = 0 then findRecord component stop (ptr + 1)
      else if stop < ptr + recLength m ptr then some none
      else if b.holds (ptr + 32) 1 ∧ b.holds (ptr + 33) (openReads (recName m ptr)) then
        if openName (recName m ptr) = component then some (some ptr)
        else findRecord component stop (ptr + recLength m ptr)
      else none
    else none
  else some none
termination_by stop - ptr

/-- A line that `isofs_list` prints: the name, and whether a slash follows. -/
structure Line where
  name : List UInt8
  slash : Bool
deriving DecidableEq

def listRecords (stop ptr : Nat) : Option (List Line) :=
  if ptr < stop then
    if b.holds ptr 1 then
      if recLength m ptr = 0 then listRecords stop (ptr + 1)
      else if stop < ptr + recLength m ptr then some []
      else if b.holds (ptr + 32) 1 ∧ b.holds (ptr + 33) (stemReads (recName m ptr)) then
        if recNameLen m ptr = 1 ∧ (m (ptr + 33) = 0 ∨ m (ptr + 33) = 1) then
          listRecords stop (ptr + recLength m ptr)
        else if b.holds (ptr + 25) 1 then
          (listRecords stop (ptr + recLength m ptr)).map
            (⟨listName (recName m ptr), isDirectory (recFlags m ptr)⟩ :: ·)
        else none
      else none
    else none
  else some []
termination_by stop - ptr

end loops

end LosTacOS.Iso
