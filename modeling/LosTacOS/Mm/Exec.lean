import LosTacOS.Lib.ByteMemory
import LosTacOS.Mm.Boot
import LosTacOS.Mm.Spaces

/-! Processes as the memory system sees them: loading a program, building its stack, `spawn`,
`execve`, `fork`, `mmap` and the end of a process. -/
namespace LosTacOS.Mm
open ByteMemory

structure Elf64Phdr where
  pType : Nat
  pOffset : Nat
  pVaddr : Nat
  pFilesz : Nat
  pMemsz : Nat
deriving DecidableEq

def ptLoad : Nat := 1

/-- Program header `i` of the file; the bytes past its end are whatever memory holds. -/
def phdr (data : Mem) (i : Nat) : Elf64Phdr :=
  let b := loadLE data 32 8 + 56 * i
  ⟨loadLE data b 4, loadLE data (b + 8) 8, loadLE data (b + 16) 8, loadLE data (b + 32) 8,
    loadLE data (b + 40) 8⟩

def isElf (data : Mem) : Bool :=
  data 0 == 0x7f && data 1 == 0x45 && data 2 == 0x4c && data 3 == 0x46

def ePhnum (data : Mem) : Nat := loadLE data 56 2
def eEntry (data : Mem) : Nat := loadLE data 24 8

def Elf64Phdr.segStart (ph : Elf64Phdr) : Nat := ph.pVaddr / 4096 * 4096

def Elf64Phdr.segEnd (ph : Elf64Phdr) : Nat :=
  (ph.pVaddr + ph.pMemsz + 0xFFF) % 2^64 / 4096 * 4096

def Elf64Phdr.pageCount (ph : Elf64Phdr) : Nat := (ph.segEnd - ph.segStart) / 4096

/-- The words `load` copies into the zeroed page at `addr`, when the file reaches it. -/
def Elf64Phdr.pageWords (data : Mem) (ph : Elf64Phdr) (addr : Nat) : Option (Nat → Nat) :=
  let fileEnd := (ph.pVaddr + ph.pFilesz) % 2^64
  let copyStart := if addr < ph.pVaddr then ph.pVaddr else addr
  let copyEnd := if fileEnd < addr + 0x1000 then fileEnd else addr + 0x1000
  if copyStart < copyEnd then
    let fileOff := (ph.pOffset + (copyStart - ph.pVaddr)) % 2^64
    let pageOff := copyStart - addr
    let len := copyEnd - copyStart
    some fun i => loadLE
      (fun b => if pageOff ≤ b ∧ b < pageOff + len then data (fileOff + (b - pageOff)) else 0)
      (8 * i) 8
  else none

def Machine.copyIn (m : Machine) (f : Nat) : Option (Nat → Nat) → Machine
  | some ws => m.fill f ws
  | none => m

/-- Maps up to `n` new user pages from `addr` on, until a page is refused. The number of pages
mapped is the first result; `map_page` may fail unnoticed. -/
def Machine.mapFresh (pml4 : Nat) (contents : Nat → Option (Nat → Nat)) :
    Nat → Nat → Machine → Nat × Machine
  | 0, _, m => (0, m)
  | n + 1, addr, m =>
    let (f, m) := m.allocPage
    if f = 0 then (0, m)
    else
      let m := (m.mapPage pml4 addr f 7).2.copyIn f (contents addr)
      let (done, m) := mapFresh pml4 contents n (addr + 0x1000) m
      (done + 1, m)

def Machine.loadSegments (pml4 : Nat) (data : Mem) : List Elf64Phdr → Machine → Bool × Machine
  | [], m => (true, m)
  | ph :: phs, m =>
    if ph.pType = ptLoad then
      let (done, m) := mapFresh pml4 (ph.pageWords data) ph.pageCount ph.segStart m
      if done < ph.pageCount then (false, m) else loadSegments pml4 data phs m
    else loadSegments pml4 data phs m

def segments (data : Mem) : List Elf64Phdr := (List.range (ePhnum data)).map (phdr data)

/-- `elf::load`: the entry point, or 0. There is no file when the path does not resolve to a node
with content. -/
def Machine.load (m : Machine) (pml4 : Nat) (file : Option Mem) : Nat × Machine :=
  match file with
  | none => (0, m)
  | some data =>
    if isElf data then
      match loadSegments pml4 data (segments data) m with
      | (true, m) => (eEntry data, m)
      | (false, m) => (0, m)
    else (0, m)

def fileOf (bytes : List (Nat × UInt8)) : Mem := fun a => (bytes.lookup a).getD 0

def stackTop : Nat := 0x8000000000
def stackPages : Nat := 64
def stackBase : Nat := stackTop - stackPages * 0x1000

/-- The loop of `create_user_stack`: a page that was refused is mapped all the same, as frame 0. -/
def Machine.mapStack (pml4 : Nat) : Nat → Nat → Nat → Machine → Nat × Machine
  | 0, _, top, m => (top, m)
  | n + 1, addr, top, m =>
    let (f, m) := m.allocPage
    let m := (m.mapPage pml4 addr f 7).2
    mapStack pml4 n (addr + 0x1000) (if addr + 0x1000 = stackTop then f else top) m

/-- `create_user_stack`, with the three words it clears at the top. -/
def Machine.createUserStack (m : Machine) (pml4 : Nat) : Machine :=
  let (top, m) := mapStack pml4 stackPages stackBase 0 m
  ((m.store top 511 0).store top 510 0).store top 509 0

structure Proc where
  pml4 : Nat
  mmapNext : Nat

structure Sys where
  mm : Machine
  procs : Nat → Option Proc
  pidCounter : Nat

structure Luck where
  process : Bool
  space : Bool
  table : Bool
  task : Bool
  stack : Bool
deriving DecidableEq

/-- `AddressSpace::create` with `PageTable::create`. -/
def Machine.createSpace (m : Machine) (k : Nat) (luck : Luck) : Nat × Machine :=
  if luck.space && luck.table then m.createAddressSpace k else (0, m)

inductive Event where
  | spawn (luck : Luck) (file : Option Mem)
  | exec (pid : Nat) (luck : Luck) (file : Option Mem)
  | fork (pid : Nat) (luck : Luck)
  | mmap (pid : Nat) (len : Nat)
  | exit (pid : Nat)

def Event.actor : Event → Option Nat
  | .spawn _ _ => none
  | .exec pid _ _ => some pid
  | .fork pid _ => some pid
  | .mmap pid _ => some pid
  | .exit pid => some pid

section step

variable (k : Nat) (fb : Framebuffer)

/-- `sched::spawn`; on every failure the address space is leaked. -/
def Sys.spawn (s : Sys) (luck : Luck) (file : Option Mem) : Sys :=
  if luck.process then
    let pid := s.pidCounter
    let (pml4, m) := s.mm.createSpace k luck
    if pml4 = 0 then { s with mm := m, pidCounter := pid + 1 }
    else
      let (entry, m) := m.load pml4 file
      if entry = 0 ∨ !(luck.task && luck.stack) then { s with mm := m, pidCounter := pid + 1 }
      else
        { mm := m.createUserStack pml4
          procs := Function.update s.procs pid (some ⟨pml4, 0⟩)
          pidCounter := pid + 1 }
  else s

def Sys.exec (s : Sys) (pid : Nat) (p : Proc) (luck : Luck) (file : Option Mem) : Sys :=
  let (pml4, m) := s.mm.createSpace k luck
  if pml4 = 0 then { s with mm := m }
  else
    let (entry, m) := m.load pml4 file
    if entry = 0 then { s with mm := m.destroyUserPages fb pml4 }
    else
      { s with
        mm := (m.destroyUserPages fb p.pml4).createUserStack pml4
        procs := Function.update s.procs pid (some ⟨pml4, 0⟩) }

def Sys.fork (s : Sys) (p : Proc) (luck : Luck) : Sys :=
  if luck.process then
    let pid := s.pidCounter
    let (pml4, m) := s.mm.createSpace k luck
    if pml4 = 0 then { s with mm := m, pidCounter := pid + 1 }
    else
      let (ok, m) := m.cloneUserPages fb pml4 p.pml4
      if ok && luck.task && luck.stack then
        { mm := m
          procs := Function.update s.procs pid (some ⟨pml4, p.mmapNext⟩)
          pidCounter := pid + 1 }
      else { s with mm := m.destroyUserPages fb pml4, pidCounter := pid + 1 }
  else s

def mmapBase : Nat := 0x50000000

def Proc.mmapAddr (p : Proc) : Nat := if p.mmapNext = 0 then mmapBase else p.mmapNext

def mmapPages (len : Nat) : Nat := (len + 0xFFF) % 2^64 / 0x1000

def Sys.mmap (s : Sys) (pid : Nat) (p : Proc) (len : Nat) : Sys :=
  if len = 0 then s
  else
    let (done, m) :=
      s.mm.mapFresh p.pml4 (fun _ => none) (mmapPages len) p.mmapAddr
    { s with
      mm := m
      procs := Function.update s.procs pid (some { p with mmapNext := p.mmapAddr + done * 0x1000 }) }

/-- `remove_and_destroy`, whatever brought the process to its end. -/
def Sys.exit (s : Sys) (pid : Nat) (p : Proc) : Sys :=
  { s with
    mm := s.mm.destroyUserPages fb p.pml4
    procs := Function.update s.procs pid none }

/-- One step; a pid without a process does nothing. -/
def Sys.step (s : Sys) : Event → Sys
  | .spawn luck file => s.spawn k luck file
  | .exec pid luck file =>
    match s.procs pid with
    | some p => s.exec k fb pid p luck file
    | none => s
  | .fork pid luck =>
    match s.procs pid with
    | some p => s.fork k fb p luck
    | none => s
  | .mmap pid len =>
    match s.procs pid with
    | some p => s.mmap pid p len
    | none => s
  | .exit pid =>
    match s.procs pid with
    | some p => s.exit fb pid p
    | none => s

end step

structure KernelTable (img : KernelImage) where
  frame : Nat
  covered : img.Covers frame
  pos : 0 < frame
  low : frame < identityMapLimit / pageSize

/-- Memory as the kernel's own set-up leaves it: after `paging::init` any mappings without the
user flag, the framebuffer's pages with it, and pages drawn by drivers. -/
inductive KernelBoot (f : Pmm → Pmm) (img : KernelImage) (tags : List Tag) (kt : KernelTable img)
    (fb : Framebuffer) : Machine → Prop
  | init {ram : Ram} : (∀ i, ram kt.frame i = 0) →
      KernelBoot f img tags kt fb ⟨(boot f img tags).pmm, ram⟩
  | map {m : Machine} {va pa : Nat} : KernelBoot f img tags kt fb m →
      KernelBoot f img tags kt fb (m.mapPage kt.frame va pa 3).2
  | framebuffer {m : Machine} {i : Nat} : KernelBoot f img tags kt fb m → fb.address ≠ 0 →
      i * pageSize < fb.address % pageSize + fb.size →
      KernelBoot f img tags kt fb
        (m.mapPage kt.frame (fb.address + i * pageSize) (fb.phys / pageSize + i) 7).2
  | alloc {m : Machine} : KernelBoot f img tags kt fb m → KernelBoot f img tags kt fb m.allocPage.2

def Machine.lacking (m : Machine) : Nat → List Nat → Nat
  | _, [] => 0
  | t, i :: is =>
    if present (m.ram t i) then lacking m (frameOf (m.ram t i)) is else is.length + 1

/-- How many tables are missing on the way to the page of `va`. -/
def Machine.missing (m : Machine) (pml4 va : Nat) : Nat :=
  m.lacking pml4 [pml4Index va, pdptIndex va, pdIndex va]

/-- The next `n` page allocations succeed. -/
def Machine.supplies : Nat → Machine → Bool
  | 0, _ => true
  | n + 1, m => m.allocPage.1 ≠ 0 && supplies n m.allocPage.2

section policies

variable (k : Nat)

def Machine.LoadVacant (pml4 : Nat) (data : Mem) : List Elf64Phdr → Machine → Prop
  | [], _ => True
  | ph :: phs, m =>
    if ph.pType = ptLoad then
      let r := m.mapFresh pml4 (ph.pageWords data) ph.pageCount ph.segStart
      (∀ i < r.1, m.vacant k (ph.segStart + i * 0x1000) = true) ∧
        (r.1 = ph.pageCount → LoadVacant pml4 data phs r.2)
    else LoadVacant pml4 data phs m

def Machine.ProgramVacant (m : Machine) (luck : Luck) (file : Option Mem) : Prop :=
  let r := m.createSpace k luck
  r.1 ≠ 0 → ∀ data ∈ file, isElf data = true → r.2.LoadVacant k r.1 data (segments data)

def Sys.MapsVacant (s : Sys) : Event → Prop
  | .spawn luck file => luck.process = true → s.mm.ProgramVacant k luck file
  | .exec pid luck file => (s.procs pid).isSome → s.mm.ProgramVacant k luck file
  | .mmap pid len => ∀ p ∈ s.procs pid,
      ∀ i < (s.mm.mapFresh p.pml4 (fun _ => none) (mmapPages len) p.mmapAddr).1,
        s.mm.vacant k (p.mmapAddr + i * 0x1000) = true
  | _ => True

/-- The allocator can supply every page that `create_user_stack` asks for: the pages of the stack
and the tables above them that are still missing. -/
def Machine.StackSupplied (m : Machine) (pml4 : Nat) : Prop :=
  m.supplies (stackPages + m.missing pml4 stackBase) = true

/-- Steps whose user stack can be supplied, if they come to build one: there is an address space and
a program in it, and `spawn` has memory for the task and its kernel stack. -/
def Sys.StacksSupplied (fb : Framebuffer) (s : Sys) : Event → Prop
  | .spawn luck file =>
    let r := s.mm.createSpace k luck
    let r' := r.2.load r.1 file
    luck.process = true → r.1 ≠ 0 → r'.1 ≠ 0 → (luck.task && luck.stack) = true →
      r'.2.StackSupplied r.1
  | .exec pid luck file =>
    let r := s.mm.createSpace k luck
    let r' := r.2.load r.1 file
    ∀ p ∈ s.procs pid, r.1 ≠ 0 → r'.1 ≠ 0 → (r'.2.destroyUserPages fb p.pml4).StackSupplied r.1
  | _ => True

end policies

inductive Sys.Reached (k : Nat) (fb : Framebuffer) (P : Sys → Event → Prop) (s₀ : Sys) : Sys → Prop
  | start : Reached k fb P s₀ s₀
  | step {s : Sys} {e : Event} : Reached k fb P s₀ s → P s e → Reached k fb P s₀ (s.step k fb e)

def Sys.idle (m : Machine) : Sys := ⟨m, fun _ => none, 1⟩

end LosTacOS.Mm
