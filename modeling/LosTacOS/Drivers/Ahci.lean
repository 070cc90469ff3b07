import Mathlib.Logic.Function.Basic
import Mathlib.Data.List.FinRange

/-! The AHCI driver: command headers and tables in memory, and what they hold when a command is
issued. What the registers of the port read is up to the controller. -/
namespace LosTacOS.Drivers.Ahci

section memory

structure CmdHeader where
  cfl : UInt8
  a : Bool
  w : Bool
  prdtl : UInt16
  prdbc : UInt32
  ctba : UInt32
  ctbau : UInt32
deriving DecidableEq

def CmdHeader.zero : CmdHeader := ⟨0, false, false, 0, 0, 0, 0⟩

/-- `HbaPrdtEntry`; `dbc` has 22 bits. -/
structure PrdtEntry where
  dba : UInt32
  dbau : UInt32
  dbc : UInt32
  i : Bool
deriving DecidableEq

def PrdtEntry.zero : PrdtEntry := ⟨0, 0, 0, false⟩

/-- `FisRegH2D`, as far as the driver fills it in. -/
structure FisRegH2D where
  type : UInt8
  c : Bool
  command : UInt8
  lba0 : UInt8
  lba1 : UInt8
  lba2 : UInt8
  device : UInt8
  lba3 : UInt8
  lba4 : UInt8
  lba5 : UInt8
  countLow : UInt8
  countHigh : UInt8
deriving DecidableEq

def FisRegH2D.zero : FisRegH2D := ⟨0, false, 0, 0, 0, 0, 0, 0, 0, 0, 0, 0⟩

/-- `HbaCmdTable`: the FIS, the packet of an ATAPI command, the one entry of the PRDT. -/
structure CmdTable where
  cfis : FisRegH2D
  acmd : List UInt8
  prdt : PrdtEntry
deriving DecidableEq

def CmdTable.zero : CmdTable := ⟨.zero, List.replicate 16 0, .zero⟩

/-- The blocks that `probe_port` gets from `kmalloc`: 16-byte aligned, and not null. The code does not
test that, but ports are probed at boot, when the heap has room for all of them. -/
structure Blocks where
  cmd : UInt64
  fis : UInt64
  table : UInt64
  buffer : UInt64
  aligned : cmd % 16 = 0 ∧ fis % 16 = 0 ∧ table % 16 = 0 ∧ buffer % 16 = 0
  cmd_pos : cmd ≠ 0
  fis_pos : fis ≠ 0
  table_pos : table ≠ 0

def low (p : UInt64) : UInt32 := p.toUInt32

def high (p : UInt64) : UInt32 := (p >>> 32).toUInt32

end memory

section commands

def ataReadDmaExt : UInt8 := 0x25
def ataWriteDmaExt : UInt8 := 0x35
def ataIdentify : UInt8 := 0xEC
def ataIdentifyPacket : UInt8 := 0xA1
def ataPacket : UInt8 := 0xA0

inductive Command where
  /-- `bytes` are to be transferred for the sectors from `lba` on -/
  | ata (command : UInt8) (lba : UInt64) (count : UInt32) (bytes : UInt32)
  | atapiIdentify
  | packet (bytes : List UInt8) (len : UInt64)
deriving DecidableEq

def Command.fis : Command → FisRegH2D
  | .ata command lba count _ =>
    ⟨0x27, true, command, lba.toUInt8, (lba >>> 8).toUInt8, (lba >>> 16).toUInt8, 64,
      (lba >>> 24).toUInt8, (lba >>> 32).toUInt8, (lba >>> 40).toUInt8, count.toUInt8,
      (count >>> 8).toUInt8⟩
  | .atapiIdentify => { FisRegH2D.zero with type := 0x27, c := true, command := ataIdentifyPacket }
  | .packet _ _ => { FisRegH2D.zero with type := 0x27, c := true, command := ataPacket }

/-- The entry for a transfer of `bytes` to or from the buffer. -/
def transfer (buffer : UInt64) (bytes : UInt32) : PrdtEntry :=
  ⟨low buffer, high buffer, (bytes - 1) &&& 0x3fffff, true⟩

def Command.prdt (buffer : UInt64) : Command → PrdtEntry
  | .ata _ _ _ bytes => transfer buffer bytes
  | .atapiIdentify => transfer buffer 512
  | .packet _ len => if 0 < len then transfer buffer len.toUInt32 else .zero

/-- What lies in memory at the moment a bit is set in `port->ci`. -/
structure Issue where
  slot : Fin 32
  command : Command
  header : CmdHeader
  table : CmdTable
deriving DecidableEq

/-- `AhciPortInfo` and the memory behind its pointers. -/
structure Port where
  blocks : Blocks
  active : Bool
  isAtapi : Bool
  cmdList : Fin 32 → CmdHeader
  cmdTable : CmdTable
  /-- the commands issued so far, newest first -/
  issued : List Issue

end commands

section driver

/-- What the controller does during one command: what its registers read in `find_slot` and in each
round of `wait`, and the number of bytes it writes back to the header. -/
structure Controller where
  sact : UInt32
  ci : UInt32
  polled : Nat → UInt32 × UInt32 × UInt32
  prdbc : UInt32

def findSlot (hba : Controller) : Option (Fin 32) :=
  (List.finRange 32).find? fun i => ((hba.sact ||| hba.ci) >>> UInt32.ofNat i) % 2 = 0

/-- `wait`; a round reads `ci`, `tfd` and `is`. -/
def wait (polled : Nat → UInt32 × UInt32 × UInt32) (slot : Fin 32) : Nat → Bool
  | 0 => false
  | timeout + 1 =>
    let (ci, tfd, is) := polled timeout
    if (ci >>> UInt32.ofNat slot) % 2 = 0 then tfd &&& 1 = 0
    else if is &&& 0x40000000 ≠ 0 then false
    else wait polled slot timeout

variable (hba : Controller)

def Port.setupCommand (p : Port) (slot : Fin 32) (write : Bool) (count : UInt32) : Port :=
  { p with
    cmdList := Function.update p.cmdList slot
      { CmdHeader.zero with cfl := 5, w := write, prdtl := 1 }
    cmdTable := { CmdTable.zero with prdt := transfer p.blocks.buffer (count * 512) } }

def Port.createFis (p : Port) (command : UInt8) (lba : UInt64) (count : UInt32) : Port :=
  { p with
    cmdTable := { p.cmdTable with
      cfis :=
        { type := 0x27, c := true, command, device := (1 : UInt8) <<< 6
          lba0 := lba.toUInt8
          lba1 := (lba >>> 8).toUInt8
          lba2 := (lba >>> 16).toUInt8
          lba3 := (lba >>> 24).toUInt8
          lba4 := (lba >>> 32).toUInt8
          lba5 := (lba >>> 40).toUInt8
          countLow := (count &&& 0xff).toUInt8
          countHigh := (count >>> 8).toUInt8 } } }

def Port.issue (p : Port) (slot : Fin 32) (command : Command) : Bool × Port :=
  let p := { p with issued := ⟨slot, command, p.cmdList slot, p.cmdTable⟩ :: p.issued }
  let header := { p.cmdList slot with prdbc := hba.prdbc }
  (wait hba.polled slot 1000000, { p with cmdList := Function.update p.cmdList slot header })

def Port.submitCommand (p : Port) (command : UInt8) (lba : UInt64) (count : UInt32)
    (write : Bool) : Bool × Port :=
  match findSlot hba with
  | none => (false, p)
  | some slot =>
    ((p.setupCommand slot write count).createFis command lba count).issue hba slot
      (.ata command lba count (count * 512))

def Port.identify (p : Port) : Bool × Port :=
  match findSlot hba with
  | none => (false, p)
  | some slot =>
    ((p.setupCommand slot false 1).createFis ataIdentify 0 0).issue hba slot
      (.ata ataIdentify 0 0 512)

def Port.atapiIdentify (p : Port) : Bool × Port :=
  match findSlot hba with
  | none => (false, p)
  | some slot =>
    let p := { p with
      cmdList := Function.update p.cmdList slot { CmdHeader.zero with cfl := 5, prdtl := 1 }
      cmdTable := { CmdTable.zero with
        prdt := ⟨low p.blocks.buffer, high p.blocks.buffer, 511, true⟩
        cfis := { FisRegH2D.zero with type := 0x27, c := true, command := ataIdentifyPacket } } }
    p.issue hba slot .atapiIdentify

def Port.sendPacket (p : Port) (packet : List UInt8) (len : UInt64) (write : Bool) : Bool × Port :=
  if p.active && p.isAtapi then
    match findSlot hba with
    | none => (false, p)
    | some slot =>
      let p := { p with
        cmdList := Function.update p.cmdList slot
          { CmdHeader.zero with cfl := 5, w := write, a := true, prdtl := if 0 < len then 1 else 0 }
        cmdTable := { CmdTable.zero with
          acmd := packet.take 16 ++ List.replicate (16 - packet.length) 0
          cfis := { FisRegH2D.zero with type := 0x27, c := true, command := ataPacket } } }
      let p := if 0 < len then
          { p with cmdTable := { p.cmdTable with
              prdt := ⟨low p.blocks.buffer, high p.blocks.buffer,
                (len - 1).toUInt32 &&& 0x3fffff, true⟩ } }
        else p
      p.issue hba slot (.packet packet len)
  else (false, p)

/-- The loop of `read` and `write` over chunks of at most 128 sectors. Each command meets the
controller in another state. -/
def Port.chunks (hbas : Nat → Controller) (command : UInt8) (write : Bool) (p : Port)
    (lba : UInt64) : Nat → Nat → Bool × Port
  | 0, _ => (true, p)
  | rounds + 1, remaining =>
    if remaining = 0 then (true, p)
    else
      let chunk := min remaining 128
      match p.submitCommand (hbas rounds) command lba (UInt32.ofNat chunk) write with
      | (false, p) => (false, p)
      | (true, p) => p.chunks hbas command write (lba + UInt64.ofNat chunk) rounds (remaining - chunk)

inductive Request where
  | read (lba : UInt64) (count : UInt32)
  | write (lba : UInt64) (count : UInt32)
  | packet (bytes : List UInt8) (len : UInt64) (write : Bool)

def Port.serve (p : Port) (hbas : Nat → Controller) : Request → Bool × Port
  | .read lba count =>
    if p.active ∧ count ≠ 0 then p.chunks hbas ataReadDmaExt false lba count.toNat count.toNat
    else (false, p)
  | .write lba count =>
    if p.active ∧ count ≠ 0 then p.chunks hbas ataWriteDmaExt true lba count.toNat count.toNat
    else (false, p)
  | .packet bytes len write => p.sendPacket (hbas 0) bytes len write

/-- What `probe_port` reads before it sets a port up: the link status before and after a reset, the
task file in each round of `wait_not_busy`, the signature. -/
structure Probe where
  ssts : UInt32
  reset : UInt32
  tfd : Nat → UInt32
  sig : UInt32

def portLinkUp (ssts : UInt32) : Bool := ssts &&& 0xf = 3 && (ssts >>> 8) &&& 0xf = 1

def waitNotBusy (tfd : Nat → UInt32) : Nat → Bool
  | 0 => false
  | timeout + 1 => if tfd timeout &&& 0x88 = 0 then true else waitNotBusy tfd timeout

def probePort (r : Probe) (blocks : Blocks) : Option Port :=
  if (portLinkUp r.ssts || portLinkUp r.reset) && waitNotBusy r.tfd 1000000 then
    if r.sig = 0x00000101 ∨ r.sig = 0xEB140101 then
      let isAtapi : Bool := r.sig = 0xEB140101
      let cmd := { CmdHeader.zero with ctba := low blocks.table, ctbau := high blocks.table }
      let p : Port :=
        { blocks, isAtapi, active := true
          cmdList := Function.update (fun _ => CmdHeader.zero) 0 cmd
          cmdTable := .zero
          issued := [] }
      some (if isAtapi then (p.atapiIdentify hba).2 else (p.identify hba).2)
    else none
  else none

inductive Reached : Port → Prop
  | probe {r : Probe} {hba : Controller} {blocks : Blocks} {p : Port}
      (h : probePort hba r blocks = some p) : Reached p
  | serve {p : Port} (h : Reached p) (hbas : Nat → Controller) (req : Request) :
      Reached (p.serve hbas req).2

end driver

section issue

/-- A command that the controller can carry out: its header points to the port's command table, the
table holds its FIS and PRDT, and the structures are aligned as AHCI demands. -/
structure Issue.Ready (blocks : Blocks) (i : Issue) : Prop where
  base : i.header.ctba = low blocks.table ∧ i.header.ctbau = high blocks.table
  fis : i.table.cfis = i.command.fis
  prdt : i.table.prdt = i.command.prdt blocks.buffer
  list_aligned : blocks.cmd % 1024 = 0
  fis_aligned : blocks.fis % 256 = 0
  table_aligned : blocks.table % 128 = 0

structure Issue.Blank (blocks : Blocks) (i : Issue) : Prop where
  ctba : i.header.ctba = 0
  ctbau : i.header.ctbau = 0
  fis : i.table.cfis = i.command.fis
  prdt : i.table.prdt = i.command.prdt blocks.buffer

theorem eq_zero_of_halves {p : UInt64} (hl : low p = 0) (hh : high p = 0) : p = 0 := by
  have h1 : p.toNat % 2^32 = 0 := by simpa [low] using congrArg UInt32.toNat hl
  have h2 : p.toNat >>> 32 % 2^32 = 0 := by simpa [high] using congrArg UInt32.toNat hh
  rw [Nat.shiftRight_eq_div_pow] at h2
  have hlt := p.toNat_lt
  have h0 : p.toNat = 0 := by omega
  exact UInt64.toNat_inj.mp h0

theorem Issue.Blank.not_ready {blocks : Blocks} {i : Issue} (h : i.Blank blocks) :
    ¬ i.Ready blocks := by
  intro hr
  apply blocks.table_pos
  apply eq_zero_of_halves
  · rw [← hr.base.1]
    exact h.ctba
  · rw [← hr.base.2]
    exact h.ctbau

inductive Sends (p : Port) : Port → Prop
  | nothing : Sends p p
  | blank {q : Port} {i : Issue} (hb : q.blocks = p.blocks) (hi : q.issued = i :: p.issued)
      (h : i.Blank p.blocks) : Sends p q

variable {hba : Controller} {p q : Port}

theorem sends_issue {slot : Fin 32} {command : Command} (hb : q.blocks = p.blocks)
    (hi : q.issued = p.issued)
    (h : Issue.Blank p.blocks ⟨slot, command, q.cmdList slot, q.cmdTable⟩) :
    Sends p (q.issue hba slot command).2 := by
  refine .blank hb ?_ h
  simp only [Port.issue, hi]

theorem and_low_byte (count : UInt32) : (count &&& 0xff).toUInt8 = count.toUInt8 := by
  apply UInt8.toNat_inj.mp
  have hmask : count.toNat &&& 255 = count.toNat % 2^8 := Nat.and_two_pow_sub_one_eq_mod count.toNat 8
  rw [UInt32.toNat_toUInt8, UInt32.toNat_toUInt8, UInt32.toNat_and]
  change (count.toNat &&& 255) % 2^8 = _
  rw [hmask, Nat.mod_mod]

/-- The table that `setup_command` and `create_fis` fill in. -/
theorem blank_setup (slot : Fin 32) (write : Bool) (command : UInt8) (lba : UInt64)
    (count sectors : UInt32) : Issue.Blank p.blocks ⟨slot, .ata command lba count (sectors * 512),
      ((p.setupCommand slot write sectors).createFis command lba count).cmdList slot,
      ((p.setupCommand slot write sectors).createFis command lba count).cmdTable⟩ where
  ctba := by simp [Port.setupCommand, Port.createFis, CmdHeader.zero]
  ctbau := by simp [Port.setupCommand, Port.createFis, CmdHeader.zero]
  fis := by
    simp only [Port.createFis, Command.fis, and_low_byte]
    rfl
  prdt := rfl

theorem sends_submitCommand (command : UInt8) (lba : UInt64) (count : UInt32) (write : Bool) :
    Sends p (p.submitCommand hba command lba count write).2 := by
  unfold Port.submitCommand
  split
  · exact .nothing
  · exact sends_issue rfl rfl (blank_setup ..)

theorem sends_identify : Sends p (p.identify hba).2 := by
  unfold Port.identify
  split
  · exact .nothing
  · exact sends_issue rfl rfl (blank_setup _ false ataIdentify 0 0 1)

theorem sends_atapiIdentify : Sends p (p.atapiIdentify hba).2 := by
  unfold Port.atapiIdentify
  split
  · exact .nothing
  · refine sends_issue rfl rfl ⟨?_, ?_, rfl, rfl⟩
    · simp [CmdHeader.zero]
    · simp [CmdHeader.zero]

theorem sends_packet (packet : List UInt8) (len : UInt64) (write : Bool) :
    Sends p (p.sendPacket hba packet len write).2 := by
  unfold Port.sendPacket
  split
  · split
    · exact .nothing
    · by_cases hlen : 0 < len
      · simp only [if_pos hlen]
        refine sends_issue rfl rfl ⟨?_, ?_, rfl, ?_⟩
        · simp [CmdHeader.zero]
        · simp [CmdHeader.zero]
        · simp only [Command.prdt, if_pos hlen, transfer, UInt64.toUInt32_sub]
          rfl
      · simp only [if_neg hlen]
        refine sends_issue rfl rfl ⟨?_, ?_, rfl, ?_⟩
        · simp [CmdHeader.zero]
        · simp [CmdHeader.zero]
        · simp only [Command.prdt, if_neg hlen]
          rfl
  · exact .nothing

end issue

section runs

variable {p q : Port}

def Port.AllBlank (p : Port) : Prop := ∀ i ∈ p.issued, i.Blank p.blocks

theorem Port.AllBlank.sends (h : p.AllBlank) (hs : Sends p q) : q.AllBlank := by
  cases hs with
  | nothing => exact h
  | blank hb hi hblank =>
    intro i hmem
    rw [hi] at hmem
    rw [hb]
    cases hmem with
    | head => exact hblank
    | tail _ hmem => exact h i hmem

theorem Port.AllBlank.chunks {hbas : Nat → Controller} {command : UInt8} {write : Bool}
    {lba : UInt64} (rounds remaining : Nat) (h : p.AllBlank) :
    (p.chunks hbas command write lba rounds remaining).2.AllBlank := by
  induction rounds generalizing p lba remaining with
  | zero => exact h
  | succ rounds ih =>
    rw [Port.chunks]
    split
    · exact h
    · have hs : Port.AllBlank (p.submitCommand (hbas rounds) command lba
          (UInt32.ofNat (min remaining 128)) write).2 := h.sends (sends_submitCommand ..)
      dsimp only
      split
      · rename_i hq
        rw [hq] at hs
        exact hs
      · rename_i hq
        rw [hq] at hs
        exact ih _ hs

theorem Port.AllBlank.serve (h : p.AllBlank) (hbas : Nat → Controller) (req : Request) :
    (p.serve hbas req).2.AllBlank := by
  cases req with
  | read lba count =>
    simp only [Port.serve]
    split
    · exact h.chunks _ _
    · exact h
  | write lba count =>
    simp only [Port.serve]
    split
    · exact h.chunks _ _
    · exact h
  | packet bytes len write => exact h.sends (sends_packet bytes len write)

theorem Reached.allBlank (h : Reached p) : p.AllBlank := by
  induction h with
  | probe hp =>
    rename_i r hba blocks q
    unfold probePort at hp
    split at hp
    · split at hp
      · dsimp only at hp
        have h0 : ∀ cmdList, Port.AllBlank
            ⟨blocks, true, r.sig = 0xEB140101, cmdList, .zero, []⟩ := fun _ _ hi => nomatch hi
        split at hp
        · cases hp
          exact (h0 _).sends sends_atapiIdentify
        · cases hp
          exact (h0 _).sends sends_identify
      · cases hp
    · cases hp
  | serve _ hbas req ih => exact ih.serve hbas req

/-- On every port and after every history, no command that is issued is ready: `memset` has wiped
the base of the command table out of its header. -/
theorem no_command_ready (h : Reached p) : ∀ i ∈ p.issued, ¬ i.Ready p.blocks :=
  fun i hi => (h.allBlank i hi).not_ready

def promptController : Controller := ⟨0, 0, fun _ => (0, 0, 0), 512⟩

def alignedBlocks : Blocks :=
  ⟨0x1000400, 0x1000800, 0x1000a00, 0x1001000, by decide, by decide, by decide, by decide⟩

def attachedDisk : Probe := ⟨0x103, 0, fun _ => 0, 0x101⟩

theorem attachedDisk_identified :
    ((probePort promptController attachedDisk alignedBlocks).any fun p => p.issued.length = 1) =
      true := by
  decide +kernel

/-- The first IDENTIFY of a disk. -/
theorem no_command_ready_identify :
    ∃ p, probePort promptController attachedDisk alignedBlocks = some p ∧ p.issued.length = 1 ∧
      ∀ i ∈ p.issued, ¬ i.Ready p.blocks := by
  obtain ⟨p, hp, hlen⟩ := (Option.any_eq_true _ _).mp attachedDisk_identified
  exact ⟨p, hp, of_decide_eq_true hlen, no_command_ready (.probe hp)⟩

theorem identify_without_table : ¬ ∀ p, Reached p → ∀ i ∈ p.issued, i.Ready p.blocks := by
  intro hall
  obtain ⟨p, hp, hlen⟩ := (Option.any_eq_true _ _).mp attachedDisk_identified
  have hr : Reached p := .probe hp
  obtain ⟨i, hi⟩ := List.exists_mem_of_length_pos (Nat.lt_of_lt_of_eq Nat.zero_lt_one
    (of_decide_eq_true hlen).symm)
  exact (hr.allBlank i hi).not_ready (hall p hr i hi)

end runs

end LosTacOS.Drivers.Ahci
