import LosTacOS.Drivers.Disk
import LosTacOS.Lib.Moves

/-! What is in the sectors: reads and writes of drives and of their partitions with the bytes that
they move. The buffers of the callers are not null here. -/
namespace LosTacOS.Drivers.Ahci

open ByteMemory

section contents

/-- A port, the sectors behind it, its `info->buffer`, and the static buffers of `device_read` and
`device_write`. -/
structure Drive where
  port : Port
  disk : Mem
  buffer : Mem
  readTemp : Mem
  cdTemp : Mem
  writeTemp : Mem

/-- What the controller does to the disk and to the buffer for the command that lies in memory. -/
abbrev Hardware := CmdHeader → CmdTable → Mem → Mem → Mem × Mem

/-- The command issued on the way to `q`, if there is one, is carried out. -/
def Drive.carry (hw : Hardware) (v : Drive) (q : Port) : Drive :=
  match q.issued with
  | [] => { v with port := q }
  | i :: rest =>
    if rest.length = v.port.issued.length then
      let moved := hw i.header i.table v.disk v.buffer
      { v with port := q, disk := moved.1, buffer := moved.2 }
    else { v with port := q }

variable (hw : Hardware)

def Drive.submitCommand (v : Drive) (hba : Controller) (command : UInt8) (lba : UInt64)
    (count : UInt32) (write : Bool) : Bool × Drive :=
  let done := v.port.submitCommand hba command lba count write
  (done.1, v.carry hw done.2)

/-- The loop of `read`; `pos` is how far `dst` has got. -/
def Drive.readChunks (hbas : Nat → Controller) (v : Drive) (lba : UInt64) (dst : Mem) (pos : Nat) :
    Nat → Nat → Bool × Drive × Mem
  | 0, _ => (true, v, dst)
  | rounds + 1, remaining =>
    if remaining = 0 then (true, v, dst)
    else
      let chunk := min remaining 128
      match v.submitCommand hw (hbas rounds) ataReadDmaExt lba (UInt32.ofNat chunk) false with
      | (false, v) => (false, v, dst)
      | (true, v) =>
        v.readChunks hbas (lba + UInt64.ofNat chunk) (paste dst pos v.buffer 0 (chunk * 512))
          (pos + chunk * 512) rounds (remaining - chunk)

def Drive.writeChunks (hbas : Nat → Controller) (v : Drive) (lba : UInt64) (src : Mem) (pos : Nat) :
    Nat → Nat → Bool × Drive
  | 0, _ => (true, v)
  | rounds + 1, remaining =>
    if remaining = 0 then (true, v)
    else
      let chunk := min remaining 128
      let v := { v with buffer := paste v.buffer 0 src pos (chunk * 512) }
      match v.submitCommand hw (hbas rounds) ataWriteDmaExt lba (UInt32.ofNat chunk) true with
      | (false, v) => (false, v)
      | (true, v) =>
        v.writeChunks hbas (lba + UInt64.ofNat chunk) src (pos + chunk * 512) rounds
          (remaining - chunk)

def Drive.read (hbas : Nat → Controller) (v : Drive) (lba : UInt64) (count : UInt32) (dst : Mem) :
    Bool × Drive × Mem :=
  if v.port.active ∧ count ≠ 0 then
    v.readChunks hw hbas lba dst 0 count.toNat count.toNat
  else (false, v, dst)

def Drive.write (hbas : Nat → Controller) (v : Drive) (lba : UInt64) (count : UInt32) (src : Mem) :
    Bool × Drive :=
  if v.port.active ∧ count ≠ 0 then
    v.writeChunks hw hbas lba src 0 count.toNat count.toNat
  else (false, v)

def Drive.atapiRead (hba : Controller) (v : Drive) (lba count : UInt32) (buf : Mem) :
    Bool × Drive × Mem :=
  let done := v.port.sendPacket hba (readPacket lba count) (count * 2048).toUInt64 false
  let v := v.carry hw done.2
  (done.1, v, if done.1 then paste buf 0 v.buffer 0 (count * 2048).toNat else buf)

/-- `device_read`: the number of bytes, the drive and the buffer. -/
def DevContext.deviceRead (ctx : DevContext) (hbas : Nat → Controller) (v : Drive) (dst : Mem)
    (size offset : UInt64) : UInt64 × Drive × Mem :=
  if ctx.isCdrom then
    let sectorOffset := offset % 2048
    match v.atapiRead hw (hbas 0) (offset / 2048).toUInt32 1 v.cdTemp with
    | (false, v, temp) => (0, { v with cdTemp := temp }, dst)
    | (true, v, temp) =>
      let size := min size (2048 - sectorOffset)
      (size, { v with cdTemp := temp }, paste dst 0 temp sectorOffset.toNat size.toNat)
  else
    let lba := ctx.offset + offset / 512
    let sectorOffset := offset % 512
    if size = 512 ∧ sectorOffset = 0 then
      match v.read hw hbas lba 1 dst with
      | (true, v, dst) => (512, v, dst)
      | (false, v, dst) => (0, v, dst)
    else
      match v.read hw hbas lba 1 v.readTemp with
      | (false, v, temp) => (0, { v with readTemp := temp }, dst)
      | (true, v, temp) =>
        let size := min size (512 - sectorOffset)
        (size, { v with readTemp := temp }, paste dst 0 temp sectorOffset.toNat size.toNat)

/-- `device_write`; a part of a sector is read first. -/
def DevContext.deviceWrite (ctx : DevContext) (hbas hbas' : Nat → Controller) (v : Drive) (src : Mem)
    (size offset : UInt64) : UInt64 × Drive :=
  if ctx.isCdrom then (0, v)
  else
    let lba := ctx.offset + offset / 512
    let sectorOffset := offset % 512
    if size = 512 ∧ sectorOffset = 0 then
      match v.write hw hbas lba 1 src with
      | (true, v) => (512, v)
      | (false, v) => (0, v)
    else
      match v.read hw hbas lba 1 v.writeTemp with
      | (false, v, temp) => (0, { v with writeTemp := temp })
      | (true, v, temp) =>
        let size := min size (512 - sectorOffset)
        let temp := paste temp sectorOffset.toNat src 0 size.toNat
        let v := { v with writeTemp := temp }
        match v.write hw hbas' lba 1 temp with
        | (false, v) => (0, v)
        | (true, v) => (size, v)

end contents

/-- Commands of up to `most` sectors are carried out as they say, as far as they name sectors before
`hi`. -/
structure Transfers (hw : Hardware) (hbas : Nat → Controller) (blocks : Blocks) (most hi : Nat) :
    Prop where
  slot : ∀ n, findSlot (hbas n) ≠ none
  done : ∀ n slot, wait (hbas n).polled slot 1000000 = true
  read : ∀ (h : CmdHeader) (t : CmdTable) (lba : UInt64) (count : UInt32) (disk buffer : Mem),
    h.w = false → t.cfis = (Command.ata ataReadDmaExt lba count (count * 512)).fis →
    t.prdt = transfer blocks.buffer (count * 512) → 0 < count.toNat → count.toNat ≤ most →
    lba.toNat + count.toNat ≤ hi →
    hw h t disk buffer = (disk, paste buffer 0 disk (lba.toNat * 512) (count.toNat * 512))
  write : ∀ (h : CmdHeader) (t : CmdTable) (lba : UInt64) (count : UInt32) (disk buffer : Mem),
    h.w = true → t.cfis = (Command.ata ataWriteDmaExt lba count (count * 512)).fis →
    t.prdt = transfer blocks.buffer (count * 512) → 0 < count.toNat → count.toNat ≤ most →
    lba.toNat + count.toNat ≤ hi →
    hw h t disk buffer = (paste disk (lba.toNat * 512) buffer 0 (count.toNat * 512), buffer)

section commands

variable {hw : Hardware} {hba : Controller} {hbas hbas' : Nat → Controller} {v : Drive} {most hi : Nat}
  {command : UInt8} {lba : UInt64} {count : UInt32}

theorem submitCommand_eq {slot : Fin 32} (hs : findSlot hba = some slot) (write : Bool) :
    ∃ h t q, h.w = write ∧ t.cfis = (Command.ata command lba count (count * 512)).fis ∧
      t.prdt = transfer v.port.blocks.buffer (count * 512) ∧ q.blocks = v.port.blocks ∧
      q.active = v.port.active ∧
      v.submitCommand hw hba command lba count write = (wait hba.polled slot 1000000,
        { v with
          port := q
          disk := (hw h t v.disk v.buffer).1
          buffer := (hw h t v.disk v.buffer).2 }) := by
  have hblank := blank_setup (p := v.port) slot write command lba count count
  generalize hp : (v.port.setupCommand slot write count).createFis command lba count = p at hblank
  have hw' : (p.cmdList slot).w = write := by
    rw [← hp]
    simp [Port.setupCommand, Port.createFis]
  have hissued : p.issued = v.port.issued := by
    rw [← hp]
    rfl
  have hblocks : p.blocks = v.port.blocks := by
    rw [← hp]
    rfl
  have hactive : p.active = v.port.active := by
    rw [← hp]
    rfl
  refine ⟨p.cmdList slot, p.cmdTable,
    (p.issue hba slot (.ata command lba count (count * 512))).2, hw', hblank.fis, hblank.prdt,
    hblocks, hactive, ?_⟩
  have hsubmit : v.port.submitCommand hba command lba count write =
      p.issue hba slot (.ata command lba count (count * 512)) := by
    rw [Port.submitCommand, hs, ← hp]
  simp only [Drive.submitCommand, hsubmit, Drive.carry, Port.issue, hissued, if_true]

structure Drive.Same (v v' : Drive) : Prop where
  blocks : v'.port.blocks = v.port.blocks
  active : v'.port.active = v.port.active

theorem Drive.Same.trans {v1 v2 : Drive} (h : v.Same v1) (h' : v1.Same v2) : v.Same v2 :=
  ⟨h'.blocks.trans h.blocks, h'.active.trans h.active⟩

theorem Transfers.submit_read (ht : Transfers hw hbas v.port.blocks most hi) (n : Nat)
    (lba : UInt64) (count : UInt32)
    (h0 : 0 < count.toNat) (hm : count.toNat ≤ most) (hhi : lba.toNat + count.toNat ≤ hi) :
    ∃ v', v.submitCommand hw (hbas n) ataReadDmaExt lba count false = (true, v') ∧ v.Same v' ∧
      v'.disk = v.disk ∧ v'.buffer = paste v.buffer 0 v.disk (lba.toNat * 512) (count.toNat * 512) := by
  obtain ⟨slot, hslot⟩ := Option.ne_none_iff_exists'.mp (ht.slot n)
  obtain ⟨h, t, q, hwrite, hfis, hprdt, hblocks, hactive, heq⟩ :=
    @submitCommand_eq hw (hbas n) v ataReadDmaExt lba count slot hslot false
  rw [ht.done n slot, ht.read h t lba count v.disk v.buffer hwrite hfis hprdt h0 hm hhi] at heq
  exact ⟨_, heq, ⟨hblocks, hactive⟩, rfl, rfl⟩

theorem Transfers.submit_write (ht : Transfers hw hbas v.port.blocks most hi) (n : Nat)
    (lba : UInt64) (count : UInt32)
    (h0 : 0 < count.toNat) (hm : count.toNat ≤ most) (hhi : lba.toNat + count.toNat ≤ hi) :
    ∃ v', v.submitCommand hw (hbas n) ataWriteDmaExt lba count true = (true, v') ∧ v.Same v' ∧
      v'.disk = paste v.disk (lba.toNat * 512) v.buffer 0 (count.toNat * 512) := by
  obtain ⟨slot, hslot⟩ := Option.ne_none_iff_exists'.mp (ht.slot n)
  obtain ⟨h, t, q, hwrite, hfis, hprdt, hblocks, hactive, heq⟩ :=
    @submitCommand_eq hw (hbas n) v ataWriteDmaExt lba count slot hslot true
  rw [ht.done n slot, ht.write h t lba count v.disk v.buffer hwrite hfis hprdt h0 hm hhi] at heq
  exact ⟨_, heq, ⟨hblocks, hactive⟩, rfl⟩

/-- A FIS has 48 bits for the sector: commands that do as they say name no other ones. -/
theorem Transfers.room {blocks : Blocks} (ht : Transfers hw hbas blocks most hi) (hm : 1 ≤ most) :
    hi ≤ 2 ^ 48 := by
  by_contra hlong
  -- the same command would read the first sector and the one behind the last
  have hread := fun (lba : UInt64) (hfis : (Command.ata ataReadDmaExt lba 1 (1 * 512)).fis =
      (Command.ata ataReadDmaExt 0 1 (1 * 512)).fis) (hlba : lba.toNat + 1 ≤ hi) =>
    ht.read .zero ⟨(Command.ata ataReadDmaExt 0 1 (1 * 512)).fis, [], transfer blocks.buffer (1 * 512)⟩
      lba 1 (fun x => if x = 0 then 1 else 0) (fun _ => 0) rfl hfis.symm rfl (by decide) hm hlba
  have hzero := hread 0 rfl (by simp; omega)
  have hnext := hread 0x1000000000000 (by decide) (by simp; omega)
  rw [hzero] at hnext
  have hbyte := congrFun (congrArg Prod.snd hnext) 0
  simp [paste] at hbyte

theorem toNat_add_chunk (lba : UInt64) (n : Nat) (hlba : lba.toNat + n ≤ 2 ^ 48) :
    (lba + UInt64.ofNat n).toNat = lba.toNat + n := by
  rw [UInt64.toNat_add, UInt64.toNat_ofNat']
  omega

theorem toNat_chunk (remaining : Nat) :
    (UInt32.ofNat (min remaining 128)).toNat = min remaining 128 := by
  rw [UInt32.toNat_ofNat']
  omega

end commands

section ports

variable {hw : Hardware} {hbas hbas' : Nat → Controller} {ctx : DevContext} {size offset : UInt64}

@[simp] theorem carry_port (v : Drive) (q : Port) : (v.carry hw q).port = q := by
  unfold Drive.carry
  split
  · rfl
  · split
    · rfl
    · rfl

/-- The port is that of the commands without their bytes. -/
theorem readChunks_port (v : Drive) (lba : UInt64) (dst : Mem) (pos rounds remaining : Nat) :
    ((v.readChunks hw hbas lba dst pos rounds remaining).1,
      (v.readChunks hw hbas lba dst pos rounds remaining).2.1.port) =
        v.port.chunks hbas ataReadDmaExt false lba rounds remaining := by
  induction rounds generalizing v lba dst pos remaining with
  | zero => rfl
  | succ rounds ih =>
    rw [Drive.readChunks, Port.chunks]
    split
    · rfl
    · have hport : ((v.submitCommand hw (hbas rounds) ataReadDmaExt lba
          (UInt32.ofNat (min remaining 128)) false).1, (v.submitCommand hw (hbas rounds)
          ataReadDmaExt lba (UInt32.ofNat (min remaining 128)) false).2.port) =
          v.port.submitCommand (hbas rounds) ataReadDmaExt lba
            (UInt32.ofNat (min remaining 128)) false := by
        simp only [Drive.submitCommand, carry_port]
      dsimp only
      rw [← hport]
      generalize v.submitCommand hw (hbas rounds) ataReadDmaExt lba
        (UInt32.ofNat (min remaining 128)) false = res
      obtain ⟨ok, v1⟩ := res
      cases ok with
      | false => rfl
      | true => exact ih v1 _ _ _ _

theorem writeChunks_port (v : Drive) (lba : UInt64) (src : Mem) (pos rounds remaining : Nat) :
    ((v.writeChunks hw hbas lba src pos rounds remaining).1,
      (v.writeChunks hw hbas lba src pos rounds remaining).2.port) =
        v.port.chunks hbas ataWriteDmaExt true lba rounds remaining := by
  induction rounds generalizing v lba pos remaining with
  | zero => rfl
  | succ rounds ih =>
    rw [Drive.writeChunks, Port.chunks]
    split
    · rfl
    · dsimp only
      generalize hv0 : ({ v with buffer := paste v.buffer 0 src pos (min remaining 128 * 512) } :
        Drive) = v0
      have hport0 : v0.port = v.port := by rw [← hv0]
      have hport : ((v0.submitCommand hw (hbas rounds) ataWriteDmaExt lba
          (UInt32.ofNat (min remaining 128)) true).1, (v0.submitCommand hw (hbas rounds)
          ataWriteDmaExt lba (UInt32.ofNat (min remaining 128)) true).2.port) =
          v.port.submitCommand (hbas rounds) ataWriteDmaExt lba
            (UInt32.ofNat (min remaining 128)) true := by
        simp only [Drive.submitCommand, carry_port, hport0]
      rw [← hport]
      generalize v0.submitCommand hw (hbas rounds) ataWriteDmaExt lba
        (UInt32.ofNat (min remaining 128)) true = res
      obtain ⟨ok, v1⟩ := res
      cases ok with
      | false => rfl
      | true => exact ih v1 _ _ _

theorem read_port (v : Drive) (lba : UInt64) (count : UInt32) (dst : Mem) :
    ((v.read hw hbas lba count dst).1, (v.read hw hbas lba count dst).2.1.port) =
      v.port.serve hbas (.read lba count) := by
  by_cases h : v.port.active = true ∧ count ≠ 0
  · simp only [Drive.read, Port.serve, if_pos h]
    exact readChunks_port v lba dst 0 _ _
  · simp only [Drive.read, Port.serve, if_neg h]

theorem write_port (v : Drive) (lba : UInt64) (count : UInt32) (src : Mem) :
    ((v.write hw hbas lba count src).1, (v.write hw hbas lba count src).2.port) =
      v.port.serve hbas (.write lba count) := by
  by_cases h : v.port.active = true ∧ count ≠ 0
  · simp only [Drive.write, Port.serve, if_pos h]
    exact writeChunks_port v lba src 0 _ _
  · simp only [Drive.write, Port.serve, if_neg h]

theorem sector_read (p : Port) (lba : UInt64) :
    p.sector hbas false true lba = p.serve hbas (.read lba 1) := rfl

theorem sector_write (p : Port) (lba : UInt64) :
    p.sector hbas true true lba = p.serve hbas (.write lba 1) := rfl

/-- What a device does to its port is what it does without the bytes. -/
theorem deviceRead_port (v : Drive) (dst : Mem) :
    ((ctx.deviceRead hw hbas v dst size offset).1,
      (ctx.deviceRead hw hbas v dst size offset).2.1.port) =
        ctx.read v.port hbas true size offset := by
  have hread := fun lba dst => @read_port hw hbas v lba 1 dst
  unfold DevContext.deviceRead DevContext.read
  split
  · simp only [Drive.atapiRead]
    have hlen : ((1 : UInt32) * 2048).toUInt64 = 2048 := by decide
    rw [hlen]
    generalize v.port.sendPacket (hbas 0) (readPacket (offset / 2048).toUInt32 1) 2048 false = res
    obtain ⟨ok, q⟩ := res
    cases ok with
    | false => simp only [carry_port]
    | true => simp only [carry_port]
  · dsimp only
    split
    · rw [sector_read, ← hread _ dst]
      generalize v.read hw hbas _ 1 dst = res
      obtain ⟨ok, v1, dst1⟩ := res
      cases ok with
      | false => rfl
      | true => rfl
    · rw [sector_read, ← hread _ v.readTemp]
      generalize v.read hw hbas _ 1 v.readTemp = res
      obtain ⟨ok, v1, temp⟩ := res
      cases ok with
      | false => rfl
      | true => rfl

theorem deviceWrite_port (v : Drive) (src : Mem) :
    ((ctx.deviceWrite hw hbas hbas' v src size offset).1,
      (ctx.deviceWrite hw hbas hbas' v src size offset).2.port) =
        ctx.write v.port hbas hbas' true size offset := by
  have hwrite := fun hbas v lba src => @write_port hw hbas v lba 1 src
  unfold DevContext.deviceWrite DevContext.write
  split
  · rfl
  · dsimp only
    split
    · rw [sector_write, ← hwrite hbas v _ src]
      generalize v.write hw hbas _ 1 src = res
      obtain ⟨ok, v1⟩ := res
      cases ok with
      | false => rfl
      | true => rfl
    · rw [sector_read, ← @read_port hw hbas v _ 1 v.writeTemp]
      generalize v.read hw hbas _ 1 v.writeTemp = res
      obtain ⟨ok, v1, temp⟩ := res
      cases ok with
      | false => rfl
      | true =>
        dsimp only
        generalize hv2 : ({ v1 with writeTemp := _ } : Drive) = v2
        have hport : v1.port = v2.port := by rw [← hv2]
        rw [hport, sector_write, ← hwrite hbas' v2 _ v2.writeTemp, ← hv2]
        generalize Drive.write hw hbas' _ _ 1 _ = res
        obtain ⟨ok', v3⟩ := res
        cases ok' with
        | false => rfl
        | true => rfl

end ports

section loops

variable {hw : Hardware} {hbas hbas' : Nat → Controller} {v : Drive} {most hi rounds remaining : Nat}
  {lba : UInt64} {count : UInt32} {pos : Nat}

/-- The chunks that are read lie behind each other, on the disk and in the buffer. -/
theorem readChunks_eq (ht : Transfers hw hbas v.port.blocks most hi) (h1 : 1 ≤ most)
    (hm : min remaining 128 ≤ most) (hr : remaining ≤ rounds) (hhi : lba.toNat + remaining ≤ hi)
    (dst : Mem) : ∃ v', v.readChunks hw hbas lba dst pos rounds remaining =
        (true, v', paste dst pos v.disk (lba.toNat * 512) (remaining * 512)) ∧
      v.Same v' ∧ v'.disk = v.disk := by
  have hroom := ht.room h1
  induction rounds generalizing v lba dst pos remaining with
  | zero =>
    obtain rfl := Nat.le_zero.mp hr
    exact ⟨v, by rw [Nat.zero_mul, paste_zero]; rfl, ⟨rfl, rfl⟩, rfl⟩
  | succ rounds ih =>
    by_cases h0 : remaining = 0
    · subst h0
      refine ⟨v, ?_, ⟨rfl, rfl⟩, rfl⟩
      rw [Nat.zero_mul, paste_zero, Drive.readChunks, if_pos rfl]
    · have hchunk := toNat_chunk remaining
      obtain ⟨v1, hv1, hsame, hdisk, hbuffer⟩ := ht.submit_read rounds lba
        (UInt32.ofNat (min remaining 128)) (by omega) (by omega) (by omega)
      rw [hchunk] at hbuffer
      have hlba := toNat_add_chunk lba (min remaining 128) (by omega)
      rw [← hsame.blocks] at ht
      obtain ⟨v', hv', hsame', hdisk'⟩ := @ih v1 (remaining - min remaining 128)
        (lba + UInt64.ofNat (min remaining 128)) (pos + min remaining 128 * 512)
        ht (by omega) (by omega) (by omega) (paste dst pos v1.buffer 0 (min remaining 128 * 512))
      refine ⟨v', ?_, hsame.trans hsame', hdisk'.trans hdisk⟩
      rw [Drive.readChunks, if_neg h0]
      dsimp only
      rw [hv1]
      dsimp only
      rw [hv', hdisk, hbuffer, hlba, paste_paste, Nat.add_mul, paste_append, ← Nat.add_mul,
        Nat.add_sub_cancel' (Nat.min_le_left _ _)]

theorem writeChunks_eq (ht : Transfers hw hbas v.port.blocks most hi) (h1 : 1 ≤ most)
    (hm : min remaining 128 ≤ most) (hr : remaining ≤ rounds) (hhi : lba.toNat + remaining ≤ hi)
    (src : Mem) : ∃ v', v.writeChunks hw hbas lba src pos rounds remaining = (true, v') ∧
      v.Same v' ∧ v'.disk = paste v.disk (lba.toNat * 512) src pos (remaining * 512) := by
  have hroom := ht.room h1
  induction rounds generalizing v lba pos remaining with
  | zero =>
    obtain rfl := Nat.le_zero.mp hr
    exact ⟨v, rfl, ⟨rfl, rfl⟩, by rw [Nat.zero_mul, paste_zero]⟩
  | succ rounds ih =>
    by_cases h0 : remaining = 0
    · subst h0
      refine ⟨v, ?_, ⟨rfl, rfl⟩, by rw [Nat.zero_mul, paste_zero]⟩
      rw [Drive.writeChunks, if_pos rfl]
    · have hchunk := toNat_chunk remaining
      let v0 : Drive := { v with buffer := paste v.buffer 0 src pos (min remaining 128 * 512) }
      have ht0 : Transfers hw hbas v0.port.blocks most hi := ht
      obtain ⟨v1, hv1, hsame, hdisk⟩ := ht0.submit_write rounds lba
        (UInt32.ofNat (min remaining 128)) (by omega) (by omega) (by omega)
      rw [hchunk] at hdisk
      have hlba := toNat_add_chunk lba (min remaining 128) (by omega)
      rw [← hsame.blocks] at ht0
      obtain ⟨v', hv', hsame', hdisk'⟩ := @ih v1 (remaining - min remaining 128)
        (lba + UInt64.ofNat (min remaining 128)) (pos + min remaining 128 * 512)
        ht0 (by omega) (by omega) (by omega)
      have hfirst : v1.disk = paste v.disk (lba.toNat * 512) src pos (min remaining 128 * 512) :=
        hdisk.trans (paste_paste _ _ _ _ _ _)
      refine ⟨v', ?_, ⟨hsame'.blocks.trans hsame.blocks, hsame'.active.trans hsame.active⟩, ?_⟩
      · rw [Drive.writeChunks, if_neg h0]
        dsimp only
        rw [hv1]
        exact hv'
      · rw [hdisk', hfirst, hlba, Nat.add_mul, paste_append, ← Nat.add_mul,
          Nat.add_sub_cancel' (Nat.min_le_left _ _)]

theorem read_eq (ht : Transfers hw hbas v.port.blocks most hi) (h1 : 1 ≤ most)
    (hm : min count.toNat 128 ≤ most) (hhi : lba.toNat + count.toNat ≤ hi)
    (ha : v.port.active = true) (dst : Mem) : ∃ v', v.read hw hbas lba count dst =
        (decide (count ≠ 0), v', paste dst 0 v.disk (lba.toNat * 512) (count.toNat * 512)) ∧
      v.Same v' ∧ v'.disk = v.disk := by
  unfold Drive.read
  by_cases h0 : count = 0
  · subst h0
    refine ⟨v, ?_, ⟨rfl, rfl⟩, rfl⟩
    rw [if_neg (by simp)]
    simp [paste_zero]
  · rw [if_pos ⟨ha, h0⟩]
    simpa only [ne_eq, h0, not_false_eq_true, decide_true] using
      readChunks_eq ht h1 hm (Nat.le_refl _) hhi dst

theorem write_eq (ht : Transfers hw hbas v.port.blocks most hi) (h1 : 1 ≤ most)
    (hm : min count.toNat 128 ≤ most) (hhi : lba.toNat + count.toNat ≤ hi)
    (ha : v.port.active = true) (src : Mem) : ∃ v', v.write hw hbas lba count src =
        (decide (count ≠ 0), v') ∧
      v.Same v' ∧ v'.disk = paste v.disk (lba.toNat * 512) src 0 (count.toNat * 512) := by
  unfold Drive.write
  by_cases h0 : count = 0
  · subst h0
    refine ⟨v, ?_, ⟨rfl, rfl⟩, ?_⟩
    · rw [if_neg (by simp)]
      simp
    · simp [paste_zero]
  · rw [if_pos ⟨ha, h0⟩]
    simpa only [ne_eq, h0, not_false_eq_true, decide_true] using
      writeChunks_eq ht h1 hm (Nat.le_refl _) hhi src

theorem read_one (lba : UInt64) (ht : Transfers hw hbas v.port.blocks 1 hi) (hhi : lba.toNat + 1 ≤ hi)
    (ha : v.port.active = true) (dst : Mem) : ∃ v', v.read hw hbas lba 1 dst =
      (true, v', paste dst 0 v.disk (lba.toNat * 512) 512) ∧ v.Same v' ∧ v'.disk = v.disk :=
  @read_eq hw hbas v 1 hi lba 1 ht (Nat.le_refl 1) (Nat.min_le_left _ _) hhi ha dst

theorem write_one (lba : UInt64) (ht : Transfers hw hbas v.port.blocks 1 hi) (hhi : lba.toNat + 1 ≤ hi)
    (ha : v.port.active = true) (src : Mem) : ∃ v', v.write hw hbas lba 1 src = (true, v') ∧
      v.Same v' ∧ v'.disk = paste v.disk (lba.toNat * 512) src 0 512 :=
  @write_eq hw hbas v 1 hi lba 1 ht (Nat.le_refl 1) (Nat.min_le_left _ _) hhi ha src

end loops

section devices

variable {hw : Hardware} {hbas hbas' : Nat → Controller} {v : Drive} {ctx : DevContext} {buf : Mem}
  {size offset : UInt64}

/-- The sector of an offset in a device, and how far the offset is in it. -/
theorem sector_of {hi : Nat} (hhi : ctx.offset.toNat + ctx.sectors.toNat = hi) (hroom : hi ≤ 2 ^ 48)
    (h0 : 0 < size.toNat) (hin : offset.toNat + size.toNat ≤ ctx.sectors.toNat * 512) :
    (ctx.offset + offset / 512).toNat + 1 ≤ hi ∧
      (ctx.offset + offset / 512).toNat * 512 + (offset % 512).toNat =
        ctx.offset.toNat * 512 + offset.toNat ∧
      (offset % 512).toNat < 512 ∧
      (min size (512 - offset % 512)).toNat = min size.toNat (512 - (offset % 512).toNat) := by
  have hdiv : (offset / 512).toNat = offset.toNat / 512 := UInt64.toNat_div _ _
  have hmod : (offset % 512).toNat = offset.toNat % 512 := UInt64.toNat_mod _ _
  have hlba : (ctx.offset + offset / 512).toNat = ctx.offset.toNat + offset.toNat / 512 := by
    rw [UInt64.toNat_add, hdiv]
    omega
  have hlt : (offset % 512).toNat < 512 := by omega
  have hsub : (512 - offset % 512).toNat = 512 - (offset % 512).toNat := by
    rw [UInt64.toNat_sub_of_le]
    · rfl
    · exact UInt64.le_iff_toNat_le.mpr hlt.le
  refine ⟨by omega, by omega, hlt, ?_⟩
  rw [← hsub]
  change (if size ≤ 512 - offset % 512 then size else 512 - offset % 512).toNat = _
  by_cases hle : size ≤ 512 - offset % 512
  · rw [if_pos hle, Nat.min_eq_left (UInt64.le_iff_toNat_le.mp hle)]
  · have hge := Nat.le_of_not_le (mt UInt64.le_iff_toNat_le.mpr hle)
    rw [if_neg hle, Nat.min_eq_right hge]

theorem min_whole : min (512 : UInt64) (512 - 0) = 512 ∧ (512 : UInt64).toNat = 512 := by
  decide

theorem deviceRead_eq (hc : ctx.isCdrom = false) (ha : v.port.active = true)
    (ht : Transfers hw hbas v.port.blocks 1 (ctx.offset.toNat + ctx.sectors.toNat))
    (h0 : 0 < size.toNat) (hin : offset.toNat + size.toNat ≤ ctx.sectors.toNat * 512) :
    ∃ v', ctx.deviceRead hw hbas v buf size offset = (min size (512 - offset % 512), v',
        paste buf 0 v.disk (ctx.offset.toNat * 512 + offset.toNat)
          (min size (512 - offset % 512)).toNat) ∧ v'.disk = v.disk := by
  obtain ⟨hlba, hpos, hlt, hmin⟩ := sector_of rfl (ht.room (Nat.le_refl 1)) h0 hin
  have hread := fun dst => read_one (ctx.offset + offset / 512) ht hlba ha dst
  simp only [DevContext.deviceRead, hc, Bool.false_eq_true, if_false]
  by_cases hwhole : size = 512 ∧ offset % 512 = 0
  · obtain ⟨v', hv', -, hdisk⟩ := hread buf
    have hoff : (offset % 512).toNat = 0 := by rw [hwhole.2]; rfl
    refine ⟨v', ?_, hdisk⟩
    rw [if_pos hwhole, hv', ← hpos, hoff, hwhole.1, hwhole.2, min_whole.1, min_whole.2, Nat.add_zero]
  · obtain ⟨v', hv', -, hdisk⟩ := hread v.readTemp
    have hbytes : paste buf 0 (paste v.readTemp 0 v.disk ((ctx.offset + offset / 512).toNat * 512)
        512) (offset % 512).toNat (min size (512 - offset % 512)).toNat =
        paste buf 0 v.disk (ctx.offset.toNat * 512 + offset.toNat)
          (min size (512 - offset % 512)).toNat := by
      refine paste_congr fun i hi => ?_
      rw [hmin] at hi
      have hbyte := paste_in v.readTemp 0 v.disk ((ctx.offset + offset / 512).toNat * 512)
        (i := (offset % 512).toNat + i) (w := 512) (by omega)
      rw [Nat.zero_add, ← Nat.add_assoc, hpos] at hbyte
      exact hbyte
    rw [if_neg hwhole, hv', ← hbytes]
    exact ⟨_, rfl, hdisk⟩

theorem deviceWrite_eq (hc : ctx.isCdrom = false) (ha : v.port.active = true)
    (ht : Transfers hw hbas v.port.blocks 1 (ctx.offset.toNat + ctx.sectors.toNat))
    (ht' : Transfers hw hbas' v.port.blocks 1 (ctx.offset.toNat + ctx.sectors.toNat))
    (h0 : 0 < size.toNat) (hin : offset.toNat + size.toNat ≤ ctx.sectors.toNat * 512) :
    ∃ v', ctx.deviceWrite hw hbas hbas' v buf size offset = (min size (512 - offset % 512), v') ∧
      v'.disk = paste v.disk (ctx.offset.toNat * 512 + offset.toNat) buf 0
        (min size (512 - offset % 512)).toNat := by
  obtain ⟨hlba, hpos, hlt, hmin⟩ := sector_of rfl (ht.room (Nat.le_refl 1)) h0 hin
  simp only [DevContext.deviceWrite, hc, Bool.false_eq_true, if_false]
  by_cases hwhole : size = 512 ∧ offset % 512 = 0
  · obtain ⟨v', hv', -, hdisk⟩ := write_one (ctx.offset + offset / 512) ht hlba ha buf
    have hoff : (offset % 512).toNat = 0 := by rw [hwhole.2]; rfl
    refine ⟨v', ?_, ?_⟩
    · rw [if_pos hwhole, hv', hwhole.1, hwhole.2, min_whole.1]
    · rw [hdisk, ← hpos, hoff, hwhole.1, hwhole.2, min_whole.1, min_whole.2, Nat.add_zero]
  · -- the sector is read, changed in `temp` and written back
    obtain ⟨v1, hv1, hsame, hdisk1⟩ := read_one (ctx.offset + offset / 512) ht hlba ha
      v.writeTemp
    rw [if_neg hwhole, hv1]
    dsimp only
    generalize htemp : paste (paste v.writeTemp 0 v.disk _ _) _ buf 0 _ = temp
    let v2 : Drive := { v1 with writeTemp := temp }
    have ht2 : Transfers hw hbas' v2.port.blocks 1 (ctx.offset.toNat + ctx.sectors.toNat) := by
      rw [← hsame.blocks] at ht'
      exact ht'
    obtain ⟨v', hv', -, hdisk'⟩ := write_one (ctx.offset + offset / 512) ht2 hlba
      (hsame.active.trans ha) temp
    refine ⟨v', ?_, ?_⟩
    · rw [hv']
    · have hdisk2 : v2.disk = v.disk := hdisk1
      rw [hdisk', hdisk2, ← htemp, ← hpos]
      exact paste_back v.disk v.writeTemp _ _ buf 0 (by omega)

end devices

/-- As long as commands do as they say, accesses to a disk device move the bytes of one sector of it,
and long transfers all sectors in their order. -/
theorem sectors_transferred (hw : Hardware) (hbas hbas' : Nat → Controller) (v : Drive)
    (ha : v.port.active = true) :
    (∀ ctx : DevContext, ctx.isCdrom = false →
      Transfers hw hbas v.port.blocks 1 (ctx.offset.toNat + ctx.sectors.toNat) →
      Transfers hw hbas' v.port.blocks 1 (ctx.offset.toNat + ctx.sectors.toNat) →
      ∀ (buf : Mem) (size offset : UInt64), 0 < size.toNat →
        offset.toNat + size.toNat ≤ ctx.sectors.toNat * 512 →
        (∃ v', ctx.deviceRead hw hbas v buf size offset = (min size (512 - offset % 512), v',
            paste buf 0 v.disk (ctx.offset.toNat * 512 + offset.toNat)
              (min size (512 - offset % 512)).toNat) ∧ v'.disk = v.disk) ∧
        ∃ v', ctx.deviceWrite hw hbas hbas' v buf size offset =
            (min size (512 - offset % 512), v') ∧
          v'.disk = paste v.disk (ctx.offset.toNat * 512 + offset.toNat) buf 0
            (min size (512 - offset % 512)).toNat) ∧
    ∀ (lba : UInt64) (count : UInt32),
      Transfers hw hbas v.port.blocks 128 (lba.toNat + count.toNat) → ∀ buf : Mem,
        (∃ v', v.read hw hbas lba count buf =
            (decide (count ≠ 0), v', paste buf 0 v.disk (lba.toNat * 512) (count.toNat * 512)) ∧
          v'.disk = v.disk) ∧
        ∃ v', v.write hw hbas lba count buf = (decide (count ≠ 0), v') ∧
          v'.disk = paste v.disk (lba.toNat * 512) buf 0 (count.toNat * 512) := by
  refine ⟨fun ctx hc ht ht' buf size offset h0 hin => ?_, fun lba count ht buf => ?_⟩
  · exact ⟨deviceRead_eq hc ha ht h0 hin, deviceWrite_eq hc ha ht ht' h0 hin⟩
  · obtain ⟨v', hv', -, hdisk⟩ := read_eq ht (by decide) (Nat.min_le_right _ _) (Nat.le_refl _) ha buf
    obtain ⟨w', hw', -, hdisk'⟩ := write_eq ht (by decide) (Nat.min_le_right _ _) (Nat.le_refl _) ha
      buf
    exact ⟨⟨v', hv', hdisk⟩, w', hw', hdisk'⟩

section examples

def plainHardware : Hardware := fun h t disk buffer =>
  let n := (t.cfis.countLow.toNat + 2 ^ 8 * t.cfis.countHigh.toNat) * 512
  if h.w then (paste disk (t.cfis.lba * 512) buffer 0 n, buffer)
  else (disk, paste buffer 0 disk (t.cfis.lba * 512) n)

theorem fis_count (command : UInt8) (lba : UInt64) {count : UInt32} (bytes : UInt32)
    (h : count.toNat ≤ 128) : (Command.ata command lba count bytes).fis.countLow.toNat +
      2 ^ 8 * (Command.ata command lba count bytes).fis.countHigh.toNat = count.toNat := by
  have hhigh : (count >>> 8).toNat = count.toNat / 256 := by
    rw [UInt32.toNat_shiftRight, Nat.shiftRight_eq_div_pow]
    rfl
  simp only [Command.fis, UInt32.toNat_toUInt8, hhigh]
  omega

theorem fis_lba (command : UInt8) {lba : UInt64} (count bytes : UInt32)
    (h : lba.toNat < 2 ^ 48) : (Command.ata command lba count bytes).fis.lba = lba.toNat :=
  (createFis_lba restingPort command lba count).trans (Nat.mod_eq_of_lt h)

theorem plainHardware_transfers (blocks : Blocks) {most hi : Nat} (hm : most ≤ 128)
    (hhi : hi ≤ 2 ^ 48) :
    Transfers plainHardware (fun _ => promptController) blocks most hi where
  slot _ := by decide
  done _ slot := by
    revert slot
    decide
  read h t lba count disk buffer hw hfis _ h0 hc hlba := by
    simp only [plainHardware, hw, hfis, Bool.false_eq_true, if_false,
      fis_count _ _ _ (hc.trans hm), fis_lba _ _ _ (show lba.toNat < 2 ^ 48 by omega)]
  write h t lba count disk buffer hw hfis _ h0 hc hlba := by
    simp only [plainHardware, hw, hfis, if_true, fis_count _ _ _ (hc.trans hm),
      fis_lba _ _ _ (show lba.toNat < 2 ^ 48 by omega)]

def numberedDrive : Drive :=
  ⟨restingPort, fun x => UInt8.ofNat (x / 512), fun _ => 0, fun _ => 0, fun _ => 0, fun _ => 0⟩

end examples

/-- The last byte of a partition, and a transfer of three commands. -/
theorem sectors_transferred_numbered :
    (∃ v', firstPartition.deviceRead plainHardware (fun _ => promptController) numberedDrive
        (fun _ => 7) 1 0xfffff =
      (1, v', paste (fun _ => 7) 0 numberedDrive.disk (2048 * 512 + 0xfffff) 1)) ∧
    ∃ v', numberedDrive.write plainHardware (fun _ => promptController) 5 300 (fun _ => 7) =
        (true, v') ∧
      v'.disk = paste numberedDrive.disk (5 * 512) (fun _ => 7) 0 (300 * 512) := by
  have hall := sectors_transferred plainHardware (fun _ => promptController)
    (fun _ => promptController) numberedDrive rfl
  constructor
  · obtain ⟨⟨v', hv', -⟩, -⟩ := hall.1 firstPartition rfl
      (plainHardware_transfers _ (by decide) (by decide))
      (plainHardware_transfers _ (by decide) (by decide)) (fun _ => 7) 1 0xfffff (by decide)
      (by decide)
    exact ⟨v', hv'⟩
  · obtain ⟨-, v', hv', hdisk⟩ := hall.2 5 300 (plainHardware_transfers _ (by decide) (by decide))
      (fun _ => 7)
    exact ⟨v', hv', hdisk⟩

/-- Nothing is written to a CD. -/
theorem cdrom_not_written : ¬ ∀ (hw : Hardware) (hbas hbas' : Nat → Controller) (v : Drive)
    (ctx : DevContext), v.port.active = true →
    Transfers hw hbas v.port.blocks 1 (ctx.offset.toNat + ctx.sectors.toNat) →
    Transfers hw hbas' v.port.blocks 1 (ctx.offset.toNat + ctx.sectors.toNat) →
    ∀ (src : Mem) (size offset : UInt64), 0 < size.toNat →
      offset.toNat + size.toNat ≤ ctx.sectors.toNat * 512 →
      (ctx.deviceWrite hw hbas hbas' v src size offset).1 = min size (512 - offset % 512) := by
  intro hall
  have hcd := hall plainHardware (fun _ => promptController) (fun _ => promptController)
    { numberedDrive with port := { restingPort with isAtapi := true } } ⟨0, 0, 16, true⟩ rfl
    (plainHardware_transfers _ (by decide) (by decide))
    (plainHardware_transfers _ (by decide) (by decide)) (fun _ => 7) 1 0 (by decide) (by decide)
  have hzero : (0 : UInt64) = min 1 (512 - 0 % 512) := hcd
  revert hzero
  decide

end LosTacOS.Drivers.Ahci
