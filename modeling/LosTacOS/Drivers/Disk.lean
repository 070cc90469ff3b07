import LosTacOS.Drivers.Ahci
import Mathlib

/-! Disks and their partitions as devices: which sectors a read or a write of a device reaches. The
contents of sectors and buffers are left out. -/
namespace LosTacOS.Drivers.Ahci

structure MbrPartition where
  type : UInt8
  lbaStart : UInt32
  sectors : UInt32
deriving DecidableEq

structure DevContext where
  port : Fin 32
  offset : UInt64
  sectors : UInt64
  isCdrom : Bool
deriving DecidableEq

section registry

def registerDiskDevice (devs : List DevContext) (port : Fin 32) (offset sectors : UInt64) :
    List DevContext :=
  if 64 ≤ devs.length then devs else devs ++ [⟨port, offset, sectors, false⟩]

/-- What `init` finds at a port: a disk with its size and, if the first sector could be read and is
signed, the four partitions. -/
structure Disk where
  port : Fin 32
  sectors : UInt64
  mbr : Option (Fin 4 → MbrPartition)

def registerDisk (devs : List DevContext) (d : Disk) : List DevContext :=
  let devs := registerDiskDevice devs d.port 0 d.sectors
  match d.mbr with
  | none => devs
  | some parts => (List.finRange 4).foldl (fun devs p =>
      if (parts p).type = 0 ∨ (parts p).sectors = 0 then devs
      else registerDiskDevice devs d.port (parts p).lbaStart.toUInt64 (parts p).sectors.toUInt64) devs

def registerDisks (ds : List Disk) : List DevContext := ds.foldl registerDisk []

def DevContext.Named (ctx : DevContext) : Prop :=
  ctx.isCdrom = false ∧ (ctx.offset = 0 ∨ ctx.offset.toNat < 2^32 ∧ ctx.sectors.toNat < 2^32)

variable {devs : List DevContext} {ctx : DevContext}

theorem named_register {port : Fin 32} {offset sectors : UInt64} (h : ∀ c ∈ devs, c.Named)
    (hnew : DevContext.Named ⟨port, offset, sectors, false⟩)
    (hc : ctx ∈ registerDiskDevice devs port offset sectors) : ctx.Named := by
  unfold registerDiskDevice at hc
  split at hc
  · exact h ctx hc
  · rcases List.mem_append.mp hc with hc | hc
    · exact h ctx hc
    · rw [List.mem_singleton] at hc
      rw [hc]
      exact hnew

theorem named_registerDisk {d : Disk} (h : ∀ c ∈ devs, c.Named) :
    ∀ c ∈ registerDisk devs d, c.Named := by
  have hdisk : ∀ c ∈ registerDiskDevice devs d.port 0 d.sectors, c.Named :=
    fun c hc => named_register h ⟨rfl, Or.inl rfl⟩ hc
  unfold registerDisk
  cases d.mbr with
  | none => exact hdisk
  | some parts =>
    dsimp only
    revert hdisk
    generalize registerDiskDevice devs d.port 0 d.sectors = devs'
    induction List.finRange 4 generalizing devs' with
    | nil => exact fun hdisk => hdisk
    | cons p ps ih =>
      intro hdisk
      rw [List.foldl_cons]
      apply ih
      split
      · exact hdisk
      · intro c hc
        refine named_register hdisk ⟨rfl, Or.inr ⟨?_, ?_⟩⟩ hc
        · rw [UInt32.toNat_toUInt64]
          exact (parts p).lbaStart.toNat_lt
        · rw [UInt32.toNat_toUInt64]
          exact (parts p).sectors.toNat_lt

theorem registerDisks_named {ds : List Disk} : ∀ c ∈ registerDisks ds, c.Named := by
  have hall : ∀ (ds : List Disk) (devs : List DevContext), (∀ c ∈ devs, c.Named) →
      ∀ c ∈ ds.foldl registerDisk devs, c.Named := by
    intro ds
    induction ds with
    | nil => exact fun _ h => h
    | cons d ds ih => exact fun devs h => ih _ (named_registerDisk h)
  exact hall ds [] fun _ hc => nomatch hc

end registry

section access

/-- `read` and `write` of one sector; a null buffer is refused. -/
def Port.sector (p : Port) (hbas : Nat → Controller) (write buffer : Bool) (lba : UInt64) :
    Bool × Port :=
  if buffer then p.serve hbas (if write then .write lba 1 else .read lba 1) else (false, p)

def readPacket (lba count : UInt32) : List UInt8 :=
  [0x28, 0, (lba >>> 24).toUInt8, (lba >>> 16).toUInt8, (lba >>> 8).toUInt8, lba.toUInt8, 0,
    (count >>> 8).toUInt8, count.toUInt8, 0, 0, 0]

/-- `device_read`: the number of bytes, and the port after. `buffer` tells whether it is not
null. -/
def DevContext.read (ctx : DevContext) (p : Port) (hbas : Nat → Controller) (buffer : Bool)
    (size offset : UInt64) : UInt64 × Port :=
  if ctx.isCdrom then
    let sectorOffset := offset % 2048
    match p.sendPacket (hbas 0) (readPacket (offset / 2048).toUInt32 1) 2048 false with
    | (false, p) => (0, p)
    | (true, p) => (min size (2048 - sectorOffset), p)
  else
    let lba := ctx.offset + offset / 512
    let sectorOffset := offset % 512
    if size = 512 ∧ sectorOffset = 0 then
      match p.sector hbas false buffer lba with
      | (true, p) => (512, p)
      | (false, p) => (0, p)
    else
      match p.sector hbas false true lba with
      | (false, p) => (0, p)
      | (true, p) => (min size (512 - sectorOffset), p)

/-- `device_write`; a part of a sector is read first. -/
def DevContext.write (ctx : DevContext) (p : Port) (hbas hbas' : Nat → Controller) (buffer : Bool)
    (size offset : UInt64) : UInt64 × Port :=
  if ctx.isCdrom then (0, p)
  else
    let lba := ctx.offset + offset / 512
    let sectorOffset := offset % 512
    if size = 512 ∧ sectorOffset = 0 then
      match p.sector hbas true buffer lba with
      | (true, p) => (512, p)
      | (false, p) => (0, p)
    else
      match p.sector hbas false true lba with
      | (false, p) => (0, p)
      | (true, p) =>
        match p.sector hbas' true true lba with
        | (false, p) => (0, p)
        | (true, p) => (min size (512 - sectorOffset), p)

def FisRegH2D.lba (f : FisRegH2D) : Nat :=
  f.lba0.toNat + 2^8 * f.lba1.toNat + 2^16 * f.lba2.toNat + 2^24 * f.lba3.toNat +
    2^32 * f.lba4.toNat + 2^40 * f.lba5.toNat

/-- The commands since `p` name sectors of the device only, and beyond its end there is no
command and nothing is returned. -/
def DevContext.Confined (ctx : DevContext) (p : Port) (offset : UInt64) (res : UInt64 × Port) :
    Prop :=
  ∃ new, res.2.issued = new ++ p.issued ∧
    (∀ i ∈ new, ctx.offset.toNat ≤ i.table.cfis.lba ∧
      i.table.cfis.lba < ctx.offset.toNat + ctx.sectors.toNat) ∧
    (ctx.sectors.toNat * 512 ≤ offset.toNat → new = [] ∧ res.1 = 0)

/-- No command comes about: the port is not in use, all slots are taken, or a whole sector is to go
to or come from a null buffer. -/
def Silent (p : Port) (hbas : Nat → Controller) (buffer : Bool) (size offset : UInt64) : Prop :=
  p.active = false ∨ findSlot (hbas 0) = none ∨ buffer = false ∧ size = 512 ∧ offset % 512 = 0

end access

section sectors

variable {p : Port} {hbas : Nat → Controller}

theorem shift_byte (lba : UInt64) {k : UInt64} (hk : k.toNat < 64) :
    (lba >>> k).toUInt8.toNat = lba.toNat / 2^k.toNat % 2^8 := by
  rw [UInt64.toNat_toUInt8, UInt64.toNat_shiftRight, Nat.mod_eq_of_lt hk, Nat.shiftRight_eq_div_pow]

theorem createFis_lba (q : Port) (command : UInt8) (lba : UInt64) (count : UInt32) :
    (q.createFis command lba count).cmdTable.cfis.lba = lba.toNat % 2^48 := by
  simp only [Port.createFis, FisRegH2D.lba, UInt64.toNat_toUInt8,
    shift_byte lba (show (8 : UInt64).toNat < 64 by decide),
    shift_byte lba (show (16 : UInt64).toNat < 64 by decide),
    shift_byte lba (show (24 : UInt64).toNat < 64 by decide),
    shift_byte lba (show (32 : UInt64).toNat < 64 by decide),
    shift_byte lba (show (40 : UInt64).toNat < 64 by decide), UInt64.reduceToNat]
  omega

theorem serve_one (write : Bool) (lba : UInt64) (ha : p.active = true) :
    p.serve hbas (if write then .write lba 1 else .read lba 1) =
      p.submitCommand (hbas 0) (if write then ataWriteDmaExt else ataReadDmaExt) lba 1 write := by
  have hone : p.serve hbas (if write then .write lba 1 else .read lba 1) =
      match p.submitCommand (hbas 0) (if write then ataWriteDmaExt else ataReadDmaExt) lba 1 write with
      | (false, q) => (false, q)
      | (true, q) => (true, q) := by
    cases write with
    | false => exact (if_pos ⟨ha, by decide⟩).trans rfl
    | true => exact (if_pos ⟨ha, by decide⟩).trans rfl
  rw [hone]
  generalize p.submitCommand (hbas 0) (if write then ataWriteDmaExt else ataReadDmaExt) lba 1 write = res
  obtain ⟨ok, q⟩ := res
  cases ok with
  | false => rfl
  | true => rfl

theorem sector_silent {buffer : Bool} (write : Bool) (lba : UInt64)
    (h : p.active = false ∨ findSlot (hbas 0) = none ∨ buffer = false) :
    p.sector hbas write buffer lba = (false, p) := by
  unfold Port.sector
  cases buffer with
  | false => rfl
  | true =>
    rw [if_pos rfl]
    cases ha : p.active with
    | false => cases write <;> simp [Port.serve, ha]
    | true =>
      rcases h with h | h | h
      · rw [ha] at h
        cases h
      · rw [serve_one write lba ha, Port.submitCommand, h]
      · cases h

def Issues (lba : UInt64) (p q : Port) : Prop :=
  ∃ i, q.issued = i :: p.issued ∧ i.table.cfis.lba = lba.toNat % 2^48

theorem sector_issues (write : Bool) (lba : UInt64) (ha : p.active = true)
    (hs : findSlot (hbas 0) ≠ none) : Issues lba p (p.sector hbas write true lba).2 := by
  obtain ⟨slot, hslot⟩ := Option.ne_none_iff_exists'.mp hs
  unfold Port.sector
  rw [if_pos rfl, serve_one write lba ha, Port.submitCommand, hslot]
  exact ⟨_, rfl, createFis_lba _ _ _ _⟩

/-- A sector is asked for once, or not at all and then in vain. -/
theorem sector_cases (write buffer : Bool) (lba : UInt64) :
    p.sector hbas write buffer lba = (false, p) ∨
      Issues lba p (p.sector hbas write buffer lba).2 := by
  by_cases ha : p.active = true
  · by_cases hs : findSlot (hbas 0) = none
    · exact Or.inl (sector_silent write lba (Or.inr (Or.inl hs)))
    · cases buffer with
      | false => exact Or.inl (sector_silent write lba (Or.inr (Or.inr rfl)))
      | true => exact Or.inr (sector_issues write lba ha hs)
  · exact Or.inl (sector_silent write lba (Or.inl (Bool.eq_false_of_not_eq_true ha)))

end sectors

section confined

variable {ctx : DevContext} {p : Port} {hbas hbas' : Nat → Controller} {buffer : Bool}
  {size offset : UInt64}

/-- All that an access does: commands for the one sector of its offset, at least one unless it is
silent. -/
structure Accesses (ctx : DevContext) (p : Port) (hbas : Nat → Controller) (buffer : Bool)
    (size offset : UInt64) (res : UInt64 × Port) : Prop where
  new : ∃ new, res.2.issued = new ++ p.issued ∧
    ∀ i ∈ new, i.table.cfis.lba = (ctx.offset + offset / 512).toNat % 2^48
  silent : Silent p hbas buffer size offset → res = (0, p)
  loud : ¬ Silent p hbas buffer size offset → res.2.issued ≠ p.issued

theorem Issues.new {lba : UInt64} {q : Port} (h : Issues lba p q) :
    ∃ new, q.issued = new ++ p.issued ∧ ∀ i ∈ new, i.table.cfis.lba = lba.toNat % 2^48 := by
  obtain ⟨i, hi, hl⟩ := h
  refine ⟨[i], hi, fun j hj => ?_⟩
  rw [List.mem_singleton] at hj
  rw [hj, hl]

theorem Issues.ne {lba : UInt64} {q : Port} (h : Issues lba p q) : q.issued ≠ p.issued := by
  obtain ⟨i, hi, -⟩ := h
  rw [hi]
  exact List.cons_ne_self i p.issued

def count (n : UInt64) : Bool × Port → UInt64 × Port
  | (true, p) => (n, p)
  | (false, p) => (0, p)

theorem count_port (n : UInt64) (res : Bool × Port) : (count n res).2 = res.2 := by
  obtain ⟨ok, q⟩ := res
  cases ok <;> rfl

theorem accesses_one {write : Bool} {n : UInt64} (b : Bool)
    (hb : b = false → buffer = false ∧ size = 512 ∧ offset % 512 = 0)
    (hs : Silent p hbas buffer size offset →
      p.active = false ∨ findSlot (hbas 0) = none ∨ b = false) :
    Accesses ctx p hbas buffer size offset
      (count n (p.sector hbas write b (ctx.offset + offset / 512))) := by
  refine ⟨?_, fun h => ?_, fun h => ?_⟩
  · rw [count_port]
    cases @sector_cases p hbas write b (ctx.offset + offset / 512) with
    | inl hno => rw [hno]; exact ⟨[], rfl, fun i hi => nomatch hi⟩
    | inr hi => exact hi.new
  · rw [sector_silent write _ (hs h)]
    rfl
  · rw [count_port]
    have ha : p.active = true := by
      by_contra hn
      exact h (Or.inl (Bool.eq_false_of_not_eq_true hn))
    have hf : findSlot (hbas 0) ≠ none := fun hn => h (Or.inr (Or.inl hn))
    cases b with
    | false => exact absurd (Or.inr (Or.inr (hb rfl))) h
    | true => exact (sector_issues write _ ha hf).ne

/-- Commands for the sector, and then perhaps more for it. -/
theorem Accesses.more {n : UInt64} {q : Port}
    (h : Accesses ctx p hbas buffer size offset (n, q)) (n' : UInt64)
    (hloud : ¬ Silent p hbas buffer size offset) (res : Bool × Port)
    (hres : res = (false, q) ∨ Issues (ctx.offset + offset / 512) q res.2) :
    Accesses ctx p hbas buffer size offset (count n' res) := by
  obtain ⟨new, hnew, hlba⟩ := h.new
  have hne := h.loud hloud
  simp only at hnew hne
  have hpos : new ≠ [] := by
    intro h0
    rw [h0] at hnew
    exact hne hnew
  refine ⟨?_, fun hs => absurd hs hloud, fun _ => ?_⟩
  · rw [count_port]
    cases hres with
    | inl hno => exact ⟨new, by rw [hno]; exact hnew, hlba⟩
    | inr hi =>
      obtain ⟨new', hnew', hlba'⟩ := hi.new
      refine ⟨new' ++ new, by rw [hnew', hnew, List.append_assoc], fun i hi => ?_⟩
      exact (List.mem_append.mp hi).elim (hlba' i) (hlba i)
  · rw [count_port]
    have hlen : 0 < new.length := List.length_pos_iff.mpr hpos
    have hlong : p.issued.length < res.2.issued.length := by
      cases hres with
      | inl hno => rw [hno, hnew, List.length_append]; omega
      | inr hi =>
        obtain ⟨i, hi, -⟩ := hi
        rw [hi, hnew, List.length_cons, List.length_append]
        omega
    intro he
    rw [he] at hlong
    omega

theorem read_accesses (hc : ctx.isCdrom = false) :
    Accesses ctx p hbas buffer size offset (ctx.read p hbas buffer size offset) := by
  by_cases hw : size = 512 ∧ offset % 512 = 0
  · have he : ctx.read p hbas buffer size offset =
        count 512 (p.sector hbas false buffer (ctx.offset + offset / 512)) := by
      simp only [DevContext.read, hc, Bool.false_eq_true, if_false, if_pos hw]
      generalize p.sector hbas false buffer (ctx.offset + offset / 512) = res
      obtain ⟨ok, q⟩ := res
      cases ok <;> rfl
    rw [he]
    refine accesses_one buffer (fun hb => ⟨hb, hw⟩) fun hs => ?_
    exact hs.imp_right (Or.imp_right And.left)
  · have he : ctx.read p hbas buffer size offset = count (min size (512 - offset % 512))
        (p.sector hbas false true (ctx.offset + offset / 512)) := by
      simp only [DevContext.read, hc, Bool.false_eq_true, if_false, if_neg hw]
      generalize p.sector hbas false true (ctx.offset + offset / 512) = res
      obtain ⟨ok, q⟩ := res
      cases ok <;> rfl
    rw [he]
    refine accesses_one true (fun hb => nomatch hb) fun hs => ?_
    exact hs.imp_right (Or.imp_right fun h => absurd h.2 hw)

theorem write_accesses (hc : ctx.isCdrom = false) :
    Accesses ctx p hbas buffer size offset (ctx.write p hbas hbas' buffer size offset) := by
  by_cases hw : size = 512 ∧ offset % 512 = 0
  · have he : ctx.write p hbas hbas' buffer size offset =
        count 512 (p.sector hbas true buffer (ctx.offset + offset / 512)) := by
      simp only [DevContext.write, hc, Bool.false_eq_true, if_false, if_pos hw]
      generalize p.sector hbas true buffer (ctx.offset + offset / 512) = res
      obtain ⟨ok, q⟩ := res
      cases ok <;> rfl
    rw [he]
    refine accesses_one buffer (fun hb => ⟨hb, hw⟩) fun hs => ?_
    exact hs.imp_right (Or.imp_right And.left)
  · -- the sector is read, and written back when that went well
    have hsilent : Silent p hbas buffer size offset →
        p.active = false ∨ findSlot (hbas 0) = none ∨ true = false :=
      fun hs => hs.imp_right (Or.imp_right fun h => absurd h.2 hw)
    have hone : ∀ n, Accesses ctx p hbas buffer size offset
        (count n (p.sector hbas false true (ctx.offset + offset / 512))) :=
      fun n => accesses_one true (fun hb => nomatch hb) hsilent
    simp only [DevContext.write, hc, Bool.false_eq_true, if_false, if_neg hw]
    cases hs : p.sector hbas false true (ctx.offset + offset / 512) with
    | mk ok q =>
      rw [hs] at hone
      cases ok with
      | false => exact hone 0
      | true =>
        have hloud : ¬ Silent p hbas buffer size offset := by
          intro hq
          rw [sector_silent false _ (hsilent hq)] at hs
          cases hs
        have hboth := (hone 0).more (min size (512 - offset % 512)) hloud
          (q.sector hbas' true true (ctx.offset + offset / 512))
          (sector_cases true true (ctx.offset + offset / 512))
        dsimp only
        revert hboth
        generalize q.sector hbas' true true (ctx.offset + offset / 512) = res
        intro hboth
        obtain ⟨ok', q'⟩ := res
        cases ok' with
        | true => exact hboth
        | false => exact hboth

theorem Accesses.confined_iff {res : UInt64 × Port} (h : Accesses ctx p hbas buffer size offset res)
    (hctx : ctx.Named) : ctx.Confined p offset res ↔
      offset.toNat / 512 < ctx.sectors.toNat ∨ Silent p hbas buffer size offset := by
  constructor
  · rintro ⟨new, hnew, -, hend⟩
    by_cases hin : offset.toNat / 512 < ctx.sectors.toNat
    · exact Or.inl hin
    · right
      by_contra hs
      rw [(hend (by omega)).1] at hnew
      exact h.loud hs hnew
  · intro hor
    by_cases hs : Silent p hbas buffer size offset
    · rw [h.silent hs]
      exact ⟨[], rfl, (fun i hi => nomatch hi), fun _ => ⟨rfl, rfl⟩⟩
    · have hin := hor.resolve_right hs
      obtain ⟨new, hnew, hlba⟩ := h.new
      refine ⟨new, hnew, fun i hi => ?_, fun hend => by omega⟩
      have hdiv : (offset / 512).toNat = offset.toNat / 512 := by
        rw [UInt64.toNat_div]
        rfl
      have hlt := offset.toNat_lt
      rw [hlba i hi, UInt64.toNat_add, hdiv]
      rcases hctx.2 with h0 | ⟨hoff, hsec⟩
      · have hz : ctx.offset.toNat = 0 := by rw [h0]; rfl
        rw [hz]
        omega
      · omega

end confined

/-- Reads and writes of a registered device stay in it exactly when they begin before its end, or
when no command comes about: the size of the device is not looked at. -/
theorem device_confined_iff {ds : List Disk} {ctx : DevContext} (hctx : ctx ∈ registerDisks ds)
    (p : Port) (hbas hbas' : Nat → Controller) (buffer : Bool) (size offset : UInt64) :
    (ctx.Confined p offset (ctx.read p hbas buffer size offset) ↔
      offset.toNat / 512 < ctx.sectors.toNat ∨ Silent p hbas buffer size offset) ∧
    (ctx.Confined p offset (ctx.write p hbas hbas' buffer size offset) ↔
      offset.toNat / 512 < ctx.sectors.toNat ∨ Silent p hbas buffer size offset) := by
  have hn := registerDisks_named ctx hctx
  exact ⟨(read_accesses hn.1).confined_iff hn, (write_accesses hn.1).confined_iff hn⟩

section partitions

theorem portNumber_neZero : NeZero 32 := ⟨by decide⟩

attribute [local instance] portNumber_neZero in
/-- A disk of 8192 sectors with two partitions, one behind the other. -/
def twoPartitions : Disk :=
  ⟨0, 8192, some ![⟨0x83, 2048, 2048⟩, ⟨0x83, 4096, 4096⟩, ⟨0, 0, 0⟩, ⟨0, 0, 0⟩]⟩

def restingPort : Port := ⟨alignedBlocks, true, false, fun _ => .zero, .zero, []⟩

attribute [local instance] portNumber_neZero in
def firstPartition : DevContext := ⟨0, 2048, 2048, false⟩

theorem firstPartition_registered : firstPartition ∈ registerDisks [twoPartitions] := by
  decide +kernel

end partitions

/-- The last byte of the first partition. -/
theorem device_confined_iff_last_byte :
    firstPartition.Confined restingPort 0xfffff
      (firstPartition.read restingPort (fun _ => promptController) true 1 0xfffff) :=
  (device_confined_iff firstPartition_registered _ _ (fun _ => promptController) _ _ _).1.mpr
    (Or.inl (by decide))

/-- The byte after it is written to the second partition. -/
theorem neighbour_written :
    ¬ ∀ (ds : List Disk) (ctx : DevContext), ctx ∈ registerDisks ds → ∀ (p : Port)
      (hbas hbas' : Nat → Controller) (buffer : Bool) (size offset : UInt64),
      ctx.Confined p offset (ctx.read p hbas buffer size offset) ∧
        ctx.Confined p offset (ctx.write p hbas hbas' buffer size offset) := by
  intro H
  have h := (H [twoPartitions] firstPartition firstPartition_registered restingPort
    (fun _ => promptController) (fun _ => promptController) true 1 0x100000).2
  rcases ((write_accesses rfl).confined_iff (registerDisks_named _ firstPartition_registered)).mp h
    with hin | hact | hslot | hbuf
  · revert hin
    decide
  · cases hact
  · revert hslot
    decide
  · cases hbuf.1

end LosTacOS.Drivers.Ahci
