import LosTacOS.Printf.Buffer

/-! The generators of procfs that append to one buffer of 2048 bytes. -/
namespace LosTacOS.Printf

open Emit

section append

/-- One call `ksnprintf(buffer + offset, sizeof(buffer) - offset, fmt, ...)`. -/
structure Record where
  fmt : List UInt8
  args : List Arg

def Record.text (r : Record) : List UInt8 := full r.fmt r.args

structure Gen where
  buffer : List UInt8
  offset : Nat

/-- `offset += ksnprintf(...)`: the result is an `int`, the sum a `size_t`. -/
def advance (offset : Nat) (r : Int) : Nat := ((offset + r) % 2^64).toNat

def Gen.append (g : Gen) (r : Record) : Option Gen :=
  (kvsnprintf g.buffer g.offset (advance 2048 (-g.offset)) r.fmt r.args).map fun (buffer, n) =>
    ⟨buffer, advance g.offset n⟩

def Gen.appendWhile (below : Nat → Bool) (g : Gen) : List Record → Option Gen
  | [] => some g
  | r :: rs => if below g.offset then (g.append r).bind fun g => g.appendWhile below rs else some g

def Gen.appendAll (g : Gen) (rs : List Record) : Option Gen := g.appendWhile (fun _ => true) rs

def Gen.clear (buffer : List UInt8) : Gen := ⟨buffer.set 0 0, 0⟩

end append

section state

structure Cpu where
  vendor : List UInt8
  brand : List UInt8
  flagsStr : List UInt8
  family : UInt32
  model : UInt32
  stepping : UInt32
  logicalCores : UInt32
  physicalCores : UInt32
  apicId : UInt32

inductive TaskState where
  | ready
  | running
  | blocked
  | dead
deriving DecidableEq

structure Mount where
  /-- the name of the file system, if it has one -/
  fsName : Option (List UInt8)
  path : List UInt8

/-- What the generators look at: the processors up to `num_cpus`, the timer, the tasks, the mounts,
the names under `/dev`, and of a process which of its descriptors are open. -/
structure System where
  cpus : List Cpu
  ticks : UInt64
  tasks : List TaskState
  mounts : List Mount
  dev : List (List UInt8)
  fds : Option (Fin 32 → Bool)

end state

section generators

def bytes (s : String) : List UInt8 := s.toList.map Char.toUInt8

def Arg.num (n : UInt64) : Arg := ⟨n, []⟩

def Arg.ptr (s : List UInt8) : Arg := ⟨1, s⟩

def orElse (s : List UInt8) (t : String) : List UInt8 := if s.isEmpty then bytes t else s

def cpuRecord (i : Nat) (cpu : Cpu) : Record where
  fmt := bytes ("processor\t: %u\nvendor_id\t: %s\ncpu family\t: %u\nmodel\t\t: %u\n" ++
    "model name\t: %s\nstepping\t: %u\ncpu MHz\t\t: 2400.000\ncache size\t: 512 KB\n" ++
    "physical id\t: 0\nsiblings\t: %u\ncore id\t\t: %u\ncpu cores\t: %u\napicid\t\t: %u\n" ++
    "fpu\t\t: yes\nfpu_exception\t: yes\nflags\t\t: %s\nbogomips\t: 4800.00\n" ++
    "clflush size\t: 64\ncache_alignment\t: 64\n" ++
    "address sizes\t: 39 bits physical, 48 bits virtual\n\n")
  args := [.num i.toUInt64, .ptr (orElse cpu.vendor "Unknown"), .num cpu.family.toUInt64,
    .num cpu.model.toUInt64, .ptr (orElse cpu.brand "x86_64 Processor"),
    .num cpu.stepping.toUInt64, .num cpu.logicalCores.toUInt64, .num i.toUInt64,
    .num cpu.physicalCores.toUInt64, .num cpu.apicId.toUInt64,
    .ptr (orElse cpu.flagsStr
      "fpu vme de pse tsc msr pae mce cx8 apic sse sse2 sse3 sse4_1 sse4_2 avx avx2")]

def getCpuinfo (sys : System) (buffer : List UInt8) : Option Gen :=
  (Gen.clear buffer).appendAll (sys.cpus.mapIdx cpuRecord)

def statHead (sys : System) : Record :=
  ⟨bytes "cpu  %lu 0 %lu 0 0 0 0 0 0 0\n", [.num (sys.ticks * 10), .num sys.ticks]⟩

def statCpu (sys : System) (i : Nat) : Record :=
  ⟨bytes "cpu%u %lu 0 %lu 0 0 0 0 0 0 0\n",
    [.num i.toUInt64, .num (sys.ticks * 10 / sys.cpus.length.toUInt64),
      .num (sys.ticks / sys.cpus.length.toUInt64)]⟩

def statTail (sys : System) : Record :=
  ⟨bytes "btime 1700000000\nprocesses %lu\nprocs_running %lu\nprocs_blocked %lu\n",
    [.num sys.tasks.length.toUInt64,
      .num (sys.tasks.countP fun t => t = .running || t = .ready).toUInt64,
      .num (sys.tasks.count .blocked).toUInt64]⟩

def getStat (sys : System) (buffer : List UInt8) : Option Gen :=
  (⟨buffer, 0⟩ : Gen).appendAll
    (statHead sys :: ((List.range sys.cpus.length).map (statCpu sys) ++ [statTail sys]))

def Mount.name (m : Mount) : List UInt8 := m.fsName.getD (bytes "unknown")

def mountRecord (m : Mount) : Record :=
  ⟨bytes "%s %s %s rw 0 0\n", [.ptr m.name, .ptr m.path, .ptr m.name]⟩

def getMounts (sys : System) (buffer : List UInt8) : Option Gen :=
  (Gen.clear buffer).appendAll (sys.mounts.map mountRecord)

def deviceHead : Record := ⟨bytes "Character devices:\n", []⟩

def deviceRecord (i : Nat) (name : List UInt8) : Record :=
  ⟨bytes "  %d %s\n", [.num (i + 1).toUInt64, .ptr name]⟩

/-- The one loop that looks at the room left: `offset < sizeof(buffer) - 32`. -/
def getDevices (sys : System) (buffer : List UInt8) : Option Gen :=
  ((⟨buffer, 0⟩ : Gen).append deviceHead).bind fun g =>
    g.appendWhile (fun offset => offset < 2048 - 32) (sys.dev.mapIdx deviceRecord)

def filesystemRecord (m : Mount) : Record := ⟨bytes "nodev\t%s\n", [.ptr m.name]⟩

def getFilesystems (sys : System) (buffer : List UInt8) : Option Gen :=
  (Gen.clear buffer).appendAll (sys.mounts.map filesystemRecord)

/-- The devices that `get_diskstats` and `get_partitions` take for disks. -/
def isDisk (name : List UInt8) : Bool :=
  (bytes "sd").isPrefixOf name || (bytes "hd").isPrefixOf name || (bytes "vd").isPrefixOf name ||
    (bytes "nvme").isPrefixOf name

def diskRecord (ticks : UInt64) (i : Nat) (name : List UInt8) : Record :=
  ⟨bytes "   8       %d %s %lu %lu %lu %lu %lu %lu %lu %lu 0 %lu %lu\n",
    [.num i.toUInt64, .ptr name, .num (ticks / 10), .num (ticks / 20), .num (ticks * 8), .num ticks,
      .num (ticks / 30), .num (ticks / 40), .num (ticks * 2), .num ticks]⟩

def getDiskstats (sys : System) (buffer : List UInt8) : Option Gen :=
  (Gen.clear buffer).appendAll ((sys.dev.filter isDisk).mapIdx (diskRecord sys.ticks))

def partitionHead : Record := ⟨bytes "major minor  #blocks  name\n\n", []⟩

def partitionRecord (i : Nat) (name : List UInt8) : Record :=
  ⟨bytes "   8        %d   %lu %s\n", [.num i.toUInt64,
    .num (if name.getLast?.any isDigit then 2097152 else 20971520), .ptr name]⟩

def getPartitions (sys : System) (buffer : List UInt8) : Option Gen :=
  (⟨buffer, 0⟩ : Gen).appendAll
    (partitionHead :: (sys.dev.filter isDisk).mapIdx partitionRecord)

def mountinfoRecord (i : Nat) (m : Mount) : Record :=
  ⟨bytes "%d 1 0:0 / %s rw,relatime - %s %s rw\n",
    [.num (i + 1).toUInt64, .ptr m.path, .ptr m.name, .ptr m.name]⟩

def mountinfo (sys : System) (buffer : List UInt8) : Option Gen :=
  (Gen.clear buffer).appendAll (sys.mounts.mapIdx mountinfoRecord)

def fdRecord (i : Fin 32) : Record := ⟨bytes "%d\n", [.num i.val.toUInt64]⟩

def fdRecords (sys : System) : List Record :=
  match sys.fds with
  | some used => ((List.finRange 32).filter used).map fdRecord
  | none => []

/-- The listings of `fd` and of `fdinfo` are written alike. -/
def fd (sys : System) (buffer : List UInt8) : Option Gen :=
  (Gen.clear buffer).appendAll (fdRecords sys)

def fdinfo (sys : System) (buffer : List UInt8) : Option Gen :=
  (Gen.clear buffer).appendAll (fdRecords sys)

end generators

section room

variable {g : Gen}

def Within (offset : Nat) : List Record → Prop
  | [] => True
  | r :: rs => offset ≤ 2048 ∧ Within (advance offset (cInt r.text.length)) rs

instance (offset : Nat) (rs : List Record) : Decidable (Within offset rs) :=
  match rs with
  | [] => inferInstanceAs (Decidable True)
  | r :: rs =>
    have := instDecidableWithin (advance offset (cInt r.text.length)) rs
    inferInstanceAs (Decidable (_ ∧ _))

def Ended (buffer : List UInt8) : Prop := buffer.length = 2048 ∧ 0 ∈ buffer

theorem advance_lt (offset : Nat) (r : Int) : advance offset r < 2^64 := by
  unfold advance
  omega

/-- An append inside the buffer succeeds, and what is stored ends with a NUL. -/
theorem append_inside (hlen : g.buffer.length = 2048) (h : g.offset ≤ 2048) (r : Record) :
    ∃ buffer, g.append r = some ⟨buffer, advance g.offset (cInt r.text.length)⟩ ∧
      buffer.length = 2048 ∧ (0 ∈ g.buffer ∨ g.offset < 2048 → 0 ∈ buffer) := by
  have hsize : advance 2048 (-g.offset) = 2048 - g.offset := by
    unfold advance
    omega
  have hsplit : g.buffer = g.buffer.take g.offset ++ g.buffer.drop g.offset ++ [] := by simp
  have hbase : (g.buffer.take g.offset).length = g.offset := by simp; omega
  have hrest : (g.buffer.drop g.offset).length = 2048 - g.offset := by simp [hlen]
  obtain ⟨b, heq, hb, hpre⟩ := kvsnprintf_into r.fmt r.args (g.buffer.take g.offset)
    (g.buffer.drop g.offset) []
  rw [← hsplit, hbase, hrest, List.append_nil] at heq
  refine ⟨g.buffer.take g.offset ++ b, ?_, ?_, ?_⟩
  · rw [Gen.append, hsize, heq]
    rfl
  · rw [List.length_append, hbase, hb, hrest]
    omega
  · intro hnul
    by_cases hlt : g.offset < 2048
    · have hne : g.buffer.drop g.offset ≠ [] := by
        apply List.ne_nil_of_length_pos
        omega
      exact List.mem_append_right _ ((hpre hne).subset (by simp))
    · have hb0 : b = [] := List.eq_nil_of_length_eq_zero (by omega)
      have htake : g.buffer.take g.offset = g.buffer := List.take_of_length_le (by omega)
      rw [hb0, List.append_nil, htake]
      exact hnul.resolve_right hlt

theorem append_outside (hlen : g.buffer.length = 2048) (hoff : g.offset < 2^64)
    (h : 2048 < g.offset) (r : Record) : g.append r = none := by
  have hsize : advance 2048 (-g.offset) ≠ 0 := by
    unfold advance
    omega
  have hfits : ∀ t, ¬ Fits g.buffer g.offset (t ++ [0]) := by
    rintro t (hnil | hle)
    · simp at hnil
    · omega
  rw [Gen.append, kvsnprintf_eq, putAll_terminate, if_neg hsize, if_neg (hfits _)]
  rfl

/-- A run of appends stays inside the buffer and ends it exactly when there is room before each. -/
theorem appendAll_iff (rs : List Record) (hlen : g.buffer.length = 2048) (hoff : g.offset < 2^64)
    (hnul : 0 ∈ g.buffer ∨ g.offset < 2048 ∧ rs ≠ []) :
    (∃ g', g.appendAll rs = some g' ∧ Ended g'.buffer) ↔ Within g.offset rs := by
  unfold Gen.appendAll
  induction rs generalizing g with
  | nil => exact iff_of_true ⟨g, rfl, hlen, hnul.resolve_right fun h => h.2 rfl⟩ trivial
  | cons r rs ih =>
    rw [Gen.appendWhile, if_pos rfl]
    by_cases hle : g.offset ≤ 2048
    · obtain ⟨buffer, heq, hbuf, hzero⟩ := append_inside hlen hle r
      rw [heq, Option.bind_some, ih hbuf (advance_lt _ _) (.inl (hzero (hnul.imp_right And.left)))]
      exact (and_iff_right hle).symm
    · rw [append_outside hlen hoff (by omega) r]
      exact iff_of_false (by simp) fun h => hle h.1

/-- A loop that looks at the room left stays inside the buffer. -/
theorem appendWhile_ends (rs : List Record) (hlen : g.buffer.length = 2048) (hnul : 0 ∈ g.buffer) :
    ∃ g', g.appendWhile (fun offset => offset < 2048 - 32) rs = some g' ∧ Ended g'.buffer := by
  induction rs generalizing g with
  | nil => exact ⟨g, rfl, hlen, hnul⟩
  | cons r rs ih =>
    rw [Gen.appendWhile]
    by_cases hroom : g.offset < 2048 - 32
    · obtain ⟨buffer, heq, hbuf, hzero⟩ := append_inside hlen (by omega) r
      rw [if_pos (decide_eq_true hroom), heq, Option.bind_some]
      exact ih hbuf (hzero (.inl hnul))
    · rw [if_neg (by simpa using hroom)]
      exact ⟨g, rfl, hlen, hnul⟩

end room

section theorems

inductive Generator where
  | cpuinfo
  | stat
  | mounts
  | devices
  | filesystems
  | diskstats
  | partitions
  | mountinfo
  | fd
  | fdinfo

def Generator.run (sys : System) (buffer : List UInt8) : Generator → Option Gen
  | .cpuinfo => getCpuinfo sys buffer
  | .stat => getStat sys buffer
  | .mounts => getMounts sys buffer
  | .devices => getDevices sys buffer
  | .filesystems => getFilesystems sys buffer
  | .diskstats => getDiskstats sys buffer
  | .partitions => getPartitions sys buffer
  | .mountinfo => Printf.mountinfo sys buffer
  | .fd => Printf.fd sys buffer
  | .fdinfo => Printf.fdinfo sys buffer

def Generator.records (sys : System) : Generator → List Record
  | .cpuinfo => sys.cpus.mapIdx cpuRecord
  | .stat => statHead sys :: ((List.range sys.cpus.length).map (statCpu sys) ++ [statTail sys])
  | .mounts => sys.mounts.map mountRecord
  | .devices => []
  | .filesystems => sys.mounts.map filesystemRecord
  | .diskstats => (sys.dev.filter isDisk).mapIdx (diskRecord sys.ticks)
  | .partitions => partitionHead :: (sys.dev.filter isDisk).mapIdx partitionRecord
  | .mountinfo => sys.mounts.mapIdx mountinfoRecord
  | .fd => fdRecords sys
  | .fdinfo => fdRecords sys

def Generator.Safe (sys : System) (gen : Generator) : Prop :=
  ∀ buffer : List UInt8, buffer.length = 2048 → ∃ g, gen.run sys buffer = some g ∧ Ended g.buffer

theorem clear_iff {buffer : List UInt8} (hlen : buffer.length = 2048) (rs : List Record) :
    (∃ g, (Gen.clear buffer).appendAll rs = some g ∧ Ended g.buffer) ↔ Within 0 rs := by
  apply appendAll_iff rs (g := Gen.clear buffer)
  · simp [Gen.clear, hlen]
  · exact Nat.two_pow_pos 64
  · left
    apply List.mem_of_getElem? (i := 0)
    simp [Gen.clear, hlen]

theorem start_iff {buffer : List UInt8} (hlen : buffer.length = 2048) (r : Record)
    (rs : List Record) :
    (∃ g, (⟨buffer, 0⟩ : Gen).appendAll (r :: rs) = some g ∧ Ended g.buffer) ↔
      Within 0 (r :: rs) :=
  appendAll_iff (g := ⟨buffer, 0⟩) (r :: rs) hlen (Nat.two_pow_pos 64)
    (.inr ⟨Nat.succ_pos 2047, by simp⟩)

theorem getDevices_safe (sys : System) {buffer : List UInt8} (hlen : buffer.length = 2048) :
    ∃ g, getDevices sys buffer = some g ∧ Ended g.buffer := by
  obtain ⟨b, heq, hbuf, hzero⟩ := append_inside (g := ⟨buffer, 0⟩) hlen (Nat.zero_le _) deviceHead
  rw [getDevices, heq, Option.bind_some]
  exact appendWhile_ends _ hbuf (hzero (.inr (Nat.succ_pos 2047)))

theorem run_safe_iff (sys : System) (gen : Generator) {buffer : List UInt8}
    (hlen : buffer.length = 2048) :
    (∃ g, gen.run sys buffer = some g ∧ Ended g.buffer) ↔ Within 0 (gen.records sys) := by
  cases gen with
  | cpuinfo => exact clear_iff hlen _
  | stat => exact start_iff hlen _ _
  | mounts => exact clear_iff hlen _
  | devices => exact iff_of_true (getDevices_safe sys hlen) trivial
  | filesystems => exact clear_iff hlen _
  | diskstats => exact clear_iff hlen _
  | partitions => exact start_iff hlen _ _
  | mountinfo => exact clear_iff hlen _
  | fd => exact clear_iff hlen _
  | fdinfo => exact clear_iff hlen _

/-- A generator is safe exactly when the lengths of its records leave the running offset inside the
buffer before every record. -/
theorem generators_safe_iff (sys : System) (gen : Generator) :
    gen.Safe sys ↔ Within 0 (gen.records sys) := by
  constructor
  · intro h
    exact (run_safe_iff sys gen List.length_replicate).mp
      (h (List.replicate 2048 0) List.length_replicate)
  · intro h buffer hlen
    exact (run_safe_iff sys gen hlen).mpr h

theorem Within.replicate {r : Record} {len offset n k : Nat} (hlen : r.text.length = len)
    (hint : cInt len = len) (h : Within offset (List.replicate n r)) (hk : k < n) :
    offset + k * len ≤ 2048 := by
  induction k generalizing offset n with
  | zero =>
    cases n with
    | zero => exact absurd hk (Nat.not_lt_zero _)
    | succ n => simpa using h.1
  | succ k ih =>
    cases n with
    | zero => exact absurd hk (Nat.not_lt_zero _)
    | succ n =>
      obtain ⟨hle, hrest⟩ := h
      have hstep : advance offset (cInt r.text.length) = (offset + len) % 2^64 := by
        rw [hlen, hint]
        unfold advance
        omega
      have hsmall : len < 2^31 := by
        have hlt : Int.bmod len (2^32) < ((2^32 : Nat) + 1) / 2 := Int.bmod_lt (by decide)
        unfold cInt at hint
        omega
      rw [hstep, Nat.mod_eq_of_lt (by omega)] at hrest
      have hk' := ih hrest (Nat.lt_of_succ_lt_succ hk)
      linarith [Nat.succ_mul k len]

/-- What is left when `/proc` is mounted a hundred times. -/
def hundredMounts : System :=
  ⟨[], 0, [], List.replicate 100 ⟨some (bytes "procfs"), bytes "/proc"⟩, [], none⟩

theorem hundred_records : Generator.records hundredMounts .mounts =
    List.replicate 100 (mountRecord ⟨some (bytes "procfs"), bytes "/proc"⟩) :=
  List.map_replicate

theorem mountRecord_length :
    (mountRecord ⟨some (bytes "procfs"), bytes "/proc"⟩).text.length = 27 := by
  decide +kernel

theorem mounts_overrun : ¬ ∀ (sys : System) (gen : Generator), gen.Safe sys := by
  intro H
  have h := (run_safe_iff hundredMounts .mounts List.length_replicate).mp
    (H hundredMounts .mounts (List.replicate 2048 0) List.length_replicate)
  rw [hundred_records] at h
  have hint : cInt (27 : Nat) = (27 : Nat) := by
    unfold cInt
    rfl
  have hfar := h.replicate (k := 99) mountRecord_length hint (by decide)
  omega

end theorems

end LosTacOS.Printf
