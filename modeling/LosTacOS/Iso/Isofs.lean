import LosTacOS.Heap.Alloc
import LosTacOS.Iso.Records

/-! `isofs.cpp`: a volume, and `open`, `read` and `list` on it. The code runs on the kernel's heap. -/
namespace LosTacOS.Iso

open ByteMemory Heap

section disc

structure Sector where
  bytes : List UInt8
  length_eq : bytes.length = 2048

/-- What `atapi::read` of one sector gives; a read that fails stores nothing. -/
abbrev Disc := UInt32 → Option Sector

structure IsoVolume where
  blockSize : UInt32
  rootExtent : UInt32
  rootSize : UInt32

def Sector.field (s : Sector) (a n : Nat) : Nat := loadLE (fun i => s.bytes.getD i 0) a n

def Sector.isPvd (s : Sector) : Bool :=
  s.bytes.getD 0 0 = 1 && (s.bytes.drop 1).take 5 = "CD001".toList.map Char.toUInt8

/-- The fields of the volume that `mount` makes of the descriptor. -/
def volumeOf (s : Sector) : IsoVolume where
  blockSize := UInt32.ofNat (s.field 128 2)
  rootExtent := UInt32.ofNat (s.field 158 4)
  rootSize := UInt32.ofNat (s.field 166 4)

/-- `mount`, when there is memory for the volume. -/
def mount (disc : Disc) : Option IsoVolume :=
  match disc 16 with
  | none => none
  | some pvd => if pvd.isPvd then some (volumeOf pvd) else none

end disc

section faults

inductive Fault where
  /-- an access outside the buffer it is meant for -/
  | outside
  /-- a division by zero -/
  | division
  /-- `kmalloc` or `kfree` does not return -/
  | heap
deriving DecidableEq

abbrev IsoM := StateT HeapState (Except Fault)

def ofHeap {α : Type} (x : HeapM α) : IsoM α := fun h =>
  match x h with
  | some r => .ok r
  | none => .error .heap

/-- Code that looks at memory; `none` is an access outside. -/
def onMem {α : Type} (f : Mem → Option α) : IsoM α := fun h =>
  match f h.mem with
  | some a => .ok (a, h)
  | none => .error .outside

def setMem (f : Mem → Option Mem) : IsoM Unit := fun h =>
  match f h.mem with
  | some m => .ok ((), { h with mem := m })
  | none => .error .outside

def poke (a n v : Nat) : IsoM Unit := setMem fun m => some (storeLE m a n v)

section run

variable {α β : Type} {x : IsoM α} {f : α → IsoM β} {h h' : HeapState} {r : β × HeapState} {e : Fault}

theorem bind_ok : (x >>= f) h = .ok r ↔ ∃ a h', x h = .ok (a, h') ∧ f a h' = .ok r := by
  cases hx : x h with
  | error e => simp [bind, StateT.bind, Except.bind, hx]
  | ok p =>
    obtain ⟨a, h'⟩ := p
    simp [bind, StateT.bind, Except.bind, hx]

theorem bind_error : (x >>= f) h = .error e ↔
    x h = .error e ∨ ∃ a h', x h = .ok (a, h') ∧ f a h' = .error e := by
  cases hx : x h with
  | error e => simp [bind, StateT.bind, Except.bind, hx]
  | ok p =>
    obtain ⟨a, h'⟩ := p
    simp [bind, StateT.bind, Except.bind, hx]

theorem bind_of {a : α} (hx : x h = .ok (a, h')) : (x >>= f) h = f a h' := by
  simp [bind, StateT.bind, Except.bind, hx]

@[simp] theorem pure_run (a : α) (h : HeapState) : (pure a : IsoM α) h = .ok (a, h) := rfl

theorem onMem_ok {f : Mem → Option α} {a : α} :
    onMem f h = .ok (a, h') ↔ f h.mem = some a ∧ h' = h := by
  unfold onMem
  cases f h.mem <;> simp [eq_comm]

theorem onMem_error {f : Mem → Option α} :
    onMem f h = .error e ↔ f h.mem = none ∧ e = .outside := by
  unfold onMem
  cases f h.mem <;> simp [eq_comm]

theorem setMem_ok {f : Mem → Option Mem} {u : Unit} :
    setMem f h = .ok (u, h') ↔ ∃ m, f h.mem = some m ∧ h' = { h with mem := m } := by
  unfold setMem
  cases f h.mem <;> simp [eq_comm]

theorem setMem_error {f : Mem → Option Mem} :
    setMem f h = .error e ↔ f h.mem = none ∧ e = .outside := by
  unfold setMem
  cases f h.mem <;> simp [eq_comm]

theorem ofHeap_ok {x : HeapM α} {a : α} : ofHeap x h = .ok (a, h') ↔ x h = some (a, h') := by
  unfold ofHeap
  cases x h <;> simp

theorem ofHeap_error {x : HeapM α} : ofHeap x h = .error e ↔ x h = none ∧ e = .heap := by
  unfold ofHeap
  cases x h <;> simp [eq_comm]

end run

end faults

section directories

def putSector (m : Mem) (a : Nat) (s : Sector) : Mem := fun x =>
  if a ≤ x ∧ x < a + 2048 then s.bytes.getD (x - a) 0 else m x

/-- The loop that reads a directory into its buffer; `remaining` counts down from `size`. -/
def loadDir (disc : Disc) (b : Buffer) (size remaining extent : UInt32) (m : Mem) : Option Mem :=
  if _h : 0 < remaining then
    match disc extent with
    | none => some m
    | some sector =>
      if b.holds (b.addr + (size - remaining).toNat) 2048 then
        loadDir disc b size (remaining - if remaining < 2048 then remaining else 2048) (extent + 1)
          (putSector m (b.addr + (size - remaining).toNat) sector)
      else none
  else some m
termination_by remaining.toNat
decreasing_by
  rw [UInt32.lt_iff_toNat_lt] at _h
  split_ifs with hlt
  · simpa using _h
  · rw [UInt32.toNat_sub_of_le _ _ (by simpa using hlt)]
    simp at _h ⊢
    omega

def Buffer.get (b : Buffer) (a n : Nat) : IsoM Nat := onMem fun m => b.load m a n

/-- The memory asked for to hold a directory of `size` bytes; the sum is a `uint32_t`. -/
def roomFor (size : UInt32) : Nat := (size + 2048).toNat

def allocDir (size : UInt32) : IsoM Buffer := do
  return ⟨← ofHeap (kmalloc (roomFor size)), roomFor size⟩

end directories

section handles

structure IsoHandle where
  extent : UInt32
  size : UInt32
  offset : Nat
  isDir : Bool
deriving DecidableEq

def handleAt (m : Mem) (h : Nat) : IsoHandle where
  extent := UInt32.ofNat (loadLE m (h + 8) 4)
  size := UInt32.ofNat (loadLE m (h + 12) 4)
  offset := loadLE m (h + 16) 8
  isDir := m (h + 24) ≠ 0

abbrev sizeofHandle : Nat := 32

/-- A new handle, or a null pointer: the pointer `data` to the volume and the fields, each of which
is computed when its turn comes. -/
def newHandle (data : Nat) (extent size isDir : IsoM Nat) : IsoM Nat := do
  let h ← ofHeap (kmalloc sizeofHandle)
  if h = 0 then return 0
  poke h 8 data
  poke (h + 8) 4 (← extent)
  poke (h + 12) 4 (← size)
  poke (h + 16) 8 0
  poke (h + 24) 1 (← isDir)
  return h

end handles

section opening

/-- The next component of a path, cut to 255 bytes, and the path after it and its slashes. -/
def splitComponent (p : List UInt8) : List UInt8 × List UInt8 :=
  ((p.takeWhile (· ≠ '/'.toUInt8)).take 255,
    (p.dropWhile (· ≠ '/'.toUInt8)).dropWhile (· = '/'.toUInt8))

theorem splitComponent_shrinks {p : List UInt8} (h : p ≠ []) :
    (splitComponent p).2.length < p.length := by
  cases p with
  | nil => exact absurd rfl h
  | cons c cs =>
    simp only [splitComponent, List.dropWhile_cons, List.length_cons]
    by_cases hc : c = '/'.toUInt8
    · have hrest := List.length_dropWhile_le (fun c => decide (c = '/'.toUInt8)) cs
      simp only [hc, ne_eq, not_true, decide_false, Bool.false_eq_true, if_false, List.dropWhile_cons,
        decide_true, if_true]
      omega
    · have hname := List.length_dropWhile_le (fun c => decide (c ≠ '/'.toUInt8)) cs
      have hslash := List.length_dropWhile_le (fun c => decide (c = '/'.toUInt8))
        (cs.dropWhile fun c => decide (c ≠ '/'.toUInt8))
      simp only [ne_eq, hc, not_false_eq_true, decide_true, if_true] at hslash hname ⊢
      omega

/-- Where a round of `isofs_open`'s loop begins: the current directory and the path left. -/
structure At where
  extent : UInt32
  size : UInt32
  path : List UInt8

/-- What is left to do with the record of the last component, whose buffer is freed before the
record is read. -/
def openRecord (data : Nat) (dir : Buffer) (rec : Nat) : IsoM Nat := do
  ofHeap (kfree dir.addr)
  newHandle data (dir.get (rec + 2) 4) (dir.get (rec + 10) 4)
    (return if isDirectory (UInt8.ofNat (← dir.get (rec + 25) 1)) then 1 else 0)

def openFound (data : Nat) (dir : Buffer) (rest : List UInt8) (rec : Nat) : IsoM (Nat ⊕ At) := do
  let extent ← dir.get (rec + 2) 4
  let size ← dir.get (rec + 10) 4
  if rest = [] then return .inl (← openRecord data dir rec)
  else
    ofHeap (kfree dir.addr)
    return .inr ⟨UInt32.ofNat extent, UInt32.ofNat size, rest⟩

def openRound (disc : Disc) (data : Nat) (s : At) : IsoM (Nat ⊕ At) := do
  let (component, rest) := splitComponent s.path
  if component = [] then return .inr { s with path := rest }
  else
    let dir ← allocDir s.size
    if dir.addr = 0 then return .inl 0
    else
      setMem (loadDir disc dir s.size s.size s.extent)
      match ← onMem fun m => findRecord m dir component (dir.addr + s.size.toNat) dir.addr with
      | none =>
        ofHeap (kfree dir.addr)
        return .inl 0
      | some rec => openFound data dir rest rec

section round

variable {disc : Disc} {data : Nat} {s s' : At} {h h' : HeapState}

theorem openRound_empty (hc : (splitComponent s.path).1 = []) :
    openRound disc data s h = .ok (.inr { s with path := (splitComponent s.path).2 }, h) := by
  simp [openRound, hc]

/-- What a round does, by what the allocator, the drive and the directory give. -/
theorem openRound_eq (hc : (splitComponent s.path).1 ≠ []) : openRound disc data s h =
    match kmalloc (roomFor s.size) h with
    | none => .error .heap
    | some (p, h₁) =>
      if p = 0 then .ok (.inl 0, h₁)
      else
        match loadDir disc ⟨p, roomFor s.size⟩ s.size s.size s.extent h₁.mem with
        | none => .error .outside
        | some m =>
          match findRecord m ⟨p, roomFor s.size⟩ (splitComponent s.path).1
            (p + s.size.toNat) p with
          | none => .error .outside
          | some none => (ofHeap (kfree p) >>= fun _ => pure (.inl 0)) { h₁ with mem := m }
          | some (some rec) =>
            openFound data ⟨p, roomFor s.size⟩ (splitComponent s.path).2 rec
              { h₁ with mem := m } := by
  simp only [openRound, hc, if_false, allocDir, bind_assoc, pure_bind]
  cases hk : kmalloc (roomFor s.size) h with
  | none => exact bind_error.mpr (.inl (ofHeap_error.mpr ⟨hk, rfl⟩))
  | some q =>
    obtain ⟨p, h₁⟩ := q
    rw [bind_of (ofHeap_ok.mpr hk)]
    by_cases hp : p = 0
    · simp [hp]
    · dsimp only
      rw [if_neg hp, if_neg hp]
      cases hm : loadDir disc ⟨p, roomFor s.size⟩ s.size s.size s.extent h₁.mem with
      | none => exact bind_error.mpr (.inl (setMem_error.mpr ⟨hm, rfl⟩))
      | some m =>
        rw [bind_of (setMem_ok (u := ()).mpr ⟨m, hm, rfl⟩)]
        dsimp only
        cases hr : findRecord m ⟨p, roomFor s.size⟩ (splitComponent s.path).1
            (p + s.size.toNat) p with
        | none =>
          apply bind_error.mpr
          exact .inl (onMem_error.mpr ⟨hr, rfl⟩)
        | some hit =>
          rw [bind_of (onMem_ok.mpr ⟨hr, rfl⟩)]
          cases hit <;> rfl

theorem openFound_path {dir : Buffer} {rest : List UInt8} {rec : Nat}
    (hrun : openFound data dir rest rec h = .ok (.inr s', h')) : s'.path = rest := by
  unfold openFound at hrun
  obtain ⟨extent, h₁, -, hrun⟩ := bind_ok.mp hrun
  obtain ⟨size, h₂, -, hrun⟩ := bind_ok.mp hrun
  split_ifs at hrun
  · obtain ⟨p, h₃, -, hrun⟩ := bind_ok.mp hrun
    cases hrun
  · obtain ⟨-, h₃, -, hrun⟩ := bind_ok.mp hrun
    cases hrun
    rfl

theorem openRound_shrinks (hp : s.path ≠ []) (hrun : openRound disc data s h = .ok (.inr s', h')) :
    s'.path.length < s.path.length := by
  have hpath : s'.path = (splitComponent s.path).2 := by
    by_cases hc : (splitComponent s.path).1 = []
    · rw [openRound_empty hc] at hrun
      cases hrun
      rfl
    · rw [openRound_eq hc] at hrun
      cases hk : kmalloc (roomFor s.size) h with
      | none => simp [hk] at hrun
      | some q =>
        obtain ⟨p, h₁⟩ := q
        simp only [hk] at hrun
        by_cases hp : p = 0
        · simp [hp] at hrun
        · rw [if_neg hp] at hrun
          cases hm : loadDir disc ⟨p, roomFor s.size⟩ s.size s.size s.extent h₁.mem with
          | none => simp [hm] at hrun
          | some m =>
            simp only [hm] at hrun
            cases hr : findRecord m ⟨p, roomFor s.size⟩ (splitComponent s.path).1
                (p + s.size.toNat) p with
            | none => simp [hr] at hrun
            | some hit =>
              simp only [hr] at hrun
              cases hit with
              | none =>
                obtain ⟨-, _, -, hrun⟩ := bind_ok.mp hrun
                cases hrun
              | some rec => exact openFound_path hrun
  rw [hpath]
  exact splitComponent_shrinks hp

end round

def openLoop (disc : Disc) (data : Nat) (s : At) : IsoM Nat := fun h =>
  if _hp : s.path = [] then .ok (0, h)
  else
    match _hrun : openRound disc data s h with
    | .error e => .error e
    | .ok (.inl p, h) => .ok (p, h)
    | .ok (.inr s', h) => openLoop disc data s' h
termination_by s.path.length
decreasing_by exact openRound_shrinks _hp _hrun

/-- `isofs_open` on the volume at `data`: the address of a handle, or 0. -/
def isofsOpen (disc : Disc) (vol : IsoVolume) (data : Nat) (path : List UInt8) : IsoM Nat := do
  let p := path.dropWhile (· = '/'.toUInt8)
  if p = [] then newHandle data (return vol.rootExtent.toNat) (return vol.rootSize.toNat) (return 1)
  else
    match disc vol.rootExtent with
    | none => return 0
    | some _ => openLoop disc data ⟨vol.rootExtent, vol.rootSize, p⟩

end opening

section reading

/-- The loop of `isofs_read`: `left` bytes are still to be read, `out` are read. -/
def readLoop (disc : Disc) (vol : IsoVolume) (left : Nat) (h : IsoHandle) (out : List UInt8) :
    Except Fault (List UInt8 × IsoHandle) :=
  if left = 0 then .ok (out, h)
  else if _hz : vol.blockSize.toNat = 0 then .error .division
  else
    match disc (UInt32.ofNat (h.extent.toNat + h.offset / vol.blockSize.toNat)) with
    | none => .ok (out, h)
    | some block =>
      let blockOff := h.offset % vol.blockSize.toNat
      let chunk := min (vol.blockSize.toNat - blockOff) left
      if blockOff + chunk ≤ 2048 then
        readLoop disc vol (left - chunk) { h with offset := h.offset + chunk }
          (out ++ (block.bytes.drop blockOff).take chunk)
      else .error .outside
termination_by left
decreasing_by
  have hoff := Nat.mod_lt h.offset (Nat.pos_of_ne_zero _hz)
  omega

/-- `isofs_read` of `size` bytes: its result, what it stores in the caller's buffer, the handle. -/
def isofsRead (disc : Disc) (vol : IsoVolume) (h : IsoHandle) (size : Nat) :
    Except Fault (Int × List UInt8 × IsoHandle) :=
  if h.isDir then .ok (-1, [], h)
  else if h.size.toNat ≤ h.offset then .ok (0, [], h)
  else
    (readLoop disc vol (min size (h.size.toNat - h.offset)) h []).map fun (out, h) =>
      (Int.bmod out.length (2^32), out, h)

end reading

section listing

/-- `isofs_list` of the root directory: the lines that it prints. -/
def isofsList (disc : Disc) (vol : IsoVolume) : IsoM (List Line) := do
  let dir ← allocDir vol.rootSize
  if dir.addr = 0 then return []
  setMem (loadDir disc dir vol.rootSize vol.rootSize vol.rootExtent)
  let lines ← onMem fun m => listRecords m dir (dir.addr + vol.rootSize.toNat) dir.addr
  ofHeap (kfree dir.addr)
  return lines

end listing

end LosTacOS.Iso
