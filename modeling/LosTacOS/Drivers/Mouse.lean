import Mathlib
import LosTacOS.Lib.RingBuffer

/-! The PS/2 mouse: the pointer that its interrupts move, and the bytes that `/dev/psaux` hands
out. -/
namespace LosTacOS.Drivers.Mouse

section code

/-- The size of the framebuffer. Its sides are below 2^31 - 256, and no position overflows. -/
structure Screen where
  width : Nat
  height : Nat

structure MouseState where
  x : Int
  y : Int
  left : Bool
  right : Bool
  middle : Bool
deriving DecidableEq

/-- `pointer` is `mouse_x`, `mouse_y` and the buttons. -/
structure State where
  pointer : MouseState
  mouseCycle : Nat
  mouseBytes : Nat → UInt8
  psauxRing : RingBuffer UInt8

def Screen.maxX (f : Screen) : Nat := if 0 < f.width then f.width - 1 else 1023

def Screen.maxY (f : Screen) : Nat := if 0 < f.height then f.height - 1 else 767

def init (f : Screen) : State where
  pointer :=
    { x := if 0 < f.width ∧ 0 < f.height then (f.width / 2 : Nat) else 512
      y := if 0 < f.width ∧ 0 < f.height then (f.height / 2 : Nat) else 384
      left := false, right := false, middle := false }
  mouseCycle := 0
  mouseBytes := fun _ => 0
  psauxRing := ⟨fun _ => 0, 0, 0⟩

def clamp (max : Nat) (z : Int) : Int := if z < 0 then 0 else if (max : Int) < z then max else z

def rel (statusByte sign b : UInt8) : Int :=
  if statusByte &&& sign ≠ 0 then (b.toNat : Int) - 256 else b.toNat

/-- What `case 2` does with the three bytes. -/
def movePointer (f : Screen) (p : MouseState) (statusByte b1 b2 : UInt8) : MouseState :=
  let overflow := statusByte &&& 0xC0 ≠ 0
  { x := clamp f.maxX (if overflow then p.x else p.x + rel statusByte 0x10 b1)
    y := clamp f.maxY (if overflow then p.y else p.y - rel statusByte 0x20 b2)
    left := statusByte &&& 1 ≠ 0
    right := statusByte &&& 2 ≠ 0
    middle := statusByte &&& 4 ≠ 0 }

def receive (f : Screen) (s : State) (b : UInt8) : State :=
  let s := { s with psauxRing := s.psauxRing.push 256 b }
  match s.mouseCycle with
  | 0 =>
    if b &&& 8 = 8 then
      { s with mouseBytes := Function.update s.mouseBytes 0 b, mouseCycle := 1 }
    else s
  | 1 => { s with mouseBytes := Function.update s.mouseBytes 1 b, mouseCycle := 2 }
  | 2 =>
    let bytes := Function.update s.mouseBytes 2 b
    { s with
      mouseBytes := bytes
      mouseCycle := 0
      pointer := movePointer f s.pointer (bytes 0) (bytes 1) (bytes 2) }
  | _ => s

def irqHandler (f : Screen) (s : State) (bytes : List UInt8) : State := bytes.foldl (receive f) s

def psauxRead (s : State) (len : Nat) : List UInt8 × State :=
  let p := s.psauxRing.take 256 len
  (p.1, { s with psauxRing := p.2 })

inductive Event where
  | irqs (parts : List (List UInt8))
  | read (len : Nat)

def step (f : Screen) (s : State) : Event → List UInt8 × State
  | .irqs parts => ([], parts.foldl (irqHandler f) s)
  | .read len => psauxRead s len

def run (f : Screen) : List Event → State → List (List UInt8) × State
  | [], s => ([], s)
  | e :: es, s =>
    let p := step f s e
    let q := run f es p.2
    (p.1 :: q.1, q.2)

end code

/-- A report of the mouse. `dy` counts upwards. -/
structure Report where
  left : Bool
  right : Bool
  middle : Bool
  dx : Int
  dy : Int
  overflowX : Bool
  overflowY : Bool
  dx_range : -256 ≤ dx ∧ dx < 256
  dy_range : -256 ≤ dy ∧ dy < 256

structure View where
  pointer : MouseState
  waiting : List Report

inductive Use where
  | reports (rs : List Report)
  | read (count : Nat)

section reports

variable {f : Screen} {s : State} {p : MouseState} {r : Report} {rs : List Report} {b : UInt8}
  {bs : List UInt8} {k : Nat}

def statusOf (left right middle negX negY overX overY : Bool) : UInt8 :=
  UInt8.ofNat (left.toNat + 2 * right.toNat + 4 * middle.toNat + 8 + 16 * negX.toNat +
    32 * negY.toNat + 64 * overX.toNat + 128 * overY.toNat)

def Report.status (r : Report) : UInt8 :=
  statusOf r.left r.right r.middle (r.dx < 0) (r.dy < 0) r.overflowX r.overflowY

def Report.bytes (r : Report) : List UInt8 :=
  [r.status, UInt8.ofNat (r.dx % 256).toNat, UInt8.ofNat (r.dy % 256).toNat]

def MouseState.moved (f : Screen) (p : MouseState) (r : Report) : MouseState :=
  let still := r.overflowX || r.overflowY
  { x := clamp f.maxX (if still then p.x else p.x + r.dx)
    y := clamp f.maxY (if still then p.y else p.y - r.dy)
    left := r.left, right := r.right, middle := r.middle }

theorem status_bits : ∀ left right middle negX negY overX overY : Bool,
    let status := statusOf left right middle negX negY overX overY
    status &&& 8 = 8 ∧ decide (status &&& 1 ≠ 0) = left ∧ decide (status &&& 2 ≠ 0) = right ∧
      decide (status &&& 4 ≠ 0) = middle ∧ (status &&& 16 ≠ 0 ↔ negX = true) ∧
      (status &&& 32 ≠ 0 ↔ negY = true) ∧ (status &&& 0xC0 ≠ 0 ↔ (overX || overY) = true) := by
  decide

theorem rel_eq {status sign : UInt8} {d : Int} (hd : -256 ≤ d ∧ d < 256)
    (hsign : status &&& sign ≠ 0 ↔ decide (d < 0) = true) :
    rel status sign (UInt8.ofNat (d % 256).toNat) = d := by
  have hbyte : (UInt8.ofNat (d % 256).toNat).toNat = (d % 256).toNat := by
    rw [UInt8.toNat_ofNat']
    omega
  rw [decide_eq_true_iff] at hsign
  rw [rel, hbyte]
  split
  · rename_i hneg
    have hlt := hsign.mp hneg
    omega
  · rename_i hpos
    have hge : ¬ d < 0 := fun h => hpos (hsign.mpr h)
    omega

theorem movePointer_report (f : Screen) (p : MouseState) (r : Report) :
    movePointer f p r.status (UInt8.ofNat (r.dx % 256).toNat) (UInt8.ofNat (r.dy % 256).toNat) =
      p.moved f r := by
  obtain ⟨-, hleft, hright, hmiddle, hx, hy, hover⟩ :=
    status_bits r.left r.right r.middle (r.dx < 0) (r.dy < 0) r.overflowX r.overflowY
  change decide (r.status &&& 1 ≠ 0) = _ at hleft
  change decide (r.status &&& 2 ≠ 0) = _ at hright
  change decide (r.status &&& 4 ≠ 0) = _ at hmiddle
  change r.status &&& 16 ≠ 0 ↔ _ at hx
  change r.status &&& 32 ≠ 0 ↔ _ at hy
  change r.status &&& 0xC0 ≠ 0 ↔ _ at hover
  unfold movePointer MouseState.moved
  dsimp only
  rw [rel_eq r.dx_range hx, rel_eq r.dy_range hy, hleft, hright, hmiddle]
  by_cases ho : (r.overflowX || r.overflowY) = true
  · rw [if_pos (hover.mpr ho), if_pos (hover.mpr ho), if_pos ho, if_pos ho]
  · rw [if_neg (fun h => ho (hover.mp h)), if_neg (fun h => ho (hover.mp h)), if_neg ho, if_neg ho]

/-- In front of a report, the handler is through with it after three bytes. -/
theorem irqHandler_report (h : s.mouseCycle = 0) (r : Report) :
    (irqHandler f s r.bytes).mouseCycle = 0 ∧
      (irqHandler f s r.bytes).pointer = s.pointer.moved f r := by
  have hsync := (status_bits r.left r.right r.middle (r.dx < 0) (r.dy < 0) r.overflowX
    r.overflowY).1
  change r.status &&& 8 = 8 at hsync
  obtain ⟨p, cycle, bytes, ring⟩ := s
  cases h
  rw [← movePointer_report f p r]
  simp [irqHandler, Report.bytes, receive, hsync]

theorem irqHandler_append (cs : List UInt8) :
    irqHandler f s (bs ++ cs) = irqHandler f (irqHandler f s bs) cs := List.foldl_append

/-- How the bytes are spread over the interrupts makes no difference. -/
theorem foldl_irqHandler (parts : List (List UInt8)) :
    parts.foldl (irqHandler f) s = irqHandler f s parts.flatten := List.foldl_flatten.symm

theorem irqHandler_reports (h : s.mouseCycle = 0) (rs : List Report) :
    (irqHandler f s (rs.flatMap Report.bytes)).mouseCycle = 0 ∧
      (irqHandler f s (rs.flatMap Report.bytes)).pointer =
        rs.foldl (MouseState.moved f) s.pointer := by
  induction rs generalizing s with
  | nil => exact ⟨h, rfl⟩
  | cons r rs ih =>
    obtain ⟨hcycle, hpointer⟩ := irqHandler_report (f := f) h r
    obtain ⟨hcycle', hpointer'⟩ := ih hcycle
    rw [List.flatMap_cons, irqHandler_append]
    refine ⟨hcycle', ?_⟩
    rw [hpointer', hpointer, List.foldl_cons]

theorem receive_psauxRing (f : Screen) (s : State) (b : UInt8) :
    (receive f s b).psauxRing = s.psauxRing.push 256 b := by
  unfold receive
  dsimp only
  split
  · split
    · rfl
    · rfl
  · rfl
  · rfl
  · rfl

theorem irqHandler_psauxRing (bs : List UInt8) :
    (irqHandler f s bs).psauxRing = bs.foldl (RingBuffer.push 256) s.psauxRing := by
  induction bs generalizing s with
  | nil => rfl
  | cons b bs ih =>
    rw [List.foldl_cons, ← receive_psauxRing f s b, ← ih]
    rfl

theorem flatMap_bytes_length (rs : List Report) :
    (rs.flatMap Report.bytes).length = 3 * rs.length := by
  induction rs with
  | nil => rfl
  | cons r rs ih =>
    rw [List.flatMap_cons, List.length_append, ih, List.length_cons]
    have hthree : r.bytes.length = 3 := rfl
    omega

theorem drop_flatMap_bytes (k : Nat) (rs : List Report) :
    (rs.flatMap Report.bytes).drop (3 * k) = (rs.drop k).flatMap Report.bytes := by
  induction k generalizing rs with
  | zero => rfl
  | succ k ih =>
    cases rs with
    | nil => simp
    | cons r rs =>
      rw [List.drop_succ_cons, ← ih]
      rfl

theorem take_flatMap_bytes (k : Nat) (rs : List Report) :
    (rs.flatMap Report.bytes).take (3 * k) = (rs.take k).flatMap Report.bytes := by
  induction k generalizing rs with
  | zero => rfl
  | succ k ih =>
    cases rs with
    | nil => simp
    | cons r rs =>
      rw [List.take_succ_cons, List.flatMap_cons, List.flatMap_cons, ← ih]
      rfl

/-- What is dropped from a full ring are whole reports, as 255 is a multiple of three. -/
theorem newest_flatMap_bytes (rs : List Report) :
    RingBuffer.newest 255 (rs.flatMap Report.bytes) =
      (RingBuffer.newest 85 rs).flatMap Report.bytes := by
  have hcount : 3 * rs.length - 255 = 3 * (rs.length - 85) := by omega
  rw [RingBuffer.newest, RingBuffer.newest, flatMap_bytes_length, hcount, drop_flatMap_bytes]

end reports

namespace View

def step (f : Screen) (v : View) : Use → List Report × View
  | .reports rs =>
    ([], ⟨rs.foldl (MouseState.moved f) v.pointer, RingBuffer.newest 85 (v.waiting ++ rs)⟩)
  | .read count => (v.waiting.take count, { v with waiting := v.waiting.drop count })

def run (f : Screen) : List Use → View → List (List Report) × View
  | [], v => ([], v)
  | u :: us, v =>
    let p := step f v u
    let q := run f us p.2
    (p.1 :: q.1, q.2)

def start (f : Screen) : View := ⟨(init f).pointer, []⟩

end View

section uses

variable {f : Screen} {s : State} {v : View} {es : List Event} {us : List Use} {e : Event} {u : Use}

/-- Between two reads come whole reports, spread over interrupts in any way, and a read asks for
whole reports. -/
inductive Means : Event → Use → Prop where
  | reports {parts : List (List UInt8)} {rs : List Report}
      (h : parts.flatten = rs.flatMap Report.bytes) : Means (.irqs parts) (.reports rs)
  | read (count : Nat) : Means (.read (3 * count)) (.read count)

structure Shows (s : State) (v : View) : Prop where
  cycle : s.mouseCycle = 0
  pointer : s.pointer = v.pointer
  holds : s.psauxRing.Holds 256 (v.waiting.flatMap Report.bytes)

theorem shows_start (f : Screen) : Shows (init f) (View.start f) := by
  refine ⟨rfl, rfl, ?_, ?_, rfl, ?_⟩
  · exact Nat.zero_lt_succ _
  · exact Nat.zero_lt_succ _
  · intro i hi
    cases hi

theorem Shows.step (h : Shows s v) (hm : Means e u) :
    (step f s e).1 = (v.step f u).1.flatMap Report.bytes ∧
      Shows (Mouse.step f s e).2 (v.step f u).2 := by
  cases hm with
  | @reports parts rs hparts =>
    have hstate : (Mouse.step f s (.irqs parts)).2 = irqHandler f s (rs.flatMap Report.bytes) :=
      (foldl_irqHandler parts).trans (congrArg _ hparts)
    obtain ⟨hcycle, hpointer⟩ := irqHandler_reports (f := f) h.cycle rs
    have hpush := h.holds.pushAll (by decide) (rs.flatMap Report.bytes)
    refine ⟨rfl, ?_⟩
    rw [hstate]
    refine ⟨hcycle, ?_, ?_⟩
    · rw [hpointer, h.pointer]
      rfl
    · rw [← List.flatMap_append, newest_flatMap_bytes] at hpush
      rw [irqHandler_psauxRing]
      exact hpush
  | read count =>
    obtain ⟨htake, hdrop⟩ := h.holds.take (3 * count)
    rw [take_flatMap_bytes] at htake
    rw [drop_flatMap_bytes] at hdrop
    exact ⟨htake, h.cycle, h.pointer, hdrop⟩

theorem Shows.run (h : Shows s v) (hm : List.Forall₂ Means es us) :
    (run f es s).1 = (v.run f us).1.map (List.flatMap Report.bytes) ∧
      Shows (Mouse.run f es s).2 (v.run f us).2 := by
  induction hm generalizing s v with
  | nil => exact ⟨rfl, h⟩
  | @cons e u es us he _ ih =>
    obtain ⟨hout, hshows⟩ := h.step (f := f) he
    obtain ⟨houts, hend⟩ := ih hshows
    refine ⟨?_, hend⟩
    unfold Mouse.run View.run
    dsimp only
    rw [hout, houts, List.map_cons]

/-- Each read gets whole reports in the order in which they came, of which only the oldest are ever
dropped, and each report, dropped or not, moves the pointer. -/
theorem reads_reports (hm : List.Forall₂ Means es us) :
    (run f es (init f)).1 = ((View.start f).run f us).1.map (List.flatMap Report.bytes) ∧
      (run f es (init f)).2.pointer = ((View.start f).run f us).2.pointer := by
  obtain ⟨houts, hend⟩ := (shows_start f).run hm
  exact ⟨houts, hend.pointer⟩

def clickReport : Report := ⟨true, false, false, -3, 2, false, false, by decide, by decide⟩

theorem clickReport_read :
    (run ⟨800, 600⟩ [.irqs [[25], [253, 2]], .read 3] (init ⟨800, 600⟩)).1 = [[], [25, 253, 2]] ∧
      (run ⟨800, 600⟩ [.irqs [[25], [253, 2]], .read 3] (init ⟨800, 600⟩)).2.pointer =
        ⟨397, 298, true, false, false⟩ := by
  have hm : List.Forall₂ Means [.irqs [[25], [253, 2]], .read 3] [.reports [clickReport], .read 1] :=
    .cons (.reports rfl) (.cons (.read 1) .nil)
  obtain ⟨houts, hpointer⟩ := reads_reports (f := ⟨800, 600⟩) hm
  rw [houts, hpointer]
  exact ⟨rfl, rfl⟩

end uses

section inside

variable {f : Screen} {s : State} {p : MouseState} {es : List Event}

def MouseState.Inside (f : Screen) (p : MouseState) : Prop :=
  (0 ≤ p.x ∧ p.x ≤ f.maxX) ∧ 0 ≤ p.y ∧ p.y ≤ f.maxY

theorem clamp_range (max : Nat) (z : Int) : 0 ≤ clamp max z ∧ clamp max z ≤ max := by
  unfold clamp
  split
  · omega
  · split
    · omega
    · omega

theorem receive_inside (h : s.pointer.Inside f) (b : UInt8) :
    (receive f s b).pointer.Inside f := by
  unfold receive
  dsimp only
  split
  · split
    · exact h
    · exact h
  · exact h
  · exact ⟨clamp_range _ _, clamp_range _ _⟩
  · exact h

theorem irqHandler_inside (h : s.pointer.Inside f) (bs : List UInt8) :
    (irqHandler f s bs).pointer.Inside f := by
  induction bs generalizing s with
  | nil => exact h
  | cons b bs ih => exact ih (receive_inside h b)

/-- Whatever bytes come, the pointer stays on the screen. -/
theorem run_inside (h : s.pointer.Inside f) (es : List Event) :
    (run f es s).2.pointer.Inside f := by
  induction es generalizing s with
  | nil => exact h
  | cons e es ih =>
    cases e with
    | irqs parts =>
      apply ih
      have hstep : (step f s (.irqs parts)).2 = irqHandler f s parts.flatten := foldl_irqHandler parts
      rw [hstep]
      exact irqHandler_inside h _
    | read len => exact ih h

theorem init_inside (h : 0 < f.width ↔ 0 < f.height) : (init f).pointer.Inside f := by
  unfold init MouseState.Inside Screen.maxX Screen.maxY
  dsimp only
  by_cases hw : 0 < f.width
  · have hh := h.mp hw
    simp only [hw, hh, and_self, if_true]
    omega
  · have hh : ¬ 0 < f.height := fun hh => hw (h.mpr hh)
    simp only [hw, hh, and_self, if_false]
    decide

end inside

end LosTacOS.Drivers.Mouse
