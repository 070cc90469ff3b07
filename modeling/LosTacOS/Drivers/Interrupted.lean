import LosTacOS.Drivers.OnScreen
import Mathlib.Logic.Function.Iterate

/-! The echo of a terminal calls `put` with interrupts on, and the timer calls `cursor_tick`: a tick
may come behind any store of a call. It draws the cursor where the stores have left it. -/
namespace LosTacOS.Drivers

/-- Where the cell of the cursor is over the edge for a moment: until `draw_char` calls `newline`,
until `newline` takes the last row back, until a motion is held back. -/
inductive Overhang where
  | wrap
  | scroll
  | motion
deriving DecidableEq

structure Underway where
  console : Console
  /-- how many ticks come at the places ahead; behind the end of the list none come -/
  ticks : List Nat
  /-- where a tick drew the cursor over the edge -/
  struck : List Overhang

def overhang (w : Overhang) (pos cell size : Nat) : Option Overhang :=
  if size < pos + cell then some w else none

namespace Underway

open Console

variable (u : Display)

def tick (w : Option Overhang) (t : Underway) : Underway :=
  { t with
    console := t.console.cursorTick u
    struck := if 120 ≤ (t.console.blinkCounter + 1) % word then w.toList ++ t.struck else t.struck }

def pause (t : Underway) (w : Option Overhang) : Underway :=
  match t.ticks with
  | [] => t
  | n :: ticks => (tick u w)^[n] { t with ticks }

/-- A store with the reads it needs, and the place behind it. Pixels that are moved or filled in one
go are one store: no tick and no position depends on them. -/
def store (t : Underway) (w : Option Overhang) (f : Console → Console) : Underway :=
  { t with console := f t.console }.pause u w

def markDirty (t : Underway) (w : Option Overhang) (x y width height : Nat) : Underway :=
  if width = 0 ∨ height = 0 then t
  else
    let t := t.store u w fun s => { s with dirtyX0 := min x s.dirtyX0 }
    let t := t.store u w fun s => { s with dirtyY0 := min y s.dirtyY0 }
    let t := t.store u w fun s => { s with dirtyX1 := max ((x + width) % word) s.dirtyX1 }
    let t := t.store u w fun s => { s with dirtyY1 := max ((y + height) % word) s.dirtyY1 }
    t.store u w fun s => { s with hasDirty := true }

def flushDirty (t : Underway) : Underway :=
  if t.console.hasDirty then
    let t := t.store u none fun s =>
      s.swapRect u s.dirtyX0 s.dirtyY0 (sub s.dirtyX1 s.dirtyX0) (sub s.dirtyY1 s.dirtyY0)
    let t := t.store u none fun s => { s with dirtyX0 := word - 1 }
    let t := t.store u none fun s => { s with dirtyY0 := word - 1 }
    let t := t.store u none fun s => { s with dirtyX1 := 0 }
    let t := t.store u none fun s => { s with dirtyY1 := 0 }
    t.store u none fun s => { s with hasDirty := false }
  else t

def markCell (t : Underway) : Underway :=
  t.markDirty u none t.console.cursorX t.console.cursorY (charW u) (charH u)

def clearLine (t : Underway) (mode : Int) : Underway :=
  let start := if mode = 0 then t.console.cursorX else 0
  let stop := if mode = 1 then t.console.cursorX else u.width
  let w := sub stop start
  let t := t.store u none fun s =>
    s.fillRect u (toInt start) (toInt s.cursorY) (toInt w) (toInt (charH u)) s.bg
  t.markDirty u none start t.console.cursorY w (charH u)

def drawCursorBlock (t : Underway) : Underway :=
  let t := (cells 0 0 (charW u) (charH u)).foldl (fun t p => t.store u none fun s =>
    let x := (s.cursorX + p.1) % word
    let y := (s.cursorY + p.2) % word
    s.putPixelUnchecked u x y (u.getPixel s.back x y ^^^ 0x00FFFFFF)) t
  t.markCell u

/-- Only `newline` scrolls, with the cursor below the last row. -/
def scroll (t : Underway) : Underway :=
  let lineH := charH u
  if u.height ≤ lineH then t
  else
    let move := u.pitch * (u.height - lineH) % word
    let gap := u.pitch * lineH % word
    let t := t.store u (some .scroll) fun s =>
      { s with back := fun a => if a < move then s.back (a + gap) else s.back a }
    let t := t.store u (some .scroll) fun s =>
      { s with back := fun a => if move ≤ a ∧ a < move + gap then 0 else s.back a }
    t.markDirty u (some .scroll) 0 0 u.width u.height

def newline (t : Underway) : Underway :=
  let t := t.store u none fun s => { s with cursorX := 0 }
  let edge := overhang .scroll ((t.console.cursorY + charH u) % word) (charH u) u.height
  let t := t.store u edge fun s => { s with cursorY := (s.cursorY + charH u) % word }
  if u.height < (t.console.cursorY + charH u) % word then
    let t := t.scroll u
    t.store u none fun s => { s with cursorY := sub s.cursorY (charH u) }
  else t

def drawChar (t : Underway) (c : UInt8) : Underway :=
  match u.font.glyph c with
  | none => t
  | some glyph =>
    let t' := (t.console.glyphPixels u glyph).foldl (fun t p => t.store u none fun s =>
      s.putPixelUnchecked u ((s.cursorX + p.1) % word) ((s.cursorY + p.2.1) % word) p.2.2) t
    let t' := t'.markDirty u none t.console.cursorX t.console.cursorY u.font.width u.font.height
    let edge := overhang .wrap ((t'.console.cursorX + u.font.width) % word) u.font.width u.width
    let t' := t'.store u edge fun s => { s with cursorX := (s.cursorX + u.font.width) % word }
    if u.width ≤ (t'.console.cursorX + u.font.width) % word then t'.newline u else t'

def clear (t : Underway) : Underway :=
  let t := t.store u none fun s => s.clearBack u s.bg
  let t := t.store u none fun s => { s with cursorX := 0 }
  let t := t.store u none fun s => { s with cursorY := 0 }
  (t.markDirty u none 0 0 u.width u.height).flushDirty u

def moved (t : Underway) (f : Underway → Underway) : Underway :=
  ((f (t.markCell u)).markCell u).flushDirty u

/-- Down by `delta`, and back if that is below the screen. -/
def stepDown (t : Underway) (delta : Nat) : Underway :=
  let edge := overhang .motion ((t.console.cursorY + delta) % word) (charH u) u.height
  let t := t.store u edge fun s => { s with cursorY := (s.cursorY + delta) % word }
  if u.height ≤ t.console.cursorY then
    t.store u none fun s => { s with cursorY := sub u.height (charH u) }
  else t

def stepRight (t : Underway) (delta : Nat) : Underway :=
  let edge := overhang .motion ((t.console.cursorX + delta) % word) (charW u) u.width
  let t := t.store u edge fun s => { s with cursorX := (s.cursorX + delta) % word }
  if u.width ≤ t.console.cursorX then
    t.store u none fun s => { s with cursorX := sub u.width (charW u) }
  else t

def csi (t : Underway) (final : UInt8) (nums : List Int) : Underway :=
  if final = 72 ∨ final = 102 then
    t.moved u fun t =>
      let t := t.store u none fun s =>
        { s with cursorY := indexOf (nums.getD 0 0) (u.height / charH u) * charH u }
      t.store u none fun s =>
        { s with cursorX := indexOf (nums.getD 1 0) (u.width / charW u) * charW u }
  else if final = 65 then
    t.moved u fun t => t.store u none fun s =>
      { s with cursorY := stepBack s.cursorY (times (countOf nums) (charH u)) }
  else if final = 66 then t.moved u fun t => t.stepDown u (times (countOf nums) (charH u))
  else if final = 67 then t.moved u fun t => t.stepRight u (times (countOf nums) (charW u))
  else if final = 68 then
    t.moved u fun t => t.store u none fun s =>
      { s with cursorX := stepBack s.cursorX (times (countOf nums) (charW u)) }
  else if final = 75 then (t.clearLine u (nums.headD 0)).flushDirty u
  else if final = 74 then (if nums.headD 0 = 2 then t.clear u else t).flushDirty u
  else if final = 109 then
    if nums = [] then t.store u none fun s => s.ansiCode 0
    else nums.foldl (fun t n => t.store u none fun s => s.ansiCode n) t
  else t

def handleAnsi (t : Underway) (text : List UInt8) : Underway :=
  match text.takeWhile (· ≠ 0) with
  | 91 :: 63 :: rest =>
    let (mode, c) := parseMode rest 0
    if mode = 25 ∧ c = 104 then t.store u none fun s => { s with cursorVisible := true }
    else if mode = 25 ∧ c = 108 ∧ t.console.cursorVisible then
      (t.drawCursorBlock u).store u none fun s => { s with cursorVisible := false }
    else t
  | 91 :: rest =>
    match parseCsi rest 0 false [] with
    | some (c, nums) => t.csi u c nums
    | none => t
  | _ => t

def hideCursor (t : Underway) : Underway :=
  if t.console.cursorVisible then
    let t := t.drawCursorBlock u
    let t := t.store u none fun s => { s with cursorVisible := false }
    t.store u none fun s => { s with blinkCounter := 0 }
  else t

def eraseCell (t : Underway) (oldX oldY : Nat) : Underway :=
  let t := (cells 0 0 (charW u) (charH u)).foldl (fun t p => t.store u none fun s =>
    s.putPixel u ((s.cursorX + p.1) % word) ((s.cursorY + p.2) % word) s.bg) t
  ((t.markCell u).markDirty u none oldX oldY (charW u) (charH u)).flushDirty u

def backspace (t : Underway) : Underway :=
  let t := t.hideCursor u
  let (oldX, oldY) := (t.console.cursorX, t.console.cursorY)
  if charW u ≤ oldX then
    (t.store u none fun s => { s with cursorX := s.cursorX - charW u }).eraseCell u oldX oldY
  else if charH u ≤ oldY then
    let t := t.store u none fun s => { s with cursorY := s.cursorY - charH u }
    (t.store u none fun s =>
      { s with cursorX := (u.width / charW u - 1) * charW u }).eraseCell u oldX oldY
  else t

def putAnsi (t : Underway) (c : UInt8) : Underway :=
  let t := t.store u none fun s =>
    { s with ansi := if s.ansi.length < 15 then s.ansi ++ [c] else s.ansi }
  let t := if isLetter c ∨ 15 ≤ t.console.ansi.length then
      let t := t.handleAnsi u t.console.ansi
      let t := t.store u none fun s => { s with escape := false }
      t.store u none fun s => { s with ansi := [] }
    else t
  t.flushDirty u

def put (t : Underway) (c : UInt8) : Underway :=
  let t := t.hideCursor u
  if c = 27 then
    let t := t.store u none fun s => { s with escape := true }
    t.store u none fun s => { s with ansi := [] }
  else if t.console.escape then t.putAnsi u c
  else if c = 10 then (t.newline u).flushDirty u
  else if c = 13 then t.store u none fun s => { s with cursorX := 0 }
  else if c = 8 ∨ c = 127 then t.backspace u
  else if c = 9 then
    (t.store u none fun s => { s with cursorX := (s.cursorX + 4 * charW u) % word }).flushDirty u
  else
    let t := if u.width ≤ (t.console.cursorX + charW u) % word then t.newline u else t
    (t.drawChar u c).flushDirty u

def call (t : Underway) : ConsoleCall → Underway
  | .put c => t.put u c
  | .write buf => buf.foldl (put u) t
  | .backspace => t.backspace u
  | .clear => t.clear u
  | .cursorTick => t.store u none (Console.cursorTick u)

def StaysWrite : Underway → List UInt8 → Prop
  | _, [] => True
  | t, c :: buf => t.console.StaysPut u c ∧ (t.put u c).StaysWrite buf

def Stays (t : Underway) : ConsoleCall → Prop
  | .put c => t.console.StaysPut u c
  | .write buf => t.StaysWrite u buf
  | .backspace | .clear | .cursorTick => True

end Underway

def Console.interrupted (u : Display) (s : Console) (c : ConsoleCall × List Nat) : Underway :=
  Underway.call u ⟨s, c.2, []⟩ c.1

def Console.throughout (u : Display) (s : Console) (calls : List (ConsoleCall × List Nat)) : Console :=
  calls.foldl (fun s c => (s.interrupted u c).console) s

def Console.StaysThroughout (u : Display) : Console → List (ConsoleCall × List Nat) → Prop
  | _, [] => True
  | s, c :: calls =>
    (Underway.Stays u ⟨s, c.2, []⟩ c.1 ∧ (s.interrupted u c).struck = []) ∧
      (s.interrupted u c).console.StaysThroughout u calls

instance decidableStaysBytes (u : Display) :
    (t : Underway) → (buf : List UInt8) → Decidable (t.StaysWrite u buf)
  | _, [] => inferInstanceAs (Decidable True)
  | t, c :: buf =>
    have := decidableStaysBytes u (t.put u c) buf
    inferInstanceAs (Decidable (_ ∧ _))

instance (u : Display) (t : Underway) : (c : ConsoleCall) → Decidable (t.Stays u c)
  | .put _ => inferInstanceAs (Decidable (t.console.StaysPut u _))
  | .write _ => inferInstanceAs (Decidable (t.StaysWrite u _))
  | .backspace | .clear | .cursorTick => inferInstanceAs (Decidable True)

instance decidableStaysThroughout (u : Display) : (s : Console) →
    (calls : List (ConsoleCall × List Nat)) → Decidable (s.StaysThroughout u calls)
  | _, [] => inferInstanceAs (Decidable True)
  | s, c :: calls =>
    have := decidableStaysThroughout u (s.interrupted u c).console calls
    inferInstanceAs (Decidable (_ ∧ _))

section quiet

variable {u : Display} {α : Type}

namespace Underway

/-- Where no ticks come, a store is a step of the console. -/
theorem store_quiet (s : Console) (k : List Overhang) (w : Option Overhang) (f : Console → Console) :
    store u ⟨s, [], k⟩ w f = ⟨f s, [], k⟩ := by
  simp only [store, pause]

theorem loop_quiet (g : α → Console → Console) (ps : List α) (s : Console) (k : List Overhang) :
    ps.foldl (fun t p => store u t none (g p)) ⟨s, [], k⟩ =
      ⟨ps.foldl (fun s p => g p s) s, [], k⟩ := by
  induction ps generalizing s with
  | nil => rfl
  | cons p ps ih => exact ih (g p s)

theorem foldl_read {γ : Type} (read : Console → γ) (g : γ → Console → α → Console)
    (hread : ∀ c s p, read (g c s p) = read s) (ps : List α) (s : Console) :
    ps.foldl (fun s p => g (read s) s p) s = ps.foldl (g (read s)) s := by
  induction ps generalizing s with
  | nil => rfl
  | cons p ps ih =>
    simp only [List.foldl_cons]
    rw [ih, hread]

variable (s : Console) (k : List Overhang)

theorem markDirty_quiet (w : Option Overhang) (x y width height : Nat) :
    markDirty u ⟨s, [], k⟩ w x y width height = ⟨s.markDirty x y width height, [], k⟩ := by
  unfold markDirty Console.markDirty
  split
  · rfl
  · simp only [store_quiet]

theorem flushDirty_quiet : flushDirty u ⟨s, [], k⟩ = ⟨s.flushDirty u, [], k⟩ := by
  unfold flushDirty Console.flushDirty
  by_cases hdirty : s.hasDirty = true
  · simp only [hdirty, if_true, store_quiet]
  · simp only [hdirty, if_false, Bool.false_eq_true]

theorem clearLine_quiet (mode : Int) :
    clearLine u ⟨s, [], k⟩ mode = ⟨s.clearLine u mode, [], k⟩ := by
  unfold clearLine Console.clearLine
  simp only [store_quiet, markDirty_quiet, (fillRect_cursor s u _ _ _ _ _).2]

theorem drawCursorBlock_quiet : drawCursorBlock u ⟨s, [], k⟩ = ⟨s.drawCursorBlock u, [], k⟩ := by
  have hloop := foldl_read (fun s => (s.cursorX, s.cursorY)) (fun c s p =>
    s.putPixelUnchecked u ((c.1 + p.1) % word) ((c.2 + p.2) % word)
      (u.getPixel s.back ((c.1 + p.1) % word) ((c.2 + p.2) % word) ^^^ 0x00FFFFFF))
    (fun _ _ _ => by simp only [Console.putPixelUnchecked])
    (cells 0 0 (Console.charW u) (Console.charH u)) s
  dsimp only at hloop
  unfold drawCursorBlock Console.drawCursorBlock markCell
  simp only [loop_quiet, hloop, markDirty_quiet]
  have hcursor := foldl_cursor (f := fun (t : Console) (p : Nat × Nat) =>
      t.putPixelUnchecked u ((s.cursorX + p.1) % word) ((s.cursorY + p.2) % word)
        (u.getPixel t.back ((s.cursorX + p.1) % word) ((s.cursorY + p.2) % word) ^^^ 0x00FFFFFF))
      (fun _ _ => by simp only [Console.putPixelUnchecked, and_self])
      (cells 0 0 (Console.charW u) (Console.charH u)) s
  rw [hcursor.1, hcursor.2]

theorem markCell_quiet : markCell u ⟨s, [], k⟩ =
    ⟨s.markDirty s.cursorX s.cursorY (Console.charW u) (Console.charH u), [], k⟩ :=
  markDirty_quiet s k none _ _ _ _

theorem hideCursor_quiet : hideCursor u ⟨s, [], k⟩ = ⟨s.hideCursor u, [], k⟩ := by
  unfold hideCursor Console.hideCursor
  by_cases hvisible : s.cursorVisible = true
  · simp only [hvisible, if_true, drawCursorBlock_quiet, store_quiet]
  · simp only [hvisible, if_false, Bool.false_eq_true]

theorem scroll_quiet : scroll u ⟨s, [], k⟩ = ⟨s.scroll u, [], k⟩ := by
  unfold scroll Console.scroll
  dsimp only
  split
  · rfl
  · simp only [store_quiet, markDirty_quiet]
    congr 2
    congr 1
    funext a
    grind

theorem newline_quiet : newline u ⟨s, [], k⟩ = ⟨s.newline u, [], k⟩ := by
  unfold newline Console.newline
  simp only [store_quiet, scroll_quiet]
  split
  · rfl
  · rfl

theorem drawChar_quiet (c : UInt8) : drawChar u ⟨s, [], k⟩ c = ⟨s.drawChar u c, [], k⟩ := by
  unfold drawChar Console.drawChar
  cases u.font.glyph c with
  | none => rfl
  | some glyph =>
    have hloop := foldl_read (fun s => (s.cursorX, s.cursorY)) (fun c s (p : Nat × Nat × UInt32) =>
      s.putPixelUnchecked u ((c.1 + p.1) % word) ((c.2 + p.2.1) % word) p.2.2)
      (fun _ _ _ => by simp only [Console.putPixelUnchecked]) (s.glyphPixels u glyph) s
    dsimp only at hloop
    simp only [loop_quiet, hloop, markDirty_quiet, store_quiet, newline_quiet]
    split
    · rfl
    · rfl

theorem clear_quiet : clear u ⟨s, [], k⟩ = ⟨s.clear u, [], k⟩ := by
  unfold clear Console.clear
  simp only [store_quiet, markDirty_quiet, flushDirty_quiet]

theorem stepDown_quiet (delta : Nat) : stepDown u ⟨s, [], k⟩ delta =
    ⟨{ s with cursorY := Console.stepForth s.cursorY delta u.height (Console.charH u) }, [], k⟩ := by
  unfold stepDown Console.stepForth
  simp only [store_quiet]
  split
  · rfl
  · rfl

theorem stepRight_quiet (delta : Nat) : stepRight u ⟨s, [], k⟩ delta =
    ⟨{ s with cursorX := Console.stepForth s.cursorX delta u.width (Console.charW u) }, [], k⟩ := by
  unfold stepRight Console.stepForth
  simp only [store_quiet]
  split
  · rfl
  · rfl

theorem csi_quiet (c : UInt8) (nums : List Int) : csi u ⟨s, [], k⟩ c nums = ⟨s.csi u c nums, [], k⟩ := by
  unfold csi Console.csi moved Console.moveTo
  simp only [store_quiet, markCell_quiet, flushDirty_quiet, clearLine_quiet, clear_quiet, loop_quiet,
    stepDown_quiet, stepRight_quiet, markDirty_cursorX, markDirty_cursorY]
  split_ifs
  all_goals simp only [flushDirty_quiet]

theorem handleAnsi_quiet (text : List UInt8) :
    handleAnsi u ⟨s, [], k⟩ text = ⟨s.handleAnsi u text, [], k⟩ := by
  unfold handleAnsi Console.handleAnsi
  simp only [store_quiet, drawCursorBlock_quiet]
  generalize text.takeWhile (fun x => decide (x ≠ 0)) = seq
  split
  · try simp only
    split_ifs
    all_goals rfl
  · rename_i rest _
    try simp only
    cases Console.parseCsi rest 0 false [] with
    | none => rfl
    | some r => exact csi_quiet s k r.1 r.2
  · simp only

theorem eraseCell_quiet (oldX oldY : Nat) :
    eraseCell u ⟨s, [], k⟩ oldX oldY = ⟨s.eraseCell u oldX oldY, [], k⟩ := by
  have hread (c : Nat × Nat × UInt32) (s : Console) (p : Nat × Nat) :
      ((s.putPixel u ((c.1 + p.1) % word) ((c.2.1 + p.2) % word) c.2.2).cursorX,
        (s.putPixel u ((c.1 + p.1) % word) ((c.2.1 + p.2) % word) c.2.2).cursorY,
        (s.putPixel u ((c.1 + p.1) % word) ((c.2.1 + p.2) % word) c.2.2).bg) =
        (s.cursorX, s.cursorY, s.bg) := by
    unfold Console.putPixel
    split
    · rfl
    · rfl
  have hloop := foldl_read (fun s => (s.cursorX, s.cursorY, s.bg)) (fun c s p =>
    s.putPixel u ((c.1 + p.1) % word) ((c.2.1 + p.2) % word) c.2.2) hread
    (cells 0 0 (Console.charW u) (Console.charH u)) s
  dsimp only at hloop
  have hcursor := foldl_cursor (f := fun (t : Console) (p : Nat × Nat) =>
      t.putPixel u ((s.cursorX + p.1) % word) ((s.cursorY + p.2) % word) s.bg)
    (fun _ _ => putPixel_cursor _ _ _ _ _) (cells 0 0 (Console.charW u) (Console.charH u)) s
  unfold eraseCell Console.eraseCell
  simp only [loop_quiet, hloop, markCell_quiet, markDirty_quiet, flushDirty_quiet, hcursor.1, hcursor.2]

theorem backspace_quiet : backspace u ⟨s, [], k⟩ = ⟨s.backspace u, [], k⟩ := by
  unfold backspace Console.backspace
  simp only [hideCursor_quiet, store_quiet, eraseCell_quiet]
  split_ifs
  all_goals rfl

theorem putAnsi_quiet (c : UInt8) : putAnsi u ⟨s, [], k⟩ c = ⟨s.putAnsi u c, [], k⟩ := by
  unfold putAnsi Console.putAnsi
  simp only [store_quiet, handleAnsi_quiet]
  split_ifs
  all_goals simp only [flushDirty_quiet]

theorem put_quiet (c : UInt8) : put u ⟨s, [], k⟩ c = ⟨s.put u c, [], k⟩ := by
  unfold put Console.put
  simp only [hideCursor_quiet, store_quiet, putAnsi_quiet, newline_quiet, backspace_quiet,
    flushDirty_quiet]
  split_ifs
  all_goals simp only [drawChar_quiet, flushDirty_quiet]

/-- Without ticks a call does what `Console.call` says. -/
theorem call_quiet (c : ConsoleCall) : call u ⟨s, [], k⟩ c = ⟨s.call u c, [], k⟩ := by
  cases c with
  | put c => exact put_quiet s k c
  | write buf =>
    change buf.foldl (put u) ⟨s, [], k⟩ = ⟨buf.foldl (Console.put u) s, [], k⟩
    induction buf generalizing s with
    | nil => rfl
    | cons c buf ih =>
      rw [List.foldl_cons, List.foldl_cons, put_quiet, ih]
  | backspace => exact backspace_quiet s k
  | clear => exact clear_quiet s k
  | cursorTick => exact store_quiet s k none _

end Underway

end quiet

end LosTacOS.Drivers
