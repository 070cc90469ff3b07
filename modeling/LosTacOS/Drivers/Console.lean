import Mathlib.Data.List.Basic
import Mathlib.Tactic.Ring

/-! The text console: a cursor, escape sequences, a back buffer that is drawn to and the rectangle
of it that is still to be copied to the screen. Numbers are 32 bits wide. -/
namespace LosTacOS.Drivers

abbrev word : Nat := 2^32

def toInt (n : Nat) : Int := Int.bmod n word

structure Font where
  width : Nat
  height : Nat
  bytesPerRow : Nat
  glyph : UInt8 → Option (Nat → UInt8)

/-- A screen with its font: a row of pixels fits its pitch, the buffer has a 32-bit size and there
is room for one character. -/
structure Display where
  width : Nat
  height : Nat
  pitch : Nat
  bytesPerPx : Nat
  font : Font
  depth : bytesPerPx = 2 ∨ bytesPerPx = 3 ∨ bytesPerPx = 4
  row_le : width * bytesPerPx ≤ pitch
  size_lt : pitch * height < word
  fontWidth_pos : 0 < font.width
  fontHeight_pos : 0 < font.height
  fontWidth_le : font.width ≤ width
  fontHeight_le : font.height ≤ height

abbrev Buffer := Nat → UInt8

structure Console where
  cursorX : Nat
  cursorY : Nat
  fg : UInt32
  bg : UInt32
  bold : Bool
  reverse : Bool
  cursorVisible : Bool
  blinkCounter : Nat
  dirtyX0 : Nat
  dirtyY0 : Nat
  dirtyX1 : Nat
  dirtyY1 : Nat
  hasDirty : Bool
  escape : Bool
  /-- the bytes behind the last escape -/
  ansi : List UInt8
  back : Buffer
  front : Buffer
  /-- where `put_pixel_unchecked` was called -/
  unchecked : List (Nat × Nat)
  /-- what `swap_rect` was called with: `x`, `y`, `w`, `h` -/
  swaps : List (Nat × Nat × Nat × Nat)

/-- `scale` is never set. -/
abbrev scale : Nat := 1

namespace Display

variable (u : Display)

def offset (x y : Nat) : Nat := (y * u.pitch + x * u.bytesPerPx) % word

/-- The bytes of a colour: 5-6-5 bits in two bytes, or as many bytes as there are. -/
def encode (color : UInt32) (i : Nat) : UInt8 :=
  let c := color.toNat
  let v := if u.bytesPerPx = 2 then c / 2^19 % 32 * 2^11 + c / 2^10 % 64 * 2^5 + c / 2^3 % 32 else c
  UInt8.ofNat (v / 2^(8 * i))

def decode (b : Buffer) (off : Nat) : UInt32 :=
  UInt32.ofNat (((List.range u.bytesPerPx).map fun i => (b (off + i)).toNat * 2^(8 * i)).sum)

def setPixel (b : Buffer) (x y : Nat) (color : UInt32) : Buffer := fun a =>
  if u.offset x y ≤ a ∧ a < u.offset x y + u.bytesPerPx then u.encode color (a - u.offset x y)
  else b a

def getPixel (b : Buffer) (x y : Nat) : UInt32 :=
  if x < u.width ∧ y < u.height then u.decode b (u.offset x y) else 0

end Display

def cells (x y w h : Nat) : List (Nat × Nat) :=
  (List.range h).flatMap fun r => (List.range w).map fun c => (x + c, y + r)

namespace Console

variable (u : Display)

def putPixelUnchecked (s : Console) (x y : Nat) (color : UInt32) : Console :=
  { s with back := u.setPixel s.back x y color, unchecked := (x, y) :: s.unchecked }

def putPixel (s : Console) (x y : Nat) (color : UInt32) : Console :=
  if x < u.width ∧ y < u.height then { s with back := u.setPixel s.back x y color } else s

/-- `fill_rect`, with its arguments as the `int`s they become. -/
def fillRect (s : Console) (x y w h : Int) (color : UInt32) : Console :=
  if w ≤ 0 ∨ h ≤ 0 then s
  else
    let (x, w) := if x < 0 then (0, w + x) else (x, w)
    let (y, h) := if y < 0 then (0, h + y) else (y, h)
    let w := if (u.width : Int) < x + w then u.width - x else w
    let h := if (u.height : Int) < y + h then u.height - y else h
    if w ≤ 0 ∨ h ≤ 0 then s
    else (cells x.toNat y.toNat w.toNat h.toNat).foldl (fun s p =>
      { s with back := u.setPixel s.back p.1 p.2 color }) s

def clearBack (s : Console) (color : UInt32) : Console :=
  (cells 0 0 u.width u.height).foldl (fun s p =>
    { s with back := u.setPixel s.back p.1 p.2 color }) s

/-- `memcpy` of a part of the back buffer to the same place of the front buffer. -/
def copyRow (back front : Buffer) (off len : Nat) : Buffer := fun a =>
  if off ≤ a ∧ a < off + len then back a else front a

def swapRect (s : Console) (x y w h : Nat) : Console :=
  let stop := min ((y + h) % word) u.height
  let rows := List.range' y (stop - y)
  { s with
    front := rows.foldl (fun f row =>
      copyRow s.back f ((row * u.pitch + x * u.bytesPerPx) % word) (w * u.bytesPerPx % word)) s.front
    swaps := (x, y, w, h) :: s.swaps }

def markDirty (s : Console) (x y w h : Nat) : Console :=
  if w = 0 ∨ h = 0 then s
  else
    { s with
      dirtyX0 := min x s.dirtyX0
      dirtyY0 := min y s.dirtyY0
      dirtyX1 := max ((x + w) % word) s.dirtyX1
      dirtyY1 := max ((y + h) % word) s.dirtyY1
      hasDirty := true }

def sub (a b : Nat) : Nat := (a + word - b) % word

def flushDirty (s : Console) : Console :=
  if s.hasDirty then
    { s.swapRect u s.dirtyX0 s.dirtyY0 (sub s.dirtyX1 s.dirtyX0) (sub s.dirtyY1 s.dirtyY0) with
      dirtyX0 := word - 1
      dirtyY0 := word - 1
      dirtyX1 := 0
      dirtyY1 := 0
      hasDirty := false }
  else s

def charW : Nat := u.font.width * scale
def charH : Nat := u.font.height * scale

def clearLine (s : Console) (mode : Int) : Console :=
  let start := if mode = 0 then s.cursorX else 0
  let stop := if mode = 1 then s.cursorX else u.width
  let w := sub stop start
  (s.fillRect u (toInt start) (toInt s.cursorY) (toInt w) (toInt (charH u)) s.bg).markDirty
    start s.cursorY w (charH u)

def drawCursorBlock (s : Console) : Console :=
  let t := (cells 0 0 (charW u) (charH u)).foldl (fun t p =>
    let x := (s.cursorX + p.1) % word
    let y := (s.cursorY + p.2) % word
    t.putPixelUnchecked u x y (u.getPixel t.back x y ^^^ 0x00FFFFFF)) s
  t.markDirty s.cursorX s.cursorY (charW u) (charH u)

def scroll (s : Console) : Console :=
  let lineH := charH u
  if u.height ≤ lineH then s
  else
    let move := u.pitch * (u.height - lineH) % word
    let gap := u.pitch * lineH % word
    let back : Buffer := fun a =>
      if a < move then s.back (a + gap) else if a < move + gap then 0 else s.back a
    { s with back }.markDirty 0 0 u.width u.height

def newline (s : Console) : Console :=
  let s := { s with cursorX := 0, cursorY := (s.cursorY + charH u) % word }
  if u.height < (s.cursorY + charH u) % word then
    let s := s.scroll u
    { s with cursorY := sub s.cursorY (charH u) }
  else s

def glyphPixels (s : Console) (glyph : Nat → UInt8) : List (Nat × Nat × UInt32) :=
  let fgColor := if s.reverse then s.bg else s.fg
  let bgColor := if s.reverse then s.fg else s.bg
  (List.range u.font.height).flatMap fun row =>
    (List.range u.font.bytesPerRow).flatMap fun byte =>
      ((List.range 8).filter fun bit => byte * 8 + bit < u.font.width).map fun bit =>
        let bits := glyph (row * u.font.bytesPerRow + byte)
        (byte * 8 + bit, row, if bits.toNat.testBit (7 - bit) then fgColor else bgColor)

def drawChar (s : Console) (c : UInt8) : Console :=
  match u.font.glyph c with
  | none => s
  | some glyph =>
    let t := (s.glyphPixels u glyph).foldl (fun t p =>
      t.putPixelUnchecked u ((s.cursorX + p.1) % word) ((s.cursorY + p.2.1) % word) p.2.2) s
    let t := t.markDirty s.cursorX s.cursorY u.font.width u.font.height
    let t := { t with cursorX := (t.cursorX + u.font.width) % word }
    if u.width ≤ (t.cursorX + u.font.width) % word then t.newline u else t

/-- Foreground and background colours of the codes of `m`. -/
def foregrounds : List (Int × UInt32) :=
  [(30, 0xff000000), (31, 0xffff5555), (32, 0xff55ff55), (33, 0xffffff55), (34, 0xff5555ff),
    (35, 0xffff55ff), (36, 0xff55ffff), (37, 0xffffffff), (90, 0xff555555), (91, 0xffff5555),
    (92, 0xff55ff55), (93, 0xffffff55), (94, 0xff5555ff), (95, 0xffff55ff), (96, 0xff55ffff),
    (97, 0xffffffff)]

def backgrounds : List (Int × UInt32) :=
  [(40, 0xff000000), (41, 0xffff5555), (42, 0xff55ff55), (43, 0xffffff55), (44, 0xff5555ff),
    (45, 0xffff55ff), (46, 0xff55ffff), (47, 0xffffffff), (100, 0xff555555), (101, 0xffff5555),
    (102, 0xff55ff55), (103, 0xffffff55), (104, 0xff5555ff), (105, 0xffff55ff), (106, 0xff55ffff),
    (107, 0xffffffff)]

def ansiCode (s : Console) (code : Int) : Console :=
  if code = 0 then { s with fg := 0xffffffff, bg := 0, bold := false, reverse := false }
  else if code = 1 then { s with bold := true }
  else if code = 2 then { s with fg := s.fg &&& 0xff777777 }
  else if code = 7 then { s with reverse := true }
  else if code = 22 then { s with bold := false }
  else if code = 27 then { s with reverse := false }
  else
    match foregrounds.lookup code, backgrounds.lookup code with
    | some fg, _ => { s with fg }
    | none, some bg => { s with bg }
    | none, none => s

def clear (s : Console) : Console :=
  let s := s.clearBack u s.bg
  ({ s with cursorX := 0, cursorY := 0 }.markDirty 0 0 u.width u.height).flushDirty u

def isDigit (c : UInt8) : Bool := 48 ≤ c && c ≤ 57

/-- An `int` that has one more digit put behind it. It wraps around. -/
def pushDigit (value : Int) (c : UInt8) : Int := Int.bmod (value * 10 + (c.toNat - 48)) word

def parseCsi : List UInt8 → Int → Bool → List Int → Option (UInt8 × List Int)
  | [], _, _, _ => none
  | c :: cs, value, hasNum, nums =>
    if isDigit c then parseCsi cs (pushDigit value c) true nums
    else if c = 59 then
      parseCsi cs 0 false (if nums.length < 8 then nums ++ [if hasNum then value else 0] else nums)
    else some (c, if hasNum ∧ nums.length < 8 then nums ++ [value] else nums)

def parseMode : List UInt8 → Int → Int × UInt8
  | [], value => (value, 0)
  | c :: cs, value => if isDigit c then parseMode cs (pushDigit value c) else (value, c)

def countOf (nums : List Int) : Int := if 0 < nums.headD 0 then nums.headD 0 else 1

def times (n : Int) (len : Nat) : Nat := (n * len % (word : Int)).toNat

/-- A position from 1 on as an index below `max`. -/
def indexOf (n : Int) (max : Nat) : Nat :=
  let r := if 0 < n then (n - 1).toNat else 0
  if max ≤ r then max - 1 else r

def stepBack (pos delta : Nat) : Nat := if pos < delta then 0 else pos - delta

def stepForth (pos delta size cell : Nat) : Nat :=
  if size ≤ (pos + delta) % word then sub size cell else (pos + delta) % word

def moveTo (s : Console) (x y : Nat) : Console :=
  let s := s.markDirty s.cursorX s.cursorY (charW u) (charH u)
  let s := { s with cursorX := x, cursorY := y }
  (s.markDirty x y (charW u) (charH u)).flushDirty u

/-- `handle_ansi` after the parameters are read. -/
def csi (s : Console) (final : UInt8) (nums : List Int) : Console :=
  if final = 72 ∨ final = 102 then
    s.moveTo u (indexOf (nums.getD 1 0) (u.width / charW u) * charW u)
      (indexOf (nums.getD 0 0) (u.height / charH u) * charH u)
  else if final = 65 then
    s.moveTo u s.cursorX (stepBack s.cursorY (times (countOf nums) (charH u)))
  else if final = 66 then
    s.moveTo u s.cursorX (stepForth s.cursorY (times (countOf nums) (charH u)) u.height (charH u))
  else if final = 67 then
    s.moveTo u (stepForth s.cursorX (times (countOf nums) (charW u)) u.width (charW u)) s.cursorY
  else if final = 68 then
    s.moveTo u (stepBack s.cursorX (times (countOf nums) (charW u))) s.cursorY
  else if final = 75 then (s.clearLine u (nums.headD 0)).flushDirty u
  else if final = 74 then (if nums.headD 0 = 2 then s.clear u else s).flushDirty u
  else if final = 109 then
    if nums = [] then s.ansiCode 0 else nums.foldl ansiCode s
  else s

/-- `handle_ansi`; the text ends at its first zero. -/
def handleAnsi (s : Console) (text : List UInt8) : Console :=
  match text.takeWhile (· ≠ 0) with
  | 91 :: 63 :: rest =>
    let (mode, c) := parseMode rest 0
    if mode = 25 ∧ c = 104 then { s with cursorVisible := true }
    else if mode = 25 ∧ c = 108 ∧ s.cursorVisible then
      { s.drawCursorBlock u with cursorVisible := false }
    else s
  | 91 :: rest =>
    match parseCsi rest 0 false [] with
    | some (c, nums) => s.csi u c nums
    | none => s
  | _ => s

def hideCursor (s : Console) : Console :=
  if s.cursorVisible then
    { s.drawCursorBlock u with cursorVisible := false, blinkCounter := 0 }
  else s

/-- The loop of `backspace` over the new cell, and the copying of the new and the old one. -/
def eraseCell (s : Console) (oldX oldY : Nat) : Console :=
  let t := (cells 0 0 (charW u) (charH u)).foldl (fun t p =>
    t.putPixel u ((s.cursorX + p.1) % word) ((s.cursorY + p.2) % word) s.bg) s
  let t := t.markDirty s.cursorX s.cursorY (charW u) (charH u)
  (t.markDirty oldX oldY (charW u) (charH u)).flushDirty u

def backspace (s : Console) : Console :=
  let s := s.hideCursor u
  if charW u ≤ s.cursorX then
    { s with cursorX := s.cursorX - charW u }.eraseCell u s.cursorX s.cursorY
  else if charH u ≤ s.cursorY then
    { s with
      cursorX := (u.width / charW u - 1) * charW u
      cursorY := s.cursorY - charH u }.eraseCell u s.cursorX s.cursorY
  else s

def isLetter (c : UInt8) : Bool := (65 ≤ c && c ≤ 90) || (97 ≤ c && c ≤ 122)

def putAnsi (s : Console) (c : UInt8) : Console :=
  let ansi := if s.ansi.length < 15 then s.ansi ++ [c] else s.ansi
  let s := { s with ansi }
  let s := if isLetter c ∨ 15 ≤ ansi.length then
      { s.handleAnsi u ansi with escape := false, ansi := [] }
    else s
  s.flushDirty u

def put (s : Console) (c : UInt8) : Console :=
  let s := s.hideCursor u
  if c = 27 then { s with escape := true, ansi := [] }
  else if s.escape then s.putAnsi u c
  else if c = 10 then (s.newline u).flushDirty u
  else if c = 13 then { s with cursorX := 0 }
  else if c = 8 ∨ c = 127 then s.backspace u
  else if c = 9 then { s with cursorX := (s.cursorX + 4 * charW u) % word }.flushDirty u
  else
    let s := if u.width ≤ (s.cursorX + charW u) % word then s.newline u else s
    (s.drawChar u c).flushDirty u

def write (s : Console) (buf : List UInt8) : Console := buf.foldl (put u) s

def cursorTick (s : Console) : Console :=
  let s := { s with blinkCounter := (s.blinkCounter + 1) % word }
  if 120 ≤ s.blinkCounter then
    ({ s with blinkCounter := 0, cursorVisible := !s.cursorVisible }.drawCursorBlock u).flushDirty u
  else s

/-- The state that `init` leaves: a black screen, copied whole. -/
def init : Console :=
  { cursorX := 0, cursorY := 0, fg := 0xffffffff, bg := 0, bold := false, reverse := false
    cursorVisible := true, blinkCounter := 0
    dirtyX0 := word - 1, dirtyY0 := word - 1, dirtyX1 := 0, dirtyY1 := 0, hasDirty := false
    escape := false, ansi := []
    back := fun _ => 0, front := fun _ => 0, unchecked := [], swaps := [] }

end Console

inductive ConsoleCall where
  | put (c : UInt8)
  | write (buf : List UInt8)
  | backspace
  | clear
  | cursorTick

def Console.call (u : Display) (s : Console) : ConsoleCall → Console
  | .put c => s.put u c
  | .write buf => s.write u buf
  | .backspace => s.backspace u
  | .clear => s.clear u
  | .cursorTick => s.cursorTick u

end LosTacOS.Drivers
