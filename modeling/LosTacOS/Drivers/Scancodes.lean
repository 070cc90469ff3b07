import LosTacOS.Drivers.Keyboard

/-! The keyboard driver behind the controller: `process_scancode` and the modifiers that it keeps. -/
namespace LosTacOS.Drivers.Scancodes

open LosTacOS.Drivers.Keyboard (Modifier)

inductive KeyCode where
  | keyNone
  | keyA | keyB | keyC | keyD | keyE | keyF | keyG | keyH | keyI | keyJ | keyK | keyL | keyM
  | keyN | keyO | keyP | keyQ | keyR | keyS | keyT | keyU | keyV | keyW | keyX | keyY | keyZ
  | key0 | key1 | key2 | key3 | key4 | key5 | key6 | key7 | key8 | key9
  | keyMinus | keyEqual | keyLeftBracket | keyRightBracket | keySemicolon | keyApostrophe
  | keyGrave | keyBackslash | keyComma | keyDot | keySlash
  | keyEnter | keyEscape | keyBackspace | keyTab | keySpace
  | keyLeftShift | keyRightShift | keyLeftCtrl | keyRightCtrl | keyLeftAlt | keyRightAlt
  | keyCapsLock
  | keyF1 | keyF2 | keyF3 | keyF4 | keyF5 | keyF6 | keyF7 | keyF8 | keyF9 | keyF10 | keyF11
  | keyF12
  | keyInsert | keyDelete | keyHome | keyEnd | keyPageUp | keyPageDown
  | keyArrowUp | keyArrowDown | keyArrowLeft | keyArrowRight
  | keyNumLock | keyKpDivide | keyKpMultiply | keyKpMinus | keyKpPlus | keyKpEnter
  | keyKp0 | keyKp1 | keyKp2 | keyKp3 | keyKp4 | keyKp5 | keyKp6 | keyKp7 | keyKp8 | keyKp9
  | keyKpDot
  | keyPrintScreen | keyScrollLock | keyPause
deriving DecidableEq

structure KeyEvent where
  key : KeyCode
  pressed : Bool
  shift : Bool
  ctrl : Bool
  alt : Bool
  scancode : UInt8
deriving DecidableEq

structure Flags where
  shift : Bool
  ctrl : Bool
  alt : Bool
  extended : Bool
deriving DecidableEq

structure State extends Flags where
  caps : Bool
  numLock : Bool
  scrollLock : Bool
  lastRawScancode : UInt8
  lastScancodeTick : UInt64
  /-- the events that are not popped yet, oldest first -/
  queue : List KeyEvent
  stdinBuffer : List UInt8
  /-- what was sent to the keyboard -/
  sent : List UInt8
  /-- what `switch_vt` was called with -/
  switched : List Nat
deriving DecidableEq

section code

def scancodeTable : List (UInt8 × KeyCode) :=
  [(0x1C, .keyEnter), (0x01, .keyEscape), (0x0E, .keyBackspace), (0x0F, .keyTab),
    (0x39, .keySpace), (0x2A, .keyLeftShift), (0x36, .keyRightShift), (0x1D, .keyLeftCtrl),
    (0x38, .keyLeftAlt), (0x3A, .keyCapsLock), (0x45, .keyNumLock), (0x46, .keyScrollLock),
    (0x1E, .keyA), (0x30, .keyB), (0x2E, .keyC), (0x20, .keyD), (0x12, .keyE), (0x21, .keyF),
    (0x22, .keyG), (0x23, .keyH), (0x17, .keyI), (0x24, .keyJ), (0x25, .keyK), (0x26, .keyL),
    (0x32, .keyM), (0x31, .keyN), (0x18, .keyO), (0x19, .keyP), (0x10, .keyQ), (0x13, .keyR),
    (0x1F, .keyS), (0x14, .keyT), (0x16, .keyU), (0x2F, .keyV), (0x11, .keyW), (0x2D, .keyX),
    (0x15, .keyY), (0x2C, .keyZ), (0x02, .key1), (0x03, .key2), (0x04, .key3), (0x05, .key4),
    (0x06, .key5), (0x07, .key6), (0x08, .key7), (0x09, .key8), (0x0A, .key9), (0x0B, .key0),
    (0x0C, .keyMinus), (0x0D, .keyEqual), (0x1A, .keyLeftBracket), (0x1B, .keyRightBracket),
    (0x27, .keySemicolon), (0x28, .keyApostrophe), (0x29, .keyGrave), (0x2B, .keyBackslash),
    (0x33, .keyComma), (0x34, .keyDot), (0x35, .keySlash), (0x3B, .keyF1), (0x3C, .keyF2),
    (0x3D, .keyF3), (0x3E, .keyF4), (0x3F, .keyF5), (0x40, .keyF6), (0x41, .keyF7),
    (0x42, .keyF8), (0x43, .keyF9), (0x44, .keyF10), (0x57, .keyF11), (0x58, .keyF12),
    (0x37, .keyKpMultiply), (0x4A, .keyKpMinus), (0x4E, .keyKpPlus), (0x47, .keyKp7),
    (0x48, .keyKp8), (0x49, .keyKp9), (0x4B, .keyKp4), (0x4C, .keyKp5), (0x4D, .keyKp6),
    (0x4F, .keyKp1), (0x50, .keyKp2), (0x51, .keyKp3), (0x52, .keyKp0), (0x53, .keyKpDot)]

def scancodeToKey (sc : UInt8) : KeyCode := (scancodeTable.lookup sc).getD .keyNone

def extendedTable : List (UInt8 × KeyCode) :=
  [(0x1C, .keyKpEnter), (0x35, .keyKpDivide), (0x1D, .keyRightCtrl), (0x38, .keyRightAlt),
    (0x48, .keyArrowUp), (0x50, .keyArrowDown), (0x4B, .keyArrowLeft), (0x4D, .keyArrowRight),
    (0x52, .keyInsert), (0x53, .keyDelete), (0x47, .keyHome), (0x4F, .keyEnd),
    (0x49, .keyPageUp), (0x51, .keyPageDown)]

def extendedScancodeToKey (sc : UInt8) : KeyCode := (extendedTable.lookup sc).getD .keyNone

def KeyCode.between (first last key : KeyCode) : Bool :=
  first.ctorIdx ≤ key.ctorIdx && key.ctorIdx ≤ last.ctorIdx

def shiftedKeys : List (KeyCode × UInt8 × UInt8) :=
  [(.key1, '1'.toUInt8, '!'.toUInt8), (.key2, '2'.toUInt8, '@'.toUInt8),
    (.key3, '3'.toUInt8, '#'.toUInt8), (.key4, '4'.toUInt8, '$'.toUInt8),
    (.key5, '5'.toUInt8, '%'.toUInt8), (.key6, '6'.toUInt8, '^'.toUInt8),
    (.key7, '7'.toUInt8, '&'.toUInt8), (.key8, '8'.toUInt8, '*'.toUInt8),
    (.key9, '9'.toUInt8, '('.toUInt8), (.key0, '0'.toUInt8, ')'.toUInt8),
    (.keyMinus, '-'.toUInt8, '_'.toUInt8), (.keyEqual, '='.toUInt8, '+'.toUInt8),
    (.keyLeftBracket, '['.toUInt8, 123), (.keyRightBracket, ']'.toUInt8, 125),
    (.keySemicolon, ';'.toUInt8, ':'.toUInt8), (.keyApostrophe, 39, 34),
    (.keyGrave, 96, '~'.toUInt8), (.keyBackslash, 92, '|'.toUInt8),
    (.keyComma, ','.toUInt8, '<'.toUInt8), (.keyDot, '.'.toUInt8, '>'.toUInt8),
    (.keySlash, '/'.toUInt8, '?'.toUInt8)]

def numpadKeys : List (KeyCode × UInt8) :=
  [(.keyKp0, '0'.toUInt8), (.keyKp1, '1'.toUInt8), (.keyKp2, '2'.toUInt8),
    (.keyKp3, '3'.toUInt8), (.keyKp4, '4'.toUInt8), (.keyKp5, '5'.toUInt8),
    (.keyKp6, '6'.toUInt8), (.keyKp7, '7'.toUInt8), (.keyKp8, '8'.toUInt8),
    (.keyKp9, '9'.toUInt8), (.keyKpDot, '.'.toUInt8)]

def plainKeys : List (KeyCode × UInt8) :=
  [(.keyEscape, 27), (.keySpace, ' '.toUInt8), (.keyEnter, 10), (.keyKpEnter, 10),
    (.keyBackspace, 8), (.keyTab, 9), (.keyKpPlus, '+'.toUInt8), (.keyKpMinus, '-'.toUInt8),
    (.keyKpMultiply, '*'.toUInt8), (.keyKpDivide, '/'.toUInt8)]

def sequences : List (KeyCode × List UInt8) :=
  [(.keyArrowUp, [27, '['.toUInt8, 'A'.toUInt8]), (.keyArrowDown, [27, '['.toUInt8, 'B'.toUInt8]),
    (.keyArrowRight, [27, '['.toUInt8, 'C'.toUInt8]),
    (.keyArrowLeft, [27, '['.toUInt8, 'D'.toUInt8]), (.keyHome, [27, '['.toUInt8, 'H'.toUInt8]),
    (.keyEnd, [27, '['.toUInt8, 'F'.toUInt8]),
    (.keyDelete, [27, '['.toUInt8, '3'.toUInt8, '~'.toUInt8])]

def KeyCode.modifier : KeyCode → Option Modifier
  | .keyLeftShift | .keyRightShift => some .shift
  | .keyLeftCtrl | .keyRightCtrl => some .ctrl
  | .keyLeftAlt | .keyRightAlt => some .alt
  | _ => none

def Flags.setModifiers (f : Flags) (key : KeyCode) (on : Bool) : Flags :=
  { f with
    shift := if key = .keyLeftShift ∨ key = .keyRightShift then on else f.shift
    ctrl := if key = .keyLeftCtrl ∨ key = .keyRightCtrl then on else f.ctrl
    alt := if key = .keyLeftAlt ∨ key = .keyRightAlt then on else f.alt }

namespace State

variable (s : State)

def applyCtrl (c : UInt8) : UInt8 :=
  if !s.ctrl then c
  else if 'a'.toUInt8 ≤ c ∧ c ≤ 'z'.toUInt8 then c - 'a'.toUInt8 + 1
  else if 'A'.toUInt8 ≤ c ∧ c ≤ 'Z'.toUInt8 then c - 'A'.toUInt8 + 1
  else if c = '@'.toUInt8 then 0
  else if '['.toUInt8 ≤ c ∧ c ≤ '_'.toUInt8 then c - '@'.toUInt8
  else c

def keyToAscii (key : KeyCode) : UInt8 :=
  if KeyCode.between .keyA .keyZ key then
    let c := 'a'.toUInt8 + UInt8.ofNat (key.ctorIdx - KeyCode.keyA.ctorIdx)
    if s.shift ^^ s.caps then c - 32 else c
  else
    match shiftedKeys.lookup key, numpadKeys.lookup key with
    | some (plain, shifted), _ => if s.shift then shifted else plain
    | none, some c => if s.numLock then c else 0
    | none, none => (plainKeys.lookup key).getD 0

/-- `push_event`. A ring of 128 places is full with 127 events. -/
def pushEvent (key : KeyCode) (pressed : Bool) (scancode : UInt8) : State :=
  if s.queue.length = 127 then s
  else
    { s with
      queue := s.queue ++
        [{ key, pressed, shift := s.shift, ctrl := s.ctrl, alt := s.alt, scancode }] }

def updateLeds : State :=
  let bit (on : Bool) (n : Nat) : Nat := if on then 2^n else 0
  { s with
    sent := s.sent ++ [0xED, UInt8.ofNat (bit s.scrollLock 0 + bit s.numLock 1 + bit s.caps 2)] }

def toggleLock (key : KeyCode) : State :=
  if key = .keyCapsLock then { s with caps := !s.caps }.updateLeds
  else if key = .keyNumLock then { s with numLock := !s.numLock }.updateLeds
  else if key = .keyScrollLock then { s with scrollLock := !s.scrollLock }.updateLeds
  else s

def toStdin (bytes : List UInt8) : State :=
  { s with stdinBuffer := s.stdinBuffer ++ bytes.take (256 - s.stdinBuffer.length) }

def typeKey (key : KeyCode) : State :=
  if s.keyToAscii key ≠ 0 then
    s.toStdin ((if s.alt then [27] else []) ++ [s.applyCtrl (s.keyToAscii key)])
  else s.toStdin ((sequences.lookup key).getD [])

def pressKey (key : KeyCode) (sc : UInt8) : State :=
  let s := { s with toFlags := s.toFlags.setModifiers key true }
  let s := s.toggleLock key
  if s.alt ∧ KeyCode.between .keyF1 .keyF12 key then
    { s with switched := s.switched ++ [key.ctorIdx - KeyCode.keyF1.ctorIdx + 1] }
  else (s.typeKey key).pushEvent key true sc

def releaseKey (key : KeyCode) (sc : UInt8) : State :=
  { s with toFlags := s.toFlags.setModifiers key false }.pushEvent key false sc

def debounced (now : UInt64) (sc : UInt8) : Bool :=
  sc = s.lastRawScancode && now - s.lastScancodeTick < 15

def processScancode (now : UInt64) (sc : UInt8) : State :=
  if s.debounced now sc then s
  else
    let s := { s with lastRawScancode := sc, lastScancodeTick := now }
    if sc = 0xE0 then { s with extended := true }
    else if sc = 0xE1 then s
    else
      let key :=
        if s.extended then extendedScancodeToKey (sc &&& 0x7F) else scancodeToKey (sc &&& 0x7F)
      let s := { s with extended := false }
      if sc &&& 0x80 ≠ 0 then s.releaseKey key (sc &&& 0x7F) else s.pressKey key (sc &&& 0x7F)

end State

def initial : State :=
  { shift := false, ctrl := false, alt := false, extended := false, caps := false, numLock := false
    scrollLock := false, lastRawScancode := 0, lastScancodeTick := 0, queue := [], stdinBuffer := []
    sent := [], switched := [] }

def feed (s : State) (timed : List (UInt64 × UInt8)) : State :=
  timed.foldl (fun s b => s.processScancode b.1 b.2) s

end code

section keys

/-- A key of the keyboard, by its code. `0x60` and `0x61` would be prefixes with the bit of a
release. -/
@[ext]
structure Key where
  extended : Bool
  code : UInt8
  lt : code < 0x80
  noPrefix : code ≠ 0x60 ∧ code ≠ 0x61
deriving DecidableEq

def leftShift : Key := ⟨false, 0x2A, by decide, by decide⟩
def rightShift : Key := ⟨false, 0x36, by decide, by decide⟩
def leftCtrl : Key := ⟨false, 0x1D, by decide, by decide⟩
def rightCtrl : Key := ⟨true, 0x1D, by decide, by decide⟩
def leftAlt : Key := ⟨false, 0x38, by decide, by decide⟩
def rightAlt : Key := ⟨true, 0x38, by decide, by decide⟩

def leftKey : Modifier → Key
  | .shift => leftShift
  | .ctrl => leftCtrl
  | .alt => leftAlt

def rightKey : Modifier → Key
  | .shift => rightShift
  | .ctrl => rightCtrl
  | .alt => rightAlt

/-- What is done to the keyboard. The key Pause has no code for its release. -/
inductive Stroke where
  | press (k : Key)
  | release (k : Key)
  | pause
deriving DecidableEq

def Key.lead (k : Key) : List UInt8 := if k.extended then [0xE0] else []

def Stroke.bytes : Stroke → List UInt8
  | .press k => k.lead ++ [k.code]
  | .release k => k.lead ++ [k.code ||| 0x80]
  | .pause => [0xE1, 0x1D, 0x45, 0xE1, 0x9D, 0xC5]

def Stroke.held (H : Finset Key) : Stroke → Finset Key
  | .press k => insert k H
  | .release k => H.erase k
  | .pause => H

/-- The keys that are held after `n` bytes: a stroke counts with its last byte. -/
def heldAfter (H : Finset Key) : List Stroke → Nat → Finset Key
  | [], _ => H
  | k :: ks, n => if n < k.bytes.length then H else heldAfter (k.held H) ks (n - k.bytes.length)

def Flags.flag (f : Flags) : Modifier → Bool
  | .shift => f.shift
  | .ctrl => f.ctrl
  | .alt => f.alt

def Flags.Right (f : Flags) (H : Finset Key) : Prop :=
  ∀ m, f.flag m = true ↔ leftKey m ∈ H ∨ rightKey m ∈ H

/-- A stream of scancode bytes with their ticks: equal bytes one behind the other are not
debounced. -/
structure Stream where
  strokes : List Stroke
  timed : List (UInt64 × UInt8)
  spells : timed.map Prod.snd = strokes.flatMap Stroke.bytes
  spaced : timed.IsChain fun a b => a.2 = b.2 → 15 ≤ b.1 - a.1

def Stroke.Keeps (H : Finset Key) : Stroke → Prop
  | .press _ => True
  | .release k => ∀ m, (k = leftKey m → rightKey m ∉ H) ∧ (k = rightKey m → leftKey m ∉ H)
  | .pause => False

def KeepsAll (H : Finset Key) : List Stroke → Prop
  | [] => True
  | k :: ks => k.Keeps H ∧ KeepsAll (k.held H) ks

end keys

section flags

variable {f : Flags} {H : Finset Key} {k : Key} {m : Modifier}

def Flags.step (f : Flags) (sc : UInt8) : Flags :=
  if sc = 0xE0 then { f with extended := true }
  else if sc = 0xE1 then f
  else
    let key :=
      if f.extended then extendedScancodeToKey (sc &&& 0x7F) else scancodeToKey (sc &&& 0x7F)
    { f with extended := false }.setModifiers key (sc &&& 0x80 = 0)

theorem pushEvent_flags (s : State) (key : KeyCode) (pressed : Bool) (sc : UInt8) :
    (s.pushEvent key pressed sc).toFlags = s.toFlags := by
  unfold State.pushEvent
  split <;> rfl

theorem toggleLock_flags (s : State) (key : KeyCode) : (s.toggleLock key).toFlags = s.toFlags := by
  unfold State.toggleLock
  split_ifs <;> rfl

theorem typeKey_flags (s : State) (key : KeyCode) : (s.typeKey key).toFlags = s.toFlags := by
  unfold State.typeKey
  split_ifs <;> rfl

theorem pressKey_flags (s : State) (key : KeyCode) (sc : UInt8) :
    (s.pressKey key sc).toFlags = s.toFlags.setModifiers key true := by
  unfold State.pressKey
  dsimp only
  split_ifs
  · exact toggleLock_flags _ _
  · rw [pushEvent_flags, typeKey_flags, toggleLock_flags]

theorem releaseKey_flags (s : State) (key : KeyCode) (sc : UInt8) :
    (s.releaseKey key sc).toFlags = s.toFlags.setModifiers key false :=
  pushEvent_flags _ _ _ _

theorem processScancode_flags {s : State} {now : UInt64} {sc : UInt8}
    (h : s.debounced now sc = false) : (s.processScancode now sc).toFlags = s.toFlags.step sc := by
  unfold State.processScancode Flags.step
  rw [if_neg (by simp [h])]
  dsimp only
  by_cases h0 : sc = 0xE0
  · rw [if_pos h0, if_pos h0]
  · rw [if_neg h0, if_neg h0]
    by_cases h1 : sc = 0xE1
    · rw [if_pos h1, if_pos h1]
    · rw [if_neg h1, if_neg h1]
      by_cases hr : sc &&& 0x80 = 0
      · rw [if_neg (not_not.mpr hr), pressKey_flags, decide_eq_true hr]
      · rw [if_pos hr, releaseKey_flags, decide_eq_false hr]

theorem setModifiers_flag (f : Flags) (key : KeyCode) (on : Bool) (m : Modifier) :
    (f.setModifiers key on).flag m = if key.modifier = some m then on else f.flag m := by
  cases m <;> cases key <;> rfl

theorem step_zero (hf : f.extended = false) : f.step 0 = f := by
  obtain ⟨shift, ctrl, alt, extended⟩ := f
  obtain rfl : extended = false := hf
  rfl

theorem setModifiers_extended (f : Flags) (key : KeyCode) (on : Bool) :
    (f.setModifiers key on).extended = f.extended := rfl

def Key.keyCode (k : Key) : KeyCode :=
  if k.extended then extendedScancodeToKey k.code else scancodeToKey k.code

theorem lookup_modifier {table : List (UInt8 × KeyCode)} {sc : UInt8}
    (h : ((table.lookup sc).getD .keyNone).modifier = some m) :
    ∃ key, (sc, key) ∈ table ∧ key.modifier = some m := by
  cases hl : table.lookup sc with
  | none =>
    rw [hl] at h
    cases h
  | some key =>
    obtain ⟨l₁, l₂, rfl, -⟩ := List.lookup_eq_some_iff.mp hl
    rw [hl] at h
    exact ⟨key, by simp, h⟩

theorem keyCode_modifier : k.keyCode.modifier = some m ↔ k = leftKey m ∨ k = rightKey m := by
  constructor
  · intro h
    obtain ⟨extended, code, hlt, hno⟩ := k
    unfold Key.keyCode at h
    cases extended with
    | true =>
      obtain ⟨key, hmem, hkey⟩ := lookup_modifier h
      have hall : ∀ p ∈ extendedTable, p.2.modifier = some m →
          true = (leftKey m).extended ∧ p.1 = (leftKey m).code ∨
            true = (rightKey m).extended ∧ p.1 = (rightKey m).code := by
        cases m <;> decide
      simpa [Key.ext_iff] using hall _ hmem hkey
    | false =>
      obtain ⟨key, hmem, hkey⟩ := lookup_modifier h
      have hall : ∀ p ∈ scancodeTable, p.2.modifier = some m →
          false = (leftKey m).extended ∧ p.1 = (leftKey m).code ∨
            false = (rightKey m).extended ∧ p.1 = (rightKey m).code := by
        cases m <;> decide
      simpa [Key.ext_iff] using hall _ hmem hkey
  · rintro (rfl | rfl) <;> cases m <;> decide

/-- The bytes of a key are told apart from the prefixes, and the bit of a release from the code. -/
theorem code_bits {c : UInt8} (hlt : c < 0x80) (hno : c ≠ 0x60 ∧ c ≠ 0x61) :
    (c ≠ 0xE0 ∧ c ≠ 0xE1 ∧ c &&& 0x7F = c ∧ c &&& 0x80 = 0) ∧
      c ||| 0x80 ≠ 0xE0 ∧ c ||| 0x80 ≠ 0xE1 ∧ (c ||| 0x80) &&& 0x7F = c ∧
        (c ||| 0x80) &&& 0x80 ≠ 0 := by
  have hall : ∀ n < 128, n ≠ 0x60 ∧ n ≠ 0x61 →
      (UInt8.ofNat n ≠ 0xE0 ∧ UInt8.ofNat n ≠ 0xE1 ∧ UInt8.ofNat n &&& 0x7F = UInt8.ofNat n ∧
        UInt8.ofNat n &&& 0x80 = 0) ∧
      UInt8.ofNat n ||| 0x80 ≠ 0xE0 ∧ UInt8.ofNat n ||| 0x80 ≠ 0xE1 ∧
        (UInt8.ofNat n ||| 0x80) &&& 0x7F = UInt8.ofNat n ∧
        (UInt8.ofNat n ||| 0x80) &&& 0x80 ≠ 0 := by
    decide
  have h := hall c.toNat hlt ⟨fun h => hno.1 ?_, fun h => hno.2 ?_⟩
  · rwa [UInt8.ofNat_toNat] at h
  · exact UInt8.toNat_inj.mp h
  · exact UInt8.toNat_inj.mp h

theorem step_lead (hf : f.extended = false) :
    k.lead.foldl Flags.step f = { f with extended := k.extended } := by
  unfold Key.lead
  cases k.extended with
  | true => rfl
  | false =>
    obtain ⟨shift, ctrl, alt, extended⟩ := f
    obtain rfl : extended = false := hf
    rfl

/-- The byte of a key behind its prefix, if it has one. -/
theorem step_code (k : Key) :
    { f with extended := k.extended }.step k.code =
      { f with extended := false }.setModifiers k.keyCode true ∧
    { f with extended := k.extended }.step (k.code ||| 0x80) =
      { f with extended := false }.setModifiers k.keyCode false := by
  obtain ⟨⟨h0, h1, h2, h3⟩, h4, h5, h6, h7⟩ := code_bits k.lt k.noPrefix
  unfold Flags.step Key.keyCode
  constructor
  · rw [if_neg h0, if_neg h1, h2, decide_eq_true h3]
  · rw [if_neg h4, if_neg h5, h6, decide_eq_false h7]

theorem press_flags (hf : f.extended = false) (k : Key) :
    (Stroke.press k).bytes.foldl Flags.step f = f.setModifiers k.keyCode true := by
  rw [Stroke.bytes, List.foldl_append, step_lead hf, List.foldl_cons, (step_code k).1, ← hf]
  rfl

theorem release_flags (hf : f.extended = false) (k : Key) :
    (Stroke.release k).bytes.foldl Flags.step f = f.setModifiers k.keyCode false := by
  rw [Stroke.bytes, List.foldl_append, step_lead hf, List.foldl_cons, (step_code k).2, ← hf]
  rfl

theorem lead_flag (c : UInt8) {n : Nat} (hn : n < (k.lead ++ [c]).length) :
    (((k.lead ++ [c]).take n).foldl Flags.step f).flag m = f.flag m := by
  have hle : n ≤ k.lead.length := by simpa using hn
  rw [List.take_append_of_le_length hle]
  unfold Key.lead at hle ⊢
  cases hk : k.extended with
  | true =>
    rw [hk] at hle
    match n, hle with
    | 0, _ => rfl
    | 1, _ => cases m <;> rfl
  | false => simp

theorem modifiers_flag (f : Flags) (k : Key) (on : Bool) (m : Modifier) :
    (f.setModifiers k.keyCode on).flag m =
      if k = leftKey m ∨ k = rightKey m then on else f.flag m := by
  rw [setModifiers_flag]
  exact if_congr keyCode_modifier rfl rfl

end flags

section strokes

variable {f : Flags} {H : Finset Key} {k : Key} {m : Modifier}

theorem leftKey_ne_rightKey (m : Modifier) : leftKey m ≠ rightKey m := by
  cases m <;> decide

theorem Flags.Right.press (h : f.Right H) (k : Key) :
    (f.setModifiers k.keyCode true).Right (insert k H) := by
  intro m
  rw [modifiers_flag]
  split_ifs with hk
  · rcases hk with rfl | rfl <;> simp
  · rw [not_or] at hk
    rw [h m, Finset.mem_insert, Finset.mem_insert, or_iff_right (Ne.symm hk.1),
      or_iff_right (Ne.symm hk.2)]

/-- A release leaves the flags right unless the other key of the modifier is held. -/
theorem Flags.Right.release_iff (h : f.Right H) (k : Key) :
    (f.setModifiers k.keyCode false).Right (H.erase k) ↔ (Stroke.release k).Keeps H := by
  constructor
  · intro hr m
    have hm := hr m
    rw [modifiers_flag] at hm
    constructor
    · rintro rfl hheld
      rw [if_pos (.inl rfl)] at hm
      exact Bool.noConfusion (hm.mpr (.inr
        (Finset.mem_erase.mpr ⟨(leftKey_ne_rightKey m).symm, hheld⟩)))
    · rintro rfl hheld
      rw [if_pos (.inr rfl)] at hm
      exact Bool.noConfusion (hm.mpr (.inl (Finset.mem_erase.mpr ⟨leftKey_ne_rightKey m, hheld⟩)))
  · intro hkeeps m
    rw [modifiers_flag]
    split_ifs with hk
    · simp only [Finset.mem_erase, false_iff, not_or, not_and]
      rcases hk with rfl | rfl
      · exact ⟨fun hne => absurd rfl hne, fun _ => (hkeeps m).1 rfl⟩
      · exact ⟨fun _ => (hkeeps m).2 rfl, fun hne => absurd rfl hne⟩
    · rw [not_or] at hk
      rw [h m, Finset.mem_erase, Finset.mem_erase, and_iff_right (Ne.symm hk.1),
        and_iff_right (Ne.symm hk.2)]

/-- Pause sends the code of a control key on the way, and then the code of its release. -/
theorem pause_wrong (hf : f.extended = false) : ¬ ∀ n < Stroke.pause.bytes.length,
    ((Stroke.pause.bytes.take n).foldl Flags.step f).Right H := by
  obtain ⟨shift, ctrl, alt, extended⟩ := f
  obtain rfl : extended = false := hf
  intro h
  have hheld := (h 2 (by decide) .ctrl).mp rfl
  exact Bool.noConfusion ((h 5 (by decide) .ctrl).mpr hheld)

theorem stroke_iff (hf : f.extended = false) (h : f.Right H) (k : Stroke) :
    ((∀ n < k.bytes.length, ((k.bytes.take n).foldl Flags.step f).Right H) ∧
      (k.bytes.foldl Flags.step f).Right (k.held H)) ↔ k.Keeps H := by
  cases k with
  | press k =>
    rw [press_flags hf]
    refine iff_of_true ⟨?_, h.press k⟩ trivial
    intro n hn m
    rw [Stroke.bytes, lead_flag k.code hn]
    exact h m
  | release k =>
    rw [release_flags hf, ← h.release_iff k]
    apply and_iff_right
    intro n hn m
    rw [Stroke.bytes, lead_flag (k.code ||| 0x80) hn]
    exact h m
  | pause => exact iff_of_false (fun hp => pause_wrong hf hp.1) id

theorem stroke_extended (hf : f.extended = false) (k : Stroke) :
    (k.bytes.foldl Flags.step f).extended = false := by
  cases k with
  | press k => rw [press_flags hf, setModifiers_extended, hf]
  | release k => rw [release_flags hf, setModifiers_extended, hf]
  | pause => rfl

theorem heldAfter_zero (H : Finset Key) (strokes : List Stroke) : heldAfter H strokes 0 = H := by
  cases strokes with
  | nil => rfl
  | cons k ks =>
    rw [heldAfter, if_pos]
    cases k <;> simp [Stroke.bytes]

theorem strokes_iff (strokes : List Stroke) (hf : f.extended = false) (h : f.Right H) :
    (∀ n ≤ (strokes.flatMap Stroke.bytes).length,
      (((strokes.flatMap Stroke.bytes).take n).foldl Flags.step f).Right (heldAfter H strokes n)) ↔
    KeepsAll H strokes := by
  induction strokes generalizing f H with
  | nil =>
    refine iff_of_true ?_ trivial
    intro n _
    rw [List.flatMap_nil, List.take_nil]
    exact h
  | cons k ks ih =>
    rw [KeepsAll, ← stroke_iff hf h k, List.flatMap_cons]
    generalize hr : ks.flatMap Stroke.bytes = rest at ih
    -- the first bytes belong to this stroke, the others to those behind it
    have hfirst (n : Nat) (hn : n < k.bytes.length) :
        ((k.bytes ++ rest).take n).foldl Flags.step f = (k.bytes.take n).foldl Flags.step f ∧
          heldAfter H (k :: ks) n = H := by
      rw [List.take_append_of_le_length hn.le, heldAfter, if_pos hn]
      exact ⟨rfl, rfl⟩
    have hlater (n : Nat) : ((k.bytes ++ rest).take (k.bytes.length + n)).foldl Flags.step f =
        (rest.take n).foldl Flags.step (k.bytes.foldl Flags.step f) ∧
          heldAfter H (k :: ks) (k.bytes.length + n) = heldAfter (k.held H) ks n := by
      rw [List.take_length_add_append, List.foldl_append, heldAfter, if_neg (by omega),
        Nat.add_sub_cancel_left]
      exact ⟨rfl, rfl⟩
    have hih := ih (H := k.held H) (stroke_extended hf k)
    constructor
    · intro hall
      have htail (n : Nat) (hn : n ≤ rest.length) :
          ((rest.take n).foldl Flags.step (k.bytes.foldl Flags.step f)).Right
            (heldAfter (k.held H) ks n) := by
        have hn' := hall (k.bytes.length + n) (by rw [List.length_append]; omega)
        rwa [(hlater n).1, (hlater n).2] at hn'
      have hend := htail 0 (Nat.zero_le _)
      rw [List.take_zero, heldAfter_zero] at hend
      refine ⟨⟨?_, hend⟩, (hih hend).mp htail⟩
      intro n hn
      have hn' := hall n (by rw [List.length_append]; omega)
      rwa [(hfirst n hn).1, (hfirst n hn).2] at hn'
    · rintro ⟨⟨hwithin, hend⟩, hkeeps⟩ n hn
      by_cases hlt : n < k.bytes.length
      · rw [(hfirst n hlt).1, (hfirst n hlt).2]
        exact hwithin n hlt
      · obtain ⟨d, rfl⟩ := Nat.exists_eq_add_of_le (Nat.le_of_not_lt hlt)
        rw [(hlater d).1, (hlater d).2]
        apply (hih hend).mpr hkeeps
        rw [List.length_append] at hn
        omega

end strokes

section streams

theorem pushEvent_last (s : State) (key : KeyCode) (pressed : Bool) (sc : UInt8) :
    (s.pushEvent key pressed sc).lastRawScancode = s.lastRawScancode ∧
      (s.pushEvent key pressed sc).lastScancodeTick = s.lastScancodeTick := by
  unfold State.pushEvent
  split <;> exact ⟨rfl, rfl⟩

theorem toggleLock_last (s : State) (key : KeyCode) :
    (s.toggleLock key).lastRawScancode = s.lastRawScancode ∧
      (s.toggleLock key).lastScancodeTick = s.lastScancodeTick := by
  unfold State.toggleLock
  split_ifs <;> exact ⟨rfl, rfl⟩

theorem typeKey_last (s : State) (key : KeyCode) :
    (s.typeKey key).lastRawScancode = s.lastRawScancode ∧
      (s.typeKey key).lastScancodeTick = s.lastScancodeTick := by
  unfold State.typeKey
  split_ifs <;> exact ⟨rfl, rfl⟩

theorem pressKey_last (s : State) (key : KeyCode) (sc : UInt8) :
    (s.pressKey key sc).lastRawScancode = s.lastRawScancode ∧
      (s.pressKey key sc).lastScancodeTick = s.lastScancodeTick := by
  unfold State.pressKey
  dsimp only
  split_ifs <;> simp only [pushEvent_last, typeKey_last, toggleLock_last, and_self]

theorem processScancode_last {s : State} {now : UInt64} {sc : UInt8}
    (h : s.debounced now sc = false) : (s.processScancode now sc).lastRawScancode = sc ∧
      (s.processScancode now sc).lastScancodeTick = now := by
  unfold State.processScancode
  rw [if_neg (by simp [h])]
  dsimp only
  generalize (if s.extended = true then extendedScancodeToKey (sc &&& 0x7F)
    else scancodeToKey (sc &&& 0x7F)) = key
  split_ifs
  · exact ⟨rfl, rfl⟩
  · exact ⟨rfl, rfl⟩
  · exact pushEvent_last _ _ _ _
  · exact pressKey_last _ _ _

/-- The first byte may be a 0 that is taken for a repetition, which changes no flag. -/
theorem feed_flags {timed : List (UInt64 × UInt8)} {s : State}
    (hspaced : timed.IsChain fun a b => a.2 = b.2 → 15 ≤ b.1 - a.1)
    (hfirst : ∀ b ∈ timed.head?, s.debounced b.1 b.2 = true → b.2 = 0 ∧ s.extended = false) :
    (feed s timed).toFlags = (timed.map Prod.snd).foldl Flags.step s.toFlags := by
  induction timed generalizing s with
  | nil => rfl
  | cons b bs ih =>
    have hb := hfirst b rfl
    cases hd : s.debounced b.1 b.2 with
    | true =>
      obtain ⟨hzero, hext⟩ := hb hd
      have hsame : s.processScancode b.1 b.2 = s := by
        unfold State.processScancode
        rw [if_pos hd]
      have hstep : s.toFlags.step b.2 = s.toFlags := by
        rw [hzero]
        exact step_zero hext
      rw [feed, List.foldl_cons, hsame, List.map_cons, List.foldl_cons, hstep]
      apply ih hspaced.tail
      intro b' _ hd'
      -- the byte is the one that was remembered before, which is the 0
      simp only [State.debounced, Bool.and_eq_true, decide_eq_true_eq] at hd hd'
      exact ⟨hd'.1.trans (hd.1.symm.trans hzero), hext⟩
    | false =>
      rw [feed, List.foldl_cons, List.map_cons, List.foldl_cons, ← processScancode_flags hd]
      apply ih hspaced.tail
      intro b' hb' hd'
      obtain ⟨hraw, htick⟩ := processScancode_last hd
      simp only [State.debounced, hraw, htick, Bool.and_eq_true, decide_eq_true_eq] at hd'
      have hlate := hspaced.rel_head? hb' hd'.1.symm
      exact absurd hlate (UInt64.not_le.mpr hd'.2)

/-- The flags are right after every byte of a stream if no stroke is a Pause or lets go of one key
of a modifier while the other is held, and not otherwise. -/
theorem modifiers_iff (st : Stream) :
    (∀ n ≤ st.timed.length, (feed initial (st.timed.take n)).Right (heldAfter ∅ st.strokes n)) ↔
      KeepsAll ∅ st.strokes := by
  have hstart : initial.toFlags.Right ∅ := by
    intro m
    cases m <;> simp [Flags.flag, initial]
  have hlen : st.timed.length = (st.strokes.flatMap Stroke.bytes).length := by
    rw [← st.spells, List.length_map]
  rw [← strokes_iff st.strokes rfl hstart, hlen]
  refine forall₂_congr fun n _ => ?_
  have hflags := feed_flags (s := initial) (st.spaced.take n) ?_
  · rw [hflags, List.map_take, st.spells]
  · intro b _ hd
    simp only [State.debounced, Bool.and_eq_true, decide_eq_true_eq] at hd
    exact ⟨hd.1, rfl⟩

def bothShifts : Stream where
  strokes := [.press leftShift, .press rightShift, .release leftShift]
  timed := [(20, 0x2A), (40, 0x36), (60, 0xAA)]
  spells := by decide
  spaced := by decide

theorem shift_dropped : ¬ ∀ (st : Stream) (n : Nat), n ≤ st.timed.length →
    (feed initial (st.timed.take n)).Right (heldAfter ∅ st.strokes n) := by
  intro h
  have hflag := (h bothShifts 3 (by decide) .shift).mpr (.inr (by decide))
  exact absurd hflag (by decide)

end streams

end LosTacOS.Drivers.Scancodes
