import LosTacOS.Drivers.OnScreen

/-! Which bytes the console takes for text and which for parts of an escape sequence. -/
namespace LosTacOS.Drivers

section reference

/-- Where a reader stands between two bytes: in text, behind an escape, behind its intermediate
bytes, or in the parameters of a control sequence. -/
inductive Mode where
  | ground
  | escape
  | intermediate
  | csi
deriving DecidableEq

def Mode.goesOn : Mode → UInt8 → Option Mode
  | .ground, _ => none
  | .escape, c =>
    if c = 0x5B then some .csi
    else if 0x20 ≤ c ∧ c ≤ 0x2F then some .intermediate
    else none
  | .intermediate, c => if 0x20 ≤ c ∧ c ≤ 0x2F then some .intermediate else none
  | .csi, c => if 0x20 ≤ c ∧ c ≤ 0x3F then some .csi else none

def Mode.endsWith : Mode → UInt8 → Bool
  | .ground, _ => false
  | .escape, c => c ≠ 0x5B && 0x30 ≤ c && c ≤ 0x7E
  | .intermediate, c => 0x30 ≤ c && c ≤ 0x7E
  | .csi, c => 0x40 ≤ c && c ≤ 0x7E

/-- A byte that belongs to no sequence is text. One that cannot stand in a sequence breaks it off. -/
def Mode.takesText (m : Mode) (c : UInt8) : Bool :=
  c ≠ 27 && (m.goesOn c).isNone && !m.endsWith c

def Mode.next (m : Mode) (c : UInt8) : Mode :=
  if c = 27 then .escape else (m.goesOn c).getD .ground

/-- A control sequence: `ESC [`, parameters and intermediates, and a final byte. -/
def ControlSequence (w : List UInt8) : Prop :=
  ∃ params final, w = 27 :: 0x5B :: (params ++ [final]) ∧ (∀ c ∈ params, 0x20 ≤ c ∧ c ≤ 0x3F) ∧
    0x40 ≤ final ∧ final ≤ 0x7E

def Mode.span (m : Mode) : List UInt8 → List UInt8 × List UInt8
  | [] => ([], [])
  | c :: s =>
    if c = 27 then ([], c :: s)
    else
      match m.goesOn c with
      | some m' => let (w, r) := m'.span s; (c :: w, r)
      | none => if m.endsWith c then ([c], s) else ([], c :: s)

end reference

section code

variable (u : Display)

/-- `put` for a byte that is no escape and stands in no sequence. -/
def Console.putText (s : Console) (c : UInt8) : Console :=
  if c = 10 then (s.newline u).flushDirty u
  else if c = 13 then { s with cursorX := 0 }
  else if c = 8 ∨ c = 127 then s.backspace u
  else if c = 9 then { s with cursorX := (s.cursorX + 4 * charW u) % word }.flushDirty u
  else
    let s := if u.width ≤ (s.cursorX + charW u) % word then s.newline u else s
    (s.drawChar u c).flushDirty u

def Console.putEscape (s : Console) (c : UInt8) : Console :=
  if c = 27 then { s with escape := true, ansi := [] } else s.putAnsi u c

def Console.takesText (s : Console) (c : UInt8) : Bool := c ≠ 27 && !s.escape

theorem put_eq (s : Console) (c : UInt8) : s.put u c =
    if s.takesText c then (s.hideCursor u).putText u c else (s.hideCursor u).putEscape u c := by
  have h := hideCursor_text s u
  simp only [Console.text, Prod.mk.injEq] at h
  unfold Console.put Console.takesText Console.putText Console.putEscape
  dsimp only
  rw [h.2.2.1]
  by_cases hc : c = 27
  · simp [hc]
  · cases s.escape <;> simp [hc]

def Console.Consumes (bytes : List UInt8) : Prop :=
  ∀ pre c post, bytes = pre ++ c :: post →
    (Console.init.write u pre).takesText c = (pre.foldl Mode.next .ground).takesText c

/-- The sequence behind an escape has 15 bytes, or less and ends with a letter, or with the text, or
where the next escape stands. -/
def Collected (s : List UInt8) : Prop :=
  let (w, r) := Mode.escape.span s
  w.length ≤ 15 ∧
    (w.length = 15 ∨ w.getLast?.any Console.isLetter ∨ r = [] ∨ r.head? = some 27)

end code

section pending

variable {u : Display} {s : Console}

def Console.pending (s : Console) : Bool × List UInt8 := (s.escape, s.ansi)

@[simp] theorem markDirty_pending (s : Console) (x y w h : Nat) :
    (s.markDirty x y w h).pending = s.pending := by
  unfold Console.markDirty
  split <;> rfl

theorem swapRect_escape (s : Console) (u : Display) (x y w h : Nat) :
    (s.swapRect u x y w h).escape = s.escape ∧ (s.swapRect u x y w h).ansi = s.ansi :=
  ⟨rfl, rfl⟩

theorem flushDirty_escape (s : Console) (u : Display) :
    (s.flushDirty u).escape = s.escape ∧ (s.flushDirty u).ansi = s.ansi := by
  unfold Console.flushDirty
  by_cases h : s.hasDirty = true
  · rw [if_pos h]
    exact swapRect_escape s u s.dirtyX0 s.dirtyY0 (Console.sub s.dirtyX1 s.dirtyX0)
      (Console.sub s.dirtyY1 s.dirtyY0)
  · rw [if_neg h]
    exact ⟨rfl, rfl⟩

@[simp] theorem flushDirty_pending (s : Console) (u : Display) :
    (s.flushDirty u).pending = s.pending :=
  Prod.ext (flushDirty_escape s u).1 (flushDirty_escape s u).2

@[simp] theorem drawCursorBlock_pending (s : Console) (u : Display) :
    (s.drawCursorBlock u).pending = s.pending := by
  unfold Console.drawCursorBlock
  refine (markDirty_pending _ _ _ _ _).trans (foldl_keeps (g := Console.pending) ?_ _ s)
  intro _ _
  rfl

@[simp] theorem hideCursor_pending (s : Console) (u : Display) :
    (s.hideCursor u).pending = s.pending := by
  unfold Console.hideCursor
  split
  · exact drawCursorBlock_pending s u
  · rfl

theorem moved_pending (s : Console) (x y : Nat) :
    { s with cursorX := x, cursorY := y }.pending = s.pending := rfl

theorem repainted_pending (s : Console) (back : Buffer) : { s with back }.pending = s.pending := rfl

theorem scroll_pending (s : Console) (u : Display) : (s.scroll u).pending = s.pending := by
  unfold Console.scroll
  dsimp only
  split
  · rfl
  · rw [markDirty_pending, repainted_pending]

@[simp] theorem newline_pending (s : Console) (u : Display) :
    (s.newline u).pending = s.pending := by
  have h := (scroll_pending { s with
    cursorX := 0, cursorY := (s.cursorY + Console.charH u) % word } u).trans (moved_pending s _ _)
  unfold Console.newline
  dsimp only
  split
  · rw [← h]
    exact moved_pending _ _ _
  · exact moved_pending _ _ _

@[simp] theorem drawChar_pending (s : Console) (u : Display) (c : UInt8) :
    (s.drawChar u c).pending = s.pending := by
  unfold Console.drawChar
  cases u.font.glyph c with
  | none => rfl
  | some glyph =>
    have hdraw : ((s.glyphPixels u glyph).foldl (fun t p => t.putPixelUnchecked u
        ((s.cursorX + p.1) % word) ((s.cursorY + p.2.1) % word) p.2.2) s).pending = s.pending := by
      apply foldl_keeps
      intro _ _
      rfl
    dsimp only
    generalize (s.glyphPixels u glyph).foldl (fun t p => t.putPixelUnchecked u
      ((s.cursorX + p.1) % word) ((s.cursorY + p.2.1) % word) p.2.2) s = t at hdraw ⊢
    have hmark := (markDirty_pending t s.cursorX s.cursorY u.font.width u.font.height).trans hdraw
    generalize t.markDirty s.cursorX s.cursorY u.font.width u.font.height = t' at hmark ⊢
    have hmoved := (moved_pending t' ((t'.cursorX + u.font.width) % word) t'.cursorY).trans hmark
    split
    · exact (newline_pending _ u).trans hmoved
    · exact hmoved

theorem backspace_pending (s : Console) (u : Display) : (s.backspace u).pending = s.pending := by
  have herase (t : Console) (x y : Nat) : (t.eraseCell u x y).pending = t.pending := by
    unfold Console.eraseCell
    rw [flushDirty_pending, markDirty_pending, markDirty_pending]
    apply foldl_keeps
    intro t' p
    unfold Console.putPixel
    split <;> rfl
  unfold Console.backspace
  dsimp only
  split_ifs
  · exact (herase _ _ _).trans ((moved_pending _ _ _).trans (hideCursor_pending s u))
  · exact (herase _ _ _).trans ((moved_pending _ _ _).trans (hideCursor_pending s u))
  · exact hideCursor_pending s u

theorem putText_pending (s : Console) (u : Display) (c : UInt8) :
    (s.putText u c).pending = s.pending := by
  unfold Console.putText
  split_ifs
  · rw [flushDirty_pending, newline_pending]
  · rfl
  · exact backspace_pending s u
  · rw [flushDirty_pending]
    exact moved_pending _ _ _
  · rw [flushDirty_pending, drawChar_pending, newline_pending]
  · rw [flushDirty_pending, drawChar_pending]

end pending

section collecting

abbrev Pending := Option Nat

def Pending.next (k : Pending) (c : UInt8) : Pending :=
  if c = 27 then some 0
  else k.bind fun n => if Console.isLetter c ∨ 15 ≤ n + 1 then none else some (n + 1)

def Pending.takesText (k : Pending) (c : UInt8) : Bool := c ≠ 27 && k.isNone

def Console.collected (s : Console) : Pending := if s.escape then some s.ansi.length else none

theorem takesText_collected (s : Console) (c : UInt8) :
    s.takesText c = s.collected.takesText c := by
  unfold Console.takesText Pending.takesText Console.collected
  cases s.escape <;> rfl

theorem collected_of_pending {s t : Console} (h : s.pending = t.pending) :
    s.collected = t.collected := by
  simp only [Console.pending, Prod.mk.injEq] at h
  unfold Console.collected
  rw [h.1, h.2]

theorem putAnsi_collected {s : Console} (u : Display) {c : UInt8} (hopen : s.escape = true)
    (hroom : s.ansi.length < 15) : (s.putAnsi u c).collected =
      if Console.isLetter c ∨ 15 ≤ s.ansi.length + 1 then none else some (s.ansi.length + 1) := by
  unfold Console.putAnsi
  dsimp only
  rw [if_pos hroom, collected_of_pending (flushDirty_pending _ u), List.length_append,
    List.length_singleton]
  split_ifs
  · rfl
  · simp [Console.collected, hopen]

theorem Pending.next_lt {k : Pending} {c : UInt8} {n : Nat} (h : k.next c = some n) : n < 15 := by
  unfold Pending.next at h
  split_ifs at h with hc
  · cases h
    decide
  · obtain ⟨m, -, hm⟩ := Option.bind_eq_some_iff.mp h
    split_ifs at hm with hend
    cases hm
    exact Nat.lt_of_not_le fun hle => hend (.inr hle)

theorem put_collected {s : Console} (u : Display) (c : UInt8)
    (hroom : ∀ n, s.collected = some n → n < 15) : (s.put u c).collected = s.collected.next c := by
  have hhide := collected_of_pending (hideCursor_pending s u)
  rw [put_eq, takesText_collected, ← hhide]
  rw [← hhide] at hroom
  generalize s.hideCursor u = t at hroom
  unfold Pending.takesText Pending.next Console.putEscape
  by_cases hc : c = 27
  · simp [hc, Console.collected]
  · cases hopen : t.escape with
    | false =>
      have hnone : t.collected = none := by simp [Console.collected, hopen]
      simp only [hc, hnone, ne_eq, not_false_eq_true, decide_true, Option.isNone_none, Bool.and_self,
        if_true, if_false, Option.bind_none]
      rw [collected_of_pending (putText_pending t u c), hnone]
    | true =>
      have hsome : t.collected = some t.ansi.length := by simp [Console.collected, hopen]
      simp only [hc, hsome, Option.isNone_some, Bool.and_false, Bool.false_eq_true, if_false,
        Option.bind_some]
      exact putAnsi_collected u hopen (hroom _ hsome)

theorem write_collected {s : Console} (u : Display) (bytes : List UInt8)
    (hroom : ∀ n, s.collected = some n → n < 15) :
    (s.write u bytes).collected = bytes.foldl Pending.next s.collected := by
  induction bytes generalizing s with
  | nil => rfl
  | cons c bytes ih =>
    have hput := put_collected u c hroom
    rw [List.foldl_cons, ← hput]
    apply ih
    intro n hn
    rw [hput] at hn
    exact Pending.next_lt hn

end collecting

section agreement

variable {k : Pending} {m : Mode} {c : UInt8} {s : List UInt8} {n : Nat}

def Agree : Pending → Mode → List UInt8 → Prop
  | _, _, [] => True
  | k, m, c :: s => k.takesText c = m.takesText c ∧ Agree (k.next c) (m.next c) s

theorem agree_iff (k : Pending) (m : Mode) (s : List UInt8) : Agree k m s ↔
    ∀ pre c post, s = pre ++ c :: post →
      (pre.foldl Pending.next k).takesText c = (pre.foldl Mode.next m).takesText c := by
  induction s generalizing k m with
  | nil => simp [Agree]
  | cons c s ih =>
    rw [Agree, ih]
    constructor
    · rintro ⟨hc, hs⟩ pre c' post heq
      cases pre with
      | nil =>
        obtain ⟨rfl, rfl⟩ := List.cons.inj heq
        exact hc
      | cons d pre =>
        obtain ⟨rfl, rfl⟩ := List.cons.inj heq
        exact hs pre c' post rfl
    · intro h
      refine ⟨h [] c s rfl, ?_⟩
      rintro pre c' post rfl
      exact h (c :: pre) c' post rfl

theorem agree_escape (k : Pending) (m : Mode) (s : List UInt8) :
    Agree k m (27 :: s) ↔ Agree (some 0) .escape s := by
  simp [Agree, Pending.takesText, Mode.takesText, Pending.next, Mode.next]

theorem agree_text (hc : c ≠ 27) : Agree none .ground (c :: s) ↔ Agree none .ground s := by
  simp [Agree, Pending.takesText, Mode.takesText, Pending.next, Mode.next, Mode.goesOn,
    Mode.endsWith, hc]

/-- The console still collects where text has begun: nothing but an escape may follow. -/
theorem agree_lag (n : Nat) : Agree (some n) .ground s ↔
    (s = [] ∨ s.head? = some 27) ∧ Agree none .ground s := by
  cases s with
  | nil => simp [Agree]
  | cons c s =>
    by_cases hc : c = 27
    · rw [hc, agree_escape, agree_escape]
      simp
    · simp [Agree, Pending.takesText, Mode.takesText, Mode.goesOn, Mode.endsWith, hc]

theorem takesText_goesOn {m' : Mode} (hc : c ≠ 27) (h : m.goesOn c = some m') :
    m.takesText c = false ∧ m.next c = m' ∧ Console.isLetter c = false := by
  refine ⟨by simp [Mode.takesText, h], by simp [Mode.next, hc, h], ?_⟩
  have hlow : c = 0x5B ∨ c ≤ 0x3F := by
    unfold Mode.goesOn at h
    cases m <;> dsimp only at h
    · cases h
    · split_ifs at h with h1 h2
      · exact .inl h1
      · exact .inr (UInt8.le_trans h2.2 (by decide))
    · split_ifs at h with h2
      exact .inr (UInt8.le_trans h2.2 (by decide))
    · split_ifs at h with h2
      exact .inr h2.2
  rcases hlow with rfl | hle
  · decide
  · unfold Console.isLetter
    have h1 : ¬ 65 ≤ c := fun h => absurd (UInt8.le_trans h hle) (by decide)
    have h2 : ¬ 97 ≤ c := fun h => absurd (UInt8.le_trans h hle) (by decide)
    simp [h1, h2]

theorem takesText_stops (hc : c ≠ 27) (h : m.goesOn c = none) :
    m.takesText c = !m.endsWith c ∧ m.next c = .ground := by
  simp [Mode.takesText, Mode.next, hc, h]

/-- The console is back in text before the sequence ends: no byte of it may follow. -/
theorem agree_ahead (m : Mode) (s : List UInt8) :
    Agree none m s ↔ (m.span s).1 = [] ∧ Agree none .ground (m.span s).2 := by
  cases s with
  | nil => simp [Mode.span, Agree]
  | cons c s =>
    unfold Mode.span
    by_cases hc : c = 27
    · rw [if_pos hc, hc, agree_escape, agree_escape]
      simp
    · rw [if_neg hc]
      cases hm : m.goesOn c with
      | some m' =>
        obtain ⟨htext, -, -⟩ := takesText_goesOn hc hm
        simp [Agree, htext, Pending.takesText, hc]
      | none =>
        obtain ⟨htext, hnext⟩ := takesText_stops hc hm
        cases hend : m.endsWith c with
        | true => simp [Agree, htext, hend, Pending.takesText, hc]
        | false =>
          simp only [Bool.false_eq_true, if_false, true_and, agree_text hc]
          simp [Agree, htext, hnext, hend, Pending.takesText, Pending.next, hc]

/-- The sequence fits into what is left of the fifteen bytes, and the console sees where it ends. -/
def Fits (n : Nat) (w r : List UInt8) : Prop :=
  n + w.length ≤ 15 ∧
    (n + w.length = 15 ∨ w.getLast?.any Console.isLetter ∨ r = [] ∨ r.head? = some 27)

theorem fits_cons {w r : List UInt8} (hc : Console.isLetter c = false) :
    Fits n (c :: w) r ↔ Fits (n + 1) w r := by
  unfold Fits
  rw [List.length_cons, Nat.add_assoc, Nat.add_comm 1]
  cases w with
  | nil => simp [hc]
  | cons d w => rw [List.getLast?_cons_cons]

theorem fits_full {w r : List UInt8} : Fits 15 w r ↔ w = [] := by
  constructor
  · rintro ⟨hle, -⟩
    exact List.length_eq_zero_iff.mp (by omega)
  · rintro rfl
    exact ⟨Nat.le_refl 15, .inl rfl⟩

theorem agree_open (m : Mode) (hn : n < 15) (s : List UInt8) : Agree (some n) m s ↔
    Fits n (m.span s).1 (m.span s).2 ∧ Agree none .ground (m.span s).2 := by
  induction s generalizing m n with
  | nil => simp [Mode.span, Agree, Fits, hn.le]
  | cons c s ih =>
    unfold Mode.span
    by_cases hc : c = 27
    · rw [if_pos hc, hc, agree_escape, agree_escape]
      simp [Fits, hn.le]
    · rw [if_neg hc]
      have hopen : Agree (some n) m (c :: s) ↔ m.takesText c = false ∧
          Agree (if Console.isLetter c ∨ 15 ≤ n + 1 then none else some (n + 1)) (m.next c) s := by
        have htake : Pending.takesText (some n) c = false := Bool.and_false _
        have hnext : Pending.next (some n) c =
            if Console.isLetter c ∨ 15 ≤ n + 1 then none else some (n + 1) := if_neg hc
        rw [Agree, htake, hnext, eq_comm]
      rw [hopen]
      cases hm : m.goesOn c with
      | some m' =>
        obtain ⟨htext, hnext, hletter⟩ := takesText_goesOn hc hm
        rw [htext, hnext, hletter]
        dsimp only
        by_cases hfull : 15 ≤ n + 1
        · -- the fifteenth byte, with which the console ends the sequence
          rw [if_pos (.inr hfull), agree_ahead]
          obtain rfl : n = 14 := by omega
          rw [fits_cons hletter, fits_full]
          simp
        · rw [if_neg (by simpa using hfull), ih _ (by omega), fits_cons hletter]
          simp
      | none =>
        obtain ⟨htext, hnext⟩ := takesText_stops hc hm
        rw [htext, hnext]
        cases hend : m.endsWith c with
        | true =>
          simp only [if_true, Bool.not_true, true_and]
          by_cases hended : Console.isLetter c = true ∨ 15 ≤ n + 1
          · rw [if_pos hended]
            have hfits : Fits n [c] s := by
              refine ⟨hn, ?_⟩
              rcases hended with hletter | hfull
              · exact .inr (.inl hletter)
              · exact .inl (Nat.le_antisymm hn hfull)
            simp [hfits]
          · -- the console waits for a letter behind the end
            rw [if_neg hended, agree_lag]
            rw [not_or] at hended
            have hfits : Fits n [c] s ↔ s = [] ∨ s.head? = some 27 := by
              constructor
              · rintro ⟨-, hfull | hletter | hrest⟩
                · exact absurd hfull.ge hended.2
                · exact absurd hletter hended.1
                · exact hrest
              · intro hrest
                exact ⟨hn, .inr (.inr hrest)⟩
            rw [hfits]
        | false =>
          simp [Fits, hc]
          omega

theorem span_split (m : Mode) (s : List UInt8) :
    (m.span s).1 ++ (m.span s).2 = s ∧ 27 ∉ (m.span s).1 := by
  induction s generalizing m with
  | nil => simp [Mode.span]
  | cons c s ih =>
    unfold Mode.span
    by_cases hc : c = 27
    · simp [hc]
    · rw [if_neg hc]
      cases m.goesOn c with
      | some m' =>
        obtain ⟨hsplit, hno⟩ := ih m'
        simp [hsplit, hno, Ne.symm hc]
      | none => cases m.endsWith c <;> simp [Ne.symm hc]

end agreement

section collects

variable {c : UInt8} {s : List UInt8}

def Collects (bytes : List UInt8) : Prop :=
  ∀ pre rest, bytes = pre ++ 27 :: rest → Collected rest

theorem collects_cons : Collects (c :: s) ↔ (c = 27 → Collected s) ∧ Collects s := by
  constructor
  · intro h
    refine ⟨?_, ?_⟩
    · rintro rfl
      exact h [] s rfl
    · rintro pre rest rfl
      exact h (c :: pre) rest rfl
  · rintro ⟨hc, hs⟩ pre rest heq
    cases pre with
    | nil =>
      obtain ⟨rfl, rfl⟩ := List.cons.inj heq
      exact hc rfl
    | cons d pre => exact hs pre rest (List.cons.inj heq).2

theorem collects_append {w r : List UInt8} (hw : 27 ∉ w) : Collects (w ++ r) ↔ Collects r := by
  induction w with
  | nil => rfl
  | cons c w ih =>
    rw [List.mem_cons, not_or] at hw
    rw [List.cons_append, collects_cons, ih hw.2]
    exact and_iff_right fun hc => absurd hc.symm hw.1

theorem collected_iff : Collected s ↔ Fits 0 (Mode.escape.span s).1 (Mode.escape.span s).2 := by
  unfold Collected Fits
  rw [Nat.zero_add]

theorem agree_collects (bytes : List UInt8) : Agree none .ground bytes ↔ Collects bytes := by
  induction hn : bytes.length using Nat.strong_induction_on generalizing bytes with
  | _ n ih =>
    cases bytes with
    | nil => simp [Agree, Collects]
    | cons c s =>
      subst hn
      by_cases hc : c = 27
      · obtain ⟨hsplit, hno⟩ := span_split .escape s
        have hrest := collects_append (r := (Mode.escape.span s).2) hno
        rw [hsplit] at hrest
        have hlen : (Mode.escape.span s).2.length < (c :: s).length := by
          have := congrArg List.length hsplit
          rw [List.length_append] at this
          rw [List.length_cons]
          omega
        rw [hc, agree_escape, agree_open .escape (by decide), collects_cons, collected_iff, hrest,
          ih _ hlen _ rfl]
        simp
      · rw [agree_text hc, collects_cons, ih s.length (by simp) s rfl]
        simp [hc]

theorem consumes_agree (u : Display) (bytes : List UInt8) :
    Console.Consumes u bytes ↔ Agree none .ground bytes := by
  rw [agree_iff]
  refine forall₄_congr fun pre c post _ => ?_
  have hinit : Console.init.collected = none := rfl
  rw [takesText_collected, write_collected u pre (by rw [hinit]; simp), hinit]

def Mode.Passes (m : Mode) (w : List UInt8) (m' : Mode) : Prop :=
  (∀ pre c post, w = pre ++ c :: post → (pre.foldl Mode.next m).takesText c = false) ∧
    w.foldl Mode.next m = m'

theorem Mode.Passes.cons {m m' : Mode} {w : List UInt8} (hc : m.takesText c = false)
    (hw : (m.next c).Passes w m') : m.Passes (c :: w) m' := by
  refine ⟨?_, hw.2⟩
  intro pre d post heq
  cases pre with
  | nil =>
    obtain ⟨rfl, rfl⟩ := List.cons.inj heq
    exact hc
  | cons e pre =>
    obtain ⟨rfl, rfl⟩ := List.cons.inj heq
    exact hw.1 pre d post rfl

theorem csi_passes {params : List UInt8} {final : UInt8}
    (hparams : ∀ c ∈ params, 0x20 ≤ c ∧ c ≤ 0x3F) (hlow : 0x40 ≤ final) (hhigh : final ≤ 0x7E) :
    Mode.csi.Passes (params ++ [final]) .ground := by
  induction params with
  | nil =>
    have hfinal : ¬ (0x20 ≤ final ∧ final ≤ 0x3F) :=
      fun h => absurd (UInt8.le_trans hlow h.2) (by decide)
    have hne : final ≠ 27 := by
      rintro rfl
      exact absurd hlow (by decide)
    apply Mode.Passes.cons
    · simp [Mode.takesText, Mode.endsWith, hlow, hhigh]
    · simp [Mode.Passes, Mode.next, Mode.goesOn, hne, hfinal]
  | cons c params ih =>
    obtain ⟨hc, hparams⟩ := List.forall_mem_cons.mp hparams
    have hne : c ≠ 27 := by
      rintro rfl
      exact absurd hc.1 (by decide)
    have hgoes : Mode.csi.goesOn c = some .csi := if_pos hc
    obtain ⟨htext, hnext, -⟩ := takesText_goesOn hne hgoes
    apply Mode.Passes.cons htext
    rw [hnext]
    exact ih hparams

/-- The reader takes no byte of a control sequence for text, and is back in text behind it. -/
theorem ControlSequence.passes {w : List UInt8} (h : ControlSequence w) (m : Mode) :
    m.Passes w .ground := by
  obtain ⟨params, final, rfl, hparams, hlow, hhigh⟩ := h
  apply Mode.Passes.cons (by rfl)
  apply Mode.Passes.cons (by rfl)
  exact csi_passes hparams hlow hhigh

/-- The console takes every byte for what it is if each sequence has 15 bytes behind its escape, or
less and ends where the console sees it, and not otherwise. -/
theorem consumes_iff (u : Display) (bytes : List UInt8) :
    Console.Consumes u bytes ↔ Collects bytes :=
  (consumes_agree u bytes).trans (agree_collects bytes)

/-- The sequence of the key Delete ends with a tilde. -/
theorem tilde_swallows : ¬ ∀ (u : Display) (bytes : List UInt8), Console.Consumes u bytes := by
  intro h
  have hagree := (consumes_agree wide [27, 0x5B, 0x33, 0x7E, 0x78]).mp (h _ _)
  simp only [Agree] at hagree
  exact absurd hagree.2.2.2.2.1 (by decide)

end collects

end LosTacOS.Drivers
