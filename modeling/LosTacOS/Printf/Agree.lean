import LosTacOS.Printf.Language

/-! The kernel's `kvsnprintf` and the library's `vsnprintf` on the formats of the language, field by
field. -/
namespace LosTacOS.Printf

open Emit

section read

def Letter.conv : Letter → Conv
  | .s => .s
  | .c => .c
  | .d => .d
  | .i => .d
  | .u => .u
  | .x => .x false
  | .X => .x true
  | .o => .o
  | .p => .p
  | .percent => .percent

/-- The library's switch has no case for `%`. -/
def Letter.libConv : Letter → Option LibConv
  | .s => some .s
  | .c => some .c
  | .d => some .d
  | .i => some .d
  | .u => some .u
  | .x => some (.x false)
  | .X => some (.x true)
  | .o => some .o
  | .p => some .p
  | .percent => none

theorem conv_letter (letter : Letter) : conv letter.char = some letter.conv := by
  cases letter <;> rfl

theorem libConv_letter (letter : Letter) : Printf.libConv letter.char = letter.libConv := by
  cases letter <;> rfl

def Plain (flags : List Flag) (width : Nat) (modifier : Modifier) (letter : Letter) : Prop :=
  letter = .percent ∧ flags = [] ∧ width = 0 ∧ modifier = .none

instance (flags : List Flag) (width : Nat) (modifier : Modifier) (letter : Letter) :
    Decidable (Plain flags width modifier letter) := inferInstanceAs (Decidable (_ ∧ _))

def Item.kernelPiece : Item → UInt8 ⊕ Directive
  | .text c _ => .inl c
  | .conv flags width modifier letter =>
    .inr ⟨⟨flagsOf flags, cInt width, modifier.length⟩, some letter.char⟩

def Item.libPiece : Item → UInt8 ⊕ LibDirective
  | .text c _ => .inl c
  | .conv flags width modifier letter =>
    if Plain flags width modifier letter then .inr .percent
    else .inr (.directive ⟨flagsOf flags, .lit (cInt width), none, modifier.length⟩
      (some letter.char))

theorem kernel_pieces (items : List Item) :
    scanner.pieces (render items) = items.map Item.kernelPiece := by
  apply scanner.pieces_render
  intro item _ cs
  cases item with
  | text c h => exact scanner.pieces_text h cs
  | conv flags width modifier letter =>
    have hscan := scanSpec_render flags width modifier letter cs
    have hpieces := scanner.pieces_directive (Item.tail flags width modifier letter ++ cs)
    simp only [scanner, hscan] at hpieces
    exact hpieces

/-- Neither a star nor a point is read in the language. -/
theorem no_star (width : Nat) (modifier : Modifier) (letter : Letter) (rest : List UInt8) :
    (decimal width ++ (modifier.chars ++ letter.char :: rest)).head? ≠ some '*'.toUInt8 ∧
    (modifier.chars ++ letter.char :: rest).head? ≠ some '.'.toUInt8 := by
  have hletter : (modifier.chars ++ letter.char :: rest).head? ≠ some '*'.toUInt8 ∧
      (modifier.chars ++ letter.char :: rest).head? ≠ some '.'.toUInt8 := by
    cases modifier <;> cases letter <;> simp [Modifier.chars, Letter.char] <;> decide
  refine ⟨fun hc => ?_, hletter.2⟩
  rw [List.head?_append] at hc
  cases hd : (decimal width).head? with
  | none =>
    rw [hd, Option.none_or] at hc
    exact hletter.1 hc
  | some b =>
    rw [hd, Option.some_or] at hc
    obtain rfl := Option.some.inj hc
    obtain ⟨d, hpos, hlt, heq⟩ := decimal_head (Option.mem_def.mpr hd)
    have hall : ∀ d < 10, '*'.toUInt8 ≠ digitChar false d := by decide
    exact hall d hlt heq

theorem scanLibSpec_render (flags : List Flag) (width : Nat) (modifier : Modifier)
    (letter : Letter) (rest : List UInt8) :
    scanLibSpec (Item.tail flags width modifier letter ++ rest) =
      (⟨flagsOf flags, .lit (cInt width), none, modifier.length⟩, letter.char :: rest) := by
  have hassoc : Item.tail flags width modifier letter ++ rest =
      flags.map Flag.char ++ (decimal width ++ (modifier.chars ++ letter.char :: rest)) := by
    simp [Item.tail]
  obtain ⟨hstar, hpoint⟩ := no_star width modifier letter rest
  rw [hassoc, scanLibSpec, scanFlags_render flags _ (stops_width width modifier letter rest)]
  dsimp only
  rw [scanCount, if_neg hstar, scanNumber_decimal width (stops_letter modifier letter rest).2]
  dsimp only
  rw [scanPrecision, if_neg hpoint]
  dsimp only
  rw [scanLength_render]
  simp [flagsOf]

/-- `%%` is the only conversion that goes on with a percent sign. -/
theorem head_percent_iff (flags : List Flag) (width : Nat) (modifier : Modifier)
    (letter : Letter) (rest : List UInt8) :
    (Item.tail flags width modifier letter ++ rest).head? = some '%'.toUInt8 ↔
      Plain flags width modifier letter := by
  cases flags with
  | cons f flags => cases f <;> simp [Item.tail, Plain, Flag.char] <;> decide
  | nil =>
    cases hd : decimal width with
    | cons b ds =>
      obtain ⟨d, hpos, hlt, rfl⟩ := decimal_head (n := width) (c := b) (by rw [hd]; rfl)
      have hall : ∀ d < 10, digitChar false d ≠ '%'.toUInt8 := by decide
      have hwidth : width ≠ 0 := by
        rintro rfl
        simp [decimal] at hd
      simp [Item.tail, Plain, hd, hall d hlt, hwidth]
    | nil =>
      have hwidth : width = 0 := Nat.digits_eq_nil_iff_eq_zero.mp (by simpa [decimal] using hd)
      cases modifier <;> cases letter <;>
        simp [Item.tail, Plain, hwidth, Modifier.chars, Letter.char] <;> decide

theorem lib_pieces (items : List Item) :
    libScanner.pieces (render items) = items.map Item.libPiece := by
  apply libScanner.pieces_render
  intro item _ cs
  cases item with
  | text c h => exact libScanner.pieces_text h cs
  | conv flags width modifier letter =>
    have hscan := scanLibSpec_render flags width modifier letter cs
    have hpieces := libScanner.pieces_directive (Item.tail flags width modifier letter ++ cs)
    by_cases hplain : Plain flags width modifier letter
    · have hhead := (head_percent_iff flags width modifier letter cs).mpr hplain
      obtain ⟨rfl, rfl, rfl, rfl⟩ := hplain
      simp only [libScanner, if_pos hhead] at hpieces
      exact hpieces
    · have hhead := mt (head_percent_iff flags width modifier letter cs).mp hplain
      simp only [libScanner, if_neg hhead, hscan] at hpieces
      simp only [Item.libPiece, if_neg hplain]
      exact hpieces

end read

section fields

def Item.rest (args : List Arg) : Item → List Arg
  | .conv _ _ _ .percent => args
  | .conv _ _ _ _ => args.tail
  | .text _ _ => args

def Item.kernelText (args : List Arg) : Item → List UInt8
  | .text c _ => [c]
  | .conv flags width modifier letter =>
    convText ⟨flagsOf flags, cInt width, modifier.length⟩ (args.headD .none) letter.conv

def Item.libText (args : List Arg) : Item → List UInt8
  | .text c _ => [c]
  | .conv flags width modifier letter =>
    if Plain flags width modifier letter then ['%'.toUInt8]
    else
      let r : Resolved :=
        ⟨(flagsOf flags).left, (flagsOf flags).zero, cInt width, -1, modifier.length⟩
      (letter.libConv.map (libConvText r ⟨args, []⟩)).getD ['%'.toUInt8, '%'.toUInt8]

theorem full_render (items : List Item) (args : List Arg) :
    full (render items) args =
      (texts Item.kernelText Item.rest args items).flatten := by
  rw [full_eq, kernel_pieces]
  congr 1
  induction items generalizing args with
  | nil => rfl
  | cons item items ih =>
    rw [List.map_cons, texts_cons, texts_cons, ← ih]
    cases item with
    | text c h => rfl
    | conv flags width modifier letter =>
      simp only [Item.kernelPiece, snText, restArgs, conv_letter, Option.map_some, Option.getD_some]
      cases letter <;> rfl

theorem libItem_fits (args : VaList) (item : Item) : PieceFits args item.libPiece := by
  cases item with
  | text c h => trivial
  | conv flags width modifier letter =>
    simp only [Item.libPiece]
    split_ifs
    · trivial
    · intro k hk
      rw [libConv_letter] at hk
      cases letter <;> cases hk <;> trivial

theorem libRest_item (words : List Arg) (doubles : List Double) (item : Item) :
    libRest ⟨words, doubles⟩ item.libPiece = ⟨item.rest words, doubles⟩ := by
  cases item with
  | text c h => rfl
  | conv flags width modifier letter =>
    simp only [Item.libPiece]
    split_ifs with hplain
    · obtain ⟨rfl, -⟩ := hplain
      rfl
    · simp only [libRest, libConv_letter]
      cases letter <;> rfl

theorem libText_item (words : List Arg) (doubles : List Double) (item : Item) :
    libText ⟨words, doubles⟩ item.libPiece = item.libText words := by
  cases item with
  | text c h => rfl
  | conv flags width modifier letter =>
    simp only [Item.libPiece, Item.libText]
    split_ifs
    · rfl
    · simp only [libText, libConv_letter]
      cases letter <;> rfl

theorem formatFits_render (items : List Item) (args : VaList) : FormatFits (render items) args := by
  rw [FormatFits, lib_pieces]
  induction items generalizing args with
  | nil => trivial
  | cons item items ih => exact ⟨libItem_fits args item, ih _⟩

theorem libWhole_render (items : List Item) (words : List Arg) (doubles : List Double) :
    libWhole (render items) ⟨words, doubles⟩ =
      (texts Item.libText Item.rest words items).flatten := by
  rw [libWhole, lib_pieces]
  congr 1
  induction items generalizing words with
  | nil => rfl
  | cons item items ih =>
    rw [List.map_cons, texts_cons, texts_cons, libText_item, libRest_item, ih]

theorem libFull_render (items : List Item) (words : List Arg) (doubles : List Double) :
    libFull (render items) ⟨words, doubles⟩ =
      some (texts Item.libText Item.rest words items).flatten := by
  rw [libFull_eq _ _ (formatFits_render items _), libWhole_render]

end fields

end LosTacOS.Printf
