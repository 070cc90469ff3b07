import LosTacOS.Lib.Codewords
import LosTacOS.Gzip.Huffman

/-! `decode_symbol` and the words that the format gives to the symbols. -/
namespace LosTacOS.Gzip

open BitStream Canonical

variable {lengths : List UInt8} {src : Input} {s : State} {c i l : Nat}

structure HasWord (lengths : List UInt8) (i l : Nat) : Prop where
  lt : i < lengths.length
  width : (widths lengths).getD i 0 = l
  pos : l ≠ 0

theorem hasWord_iff {w : UInt8} (hw : lengths[i]? = some w) : HasWord lengths i w.toNat ↔ w ≠ 0 := by
  obtain ⟨hlt, hget⟩ := List.getElem?_eq_some_iff.mp hw
  have hwidth : (widths lengths).getD i 0 = w.toNat := by
    rw [widths, List.getD_eq_getElem?_getD, List.getElem?_map, hw]
    rfl
  constructor
  · rintro h rfl
    exact h.pos rfl
  · intro h0
    exact ⟨hlt, hwidth, fun h => h0 (UInt8.toNat_inj.mp h)⟩

theorem HasWord.le (h : HasWord lengths i l) (hlow : ∀ x ∈ lengths, x.toNat < 16) : l ≤ 15 := by
  have hmem : l ∈ widths lengths := by
    have hlt := h.lt
    rw [← widths_length] at hlt
    rw [← h.width, List.getD_eq_getElem?_getD, List.getElem?_eq_getElem hlt]
    exact List.getElem_mem hlt
  obtain ⟨x, hx, rfl⟩ := List.mem_map.mp hmem
  exact Nat.le_of_lt_succ (hlow x hx)

/-- Code lengths of at most 288 symbols that are not over-subscribed give tables that read the
canonical code: bits that start with the word of a symbol are read as the symbol and no further than
its word, and -1 is the answer to bits that start with no word. -/
theorem decodeSymbol_canonical (hlow : ∀ x ∈ lengths, x.toNat < 16) (hroom : lengths.length ≤ 288)
    (hfits : Fits 15 (widths lengths)) (hat : At src s c) :
    (∀ i w, lengths[i]? = some w → w ≠ 0 →
      Begins (bitsOf src) c (codeword (widths lengths) i) →
        ∃ s', decodeSymbol src (buildHuffman lengths).1 s = ((i : Int), s') ∧
          At src s' (c + w.toNat)) ∧
    ((∀ i w, lengths[i]? = some w → w ≠ 0 →
      ¬ Begins (bitsOf src) c (codeword (widths lengths) i)) →
        (decodeSymbol src (buildHuffman lengths).1 s).1 = -1) := by
  have hholds := (buildHuffman_holds hlow hroom).2
  have hdecoded := hholds.decodeSymbol hat
  constructor
  · intro i w hw h0 hbegins
    have hword := (hasWord_iff hw).mpr h0
    have hlt : i < (widths lengths).length := by
      rw [widths_length]
      exact hword.lt
    have hle := hword.le hlow
    have hd := (hfits.decodes hlt hword.width hword.pos hle hbegins).decode hle
    generalize decodeSymbol src (buildHuffman lengths).1 s = x at hdecoded
    cases hdecoded with
    | symbol hd' hat' =>
      rw [hd] at hd'
      cases hd'
      exact ⟨_, rfl, hat'⟩
    | unknown hno =>
      rw [hd] at hno
      cases hno
  · intro hnone
    generalize decodeSymbol src (buildHuffman lengths).1 s = x at hdecoded
    cases hdecoded with
    | symbol hd hat' =>
      have hsome : ∃ l ≤ 15, Hits (widths lengths) (bitsOf src) c l := by
        by_contra hno
        rw [decode_none fun m hm hhits => hno ⟨m, hm, hhits⟩] at hd
        cases hd
      obtain ⟨l, hle, hhits⟩ := hsome
      obtain ⟨j, hj, hwidth, hbegins⟩ := hfits.begins_of_hits hle hhits
      rw [widths_length] at hj
      have hget := List.getElem?_eq_getElem hj
      have hl : lengths[j].toNat = l := by
        rw [← hwidth, widths, List.getD_eq_getElem?_getD, List.getElem?_map, hget]
        rfl
      refine absurd hbegins (hnone j lengths[j] hget fun h0 => hhits.pos ?_)
      rw [← hl, h0]
      rfl
    | unknown => rfl

/-- Words 0, 10 and 11, and a byte with the bits 1, 1, 0 and zeros. -/
theorem decodeSymbol_canonical_three :
    ∃ s', decodeSymbol ⟨fun _ => 3, 1, 1, 0⟩ (buildHuffman [2, 1, 2]).1 ⟨0, 0, 0, [], false, false⟩ =
      (2, s') ∧ At ⟨fun _ => 3, 1, 1, 0⟩ s' 2 := by
  have hat : At ⟨fun _ => 3, 1, 1, 0⟩ ⟨0, 0, 0, [], false, false⟩ 0 :=
    ⟨by decide, 0, rfl, fun h => absurd h (Nat.lt_irrefl 0), Nat.zero_le _, rfl⟩
  have hfits : Fits 15 (widths [2, 1, 2]) := by
    unfold Fits
    decide
  have hread := @decodeSymbol_canonical [2, 1, 2] _ _ _ (by simp) (by decide) hfits hat
  have hbegins : Begins (bitsOf ⟨fun _ => 3, 1, 1, 0⟩) 0 (codeword (widths [2, 1, 2]) 2) := by
    unfold Begins
    decide
  exact hread.1 2 2 rfl (by decide) hbegins

end LosTacOS.Gzip
