import RiscvBoard.Command.Disassemble
import RiscvBoard.Command.Run
import RiscvBoard.Proofs.Text.BitString
import RiscvBoard.Proofs.Text.Reading

/-!
# Words on the command line

A word is written as its row of bits, in hexadecimal or in decimal, and a text says by
itself which of these it is: behind a zero a row of bits has no x, and no decimal number
that fits a word is as long as a row. All commands read the same numbers.
-/

namespace RiscvBoard.Command

open Numeral (IsWord)

/-- A word as a number: its digits in base sixteen behind the mark, with zeros in front and letters
in either case, or its decimal digits. -/
inductive IsRendering (w : Word) : List Char → Prop
  | hex {mark : Char} {digits : List Char} (hmark : mark = 'x' ∨ mark = 'X')
      (h : Numeral.Row 16 w.toNat digits) :
      IsRendering w ('0' :: mark :: digits)
  | decimal : IsRendering w (Nat.toDigits 10 w.toNat)

variable {text : List Char} {w : Word}

-- ---------------------------------------------------------------------------
-- Renderings
-- ---------------------------------------------------------------------------

theorem IsRendering.unsigned (h : IsRendering w text) : Numeral.Unsigned w.toNat text := by
  cases h with
  | hex hmark h => exact .hex hmark h
  | decimal => exact .decimal (Numeral.row_toDigits _)

theorem IsRendering.not_bits (h : IsRendering w text) : BitString.word? text = none := by
  rw [BitString.word?_eq_none_iff]
  rintro ⟨hlength, hbits⟩
  cases h with
  | @hex mark digits hmark =>
    have hbit := hbits mark (List.mem_cons_of_mem _ List.mem_cons_self)
    obtain rfl | rfl := hmark <;> exact absurd hbit (by decide)
  | decimal =>
    have hten : (Nat.toDigits 10 w.toNat).length ≤ 10 :=
      (Nat.length_toDigits_le_iff (by decide) (by decide)).mpr (Nat.lt_trans w.isLt (by decide))
    omega

-- ---------------------------------------------------------------------------
-- Numbers and words
-- ---------------------------------------------------------------------------

namespace Disassemble

theorem word?_eq_some_iff {text : String} :
    word? text = some w ↔ IsWord w (Text.trim text.toList) := by
  rw [word?, toOption_eq_some, Numeral.word_eq_ok_iff]

theorem readWord_of_row (h : Text.trim text = BitString.ofWord w) : readWord text = .ok w := by
  rw [readWord, h, BitString.word?_ofWord]

theorem readWord_of_not_bits (h : BitString.word? (Text.trim text) = none) :
    readWord text = Numeral.word text := by
  rw [readWord, h]

theorem readWord_eq_ok_iff : readWord text = .ok w ↔ Text.trim text = BitString.ofWord w ∨
    BitString.word? (Text.trim text) = none ∧ IsWord w (Text.trim text) := by
  cases hbits : BitString.word? (Text.trim text) with
  | none =>
    have hrow : Text.trim text ≠ BitString.ofWord w := fun h => by
      rw [BitString.word?_eq_some_iff.mpr h] at hbits
      cases hbits
    rw [readWord_of_not_bits hbits, Numeral.word_eq_ok_iff]
    simp only [hrow, true_and, false_or]
  | some v =>
    rw [readWord_of_row (BitString.word?_eq_some_iff.mp hbits), ← BitString.word?_eq_some_iff,
      hbits]
    simp only [Except.ok.injEq, Option.some.injEq, reduceCtorEq, false_and, or_false]

end Disassemble

theorem toOption_number (text : String) : (Run.number text).toOption = Disassemble.word? text := by
  rw [Run.number, Disassemble.word?]
  cases Numeral.word text.toList <;> rfl

/-- Each way to write a word is read as that word, and numbers are read alike by the commands that
take them. -/
theorem words_read :
    (∀ w lead text trail, lead.all Text.isBlank = true → trail.all Text.isBlank = true →
      text = BitString.ofWord w ∨ IsRendering w text →
        Disassemble.readWord (lead ++ (text ++ trail)) = .ok w) ∧
    (∀ w text, IsRendering w text → BitString.word? text = none) ∧
    (∀ text w, Disassemble.readWord text = .ok w ↔ Text.trim text = BitString.ofWord w ∨
      BitString.word? (Text.trim text) = none ∧ IsWord w (Text.trim text)) ∧
    (∀ text : String, (Run.number text).toOption = Disassemble.word? text ∧
      Run.word? text = Disassemble.word? text) ∧
    ∀ (text : String) w, Disassemble.word? text = some w ↔ IsWord w (Text.trim text.toList) := by
  refine ⟨fun w lead text trail hlead htrail h => ?_, fun w text => IsRendering.not_bits,
    fun _ _ => Disassemble.readWord_eq_ok_iff, fun text => ⟨toOption_number text, rfl⟩,
    fun _ _ => Disassemble.word?_eq_some_iff⟩
  rcases h with hrow | h
  · refine Disassemble.readWord_of_row ?_
    rw [Text.trim_between hlead htrail, hrow,
      Text.trim_of_isAlphanum (BitString.isAlphanum_ofWord w)]
  · refine Disassemble.readWord_eq_ok_iff.mpr (.inr ?_)
    rw [Text.trim_between hlead htrail,
      Text.trim_of_isAlphanum (Numeral.isAlphanum_of_unsigned h.unsigned)]
    exact ⟨h.not_bits, Numeral.isWord_of_unsigned h.unsigned⟩

theorem words_read_padded : Disassemble.readWord "\t0x0000DEADbeef ".toList = .ok 0xDEADBEEF ∧
    Disassemble.readWord "4294967295".toList = .ok 0xFFFFFFFF ∧
      BitString.word? "1111111111".toList = none ∧
    Disassemble.readWord "00000000000000000000000000000101".toList = .ok 5 := by
  obtain ⟨hread, hrendering, -, -, -⟩ := words_read
  have hrow : Numeral.Row 16 (0xDEADBEEF : Word).toNat "0000DEADbeef".toList :=
    ⟨12, by decide, by decide, by decide⟩
  exact ⟨hread _ ['\t'] _ [' '] (by decide) (by decide) (.inr (.hex (.inl rfl) hrow)),
    hread 0xFFFFFFFF [] _ [] (by decide) (by decide) (.inr .decimal),
    hrendering 0x423A35C7 _ .decimal,
    hread 5 [] _ [] (by decide) (by decide) (.inl rfl)⟩

end RiscvBoard.Command
