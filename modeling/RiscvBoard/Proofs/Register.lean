import RiscvBoard.Proofs.Instruction.Spelling
import RiscvBoard.Proofs.Text.Reading

/-!
# What is read as a register

The spellings of a register are its number behind the letter x, its name, and for
register 8 a second name. Each is read as its own register, with blanks around it or
none, and nothing else is read. No name begins with an x, so a number that is too
large does not stand for a name.
-/

namespace RiscvBoard.Register

variable {text other : List Char} {n : Nat}

theorem read?_trim (text : List Char) : read? (Text.trim text) = read? text := by
  obtain ⟨-, -, -, -, -, htight⟩ := Text.pads_trim text
  rw [read?, Text.trim_of_tight htight, ← read?]

theorem read?_of_lower (h : Text.lower text = other) : read? text = read? other := by
  rw [← h]
  exact (read?_map Text.keepsLetters_toLower text).symm

-- ---------------------------------------------------------------------------
-- Spellings are read
-- ---------------------------------------------------------------------------

theorem read?_name (h : n < 32) : read? (name n).toList = some n := by
  have hall : ∀ n < 32, read? (name n).toList = some n := by decide +kernel
  exact hall n h

theorem read?_of_spelled (hn : n < 32) (h : Spelled n text) : read? text = some n := by
  have htrim : Text.trim text = text := Text.trim_of_tight (Operand.Spelled.register h).tight
  cases h with
  | number hmark h =>
    unfold read?
    rw [htrim]
    dsimp only
    rw [if_pos ⟨hmark, Numeral.row_ne_nil h, List.all_eq_true.mpr (Numeral.isDigit_of_row h)⟩]
    exact Numeral.magnitude?_of_row (by decide) (by decide) h hn
  | name h => rw [read?_of_lower h, read?_name hn]
  | frame h =>
    rw [read?_of_lower h]
    decide

-- ---------------------------------------------------------------------------
-- What is read is a spelling
-- ---------------------------------------------------------------------------

theorem spelled_of_ofName? (h : ofName? text = some n) : n < 32 ∧ Spelled n text := by
  unfold ofName? at h
  dsimp only at h
  split at h
  · rename_i hframe
    cases h
    exact ⟨by decide, .frame hframe⟩
  · obtain ⟨hindex, hname, -⟩ := List.findIdx?_eq_some_iff_getElem.mp h
    have hlt : n < 32 := hindex
    have hlower : Text.lower text = (name n).toList := by
      simp only [name, Nat.mod_eq_of_lt hlt]
      exact (of_decide_eq_true hname).symm
    exact ⟨hlt, .name hlower⟩

theorem spelled_of_read? (h : read? text = some n) : n < 32 ∧ Spelled n (Text.trim text) := by
  unfold read? at h
  split at h
  · cases h
  · rename_i htrim
    rw [htrim]
    split at h
    · rename_i hdigits
      obtain ⟨hrow, hlt⟩ := (Numeral.magnitude?_eq_some_iff (by decide) (by decide)).mp h
      exact ⟨hlt, .number hdigits.1 hrow⟩
    · exact spelled_of_ofName? h

theorem read?_eq_some_iff : read? text = some n ↔ n < 32 ∧ Spelled n (Text.trim text) := by
  constructor
  · exact spelled_of_read?
  · rintro ⟨hn, h⟩
    rw [← read?_trim]
    exact read?_of_spelled hn h

/-- A text is read as a register exactly if it spells that register, no text spells two of them, and
each is read from its name. -/
theorem read?_exact :
    (∀ text n, read? text = some n ↔ n < 32 ∧ Spelled n (Text.trim text)) ∧
    (∀ text m n, m < 32 → n < 32 → Spelled m text → Spelled n text → m = n) ∧
    ∀ number, read? (name number).toList = some (number % 32) := by
  refine ⟨fun _ _ => read?_eq_some_iff, fun text m n hm hn hfirst hsecond => ?_, fun number => ?_⟩
  · have hread := read?_of_spelled hm hfirst
    rw [read?_of_spelled hn hsecond] at hread
    exact (Option.some.inj hread).symm
  · have hname : name number = name (number % 32) := by simp only [name, Nat.mod_mod]
    rw [hname, read?_name (mod_lt number)]

theorem read?_exact_padded :
    read? "\tX0000031 ".toList = some 31 ∧ read? "\u00a0Fp".toList = some 8 ∧
      read? "x0256".toList = none ∧ ¬Spelled 0 "x0256".toList := by
  have hrow : Numeral.Row 10 31 "0000031".toList := ⟨7, by decide, by decide, by decide⟩
  have hlarge : read? "x0256".toList = none := rfl
  refine ⟨(read?_exact.1 _ _).mpr ⟨by decide, .number (.inr rfl) hrow⟩,
    (read?_exact.1 _ _).mpr ⟨by decide, .frame (by decide)⟩, hlarge, fun h => ?_⟩
  have hread := (read?_exact.1 "x0256".toList 0).mpr ⟨by decide, h⟩
  rw [hlarge] at hread
  cases hread

end RiscvBoard.Register
