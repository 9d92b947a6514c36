import RiscvBoard.Text.Numeral
import RiscvBoard.Proofs.Text.Blank

/-!
# The characters of printed numbers

A printed number is made of digits, with a minus sign in front if it is negative.
A decimal number has no letters, so nothing in it marks another base.
-/

namespace RiscvBoard

namespace Text

theorem isAlpha_iff {c : Char} :
    c.isAlpha = true ↔ 'A'.val ≤ c.val ∧ c.val ≤ 'Z'.val ∨ 'a'.val ≤ c.val ∧ c.val ≤ 'z'.val := by
  have hletter : c.isAlpha = (decide ('A'.val ≤ c.val ∧ c.val ≤ 'Z'.val) ||
      (decide ('a'.val ≤ c.val) && decide (c.val ≤ 'z'.val))) := rfl
  simp only [hletter, Bool.or_eq_true, Bool.and_eq_true, decide_eq_true_eq]

theorem isBlank_of_isAlphanum {c : Char} (h : c.isAlphanum = true) : isBlank c = false := by
  simp only [Char.isAlphanum, Char.isDigit, Bool.or_eq_true, isAlpha_iff, Bool.and_eq_true,
    decide_eq_true_eq, UInt32.le_iff_toNat_le, ge_iff_le] at h
  have hends : 'A'.val.toNat = 65 ∧ 'Z'.val.toNat = 90 ∧ 'a'.val.toNat = 97 ∧ 'z'.val.toNat = 122 ∧
      '0'.val.toNat = 48 ∧ '9'.val.toNat = 57 := by decide
  simp only [isBlank, blankRanges, List.any_cons, List.any_nil, Bool.or_false, Bool.or_eq_false_iff,
    Bool.and_eq_false_iff, decide_eq_false_iff_not, Char.toNat]
  omega

theorem trim_of_isAlphanum {text : List Char} (h : ∀ c ∈ text, c.isAlphanum = true) :
    trim text = text :=
  trim_of_tight (tight_of_forall fun c hc => isBlank_of_isAlphanum (h c hc))

end Text

namespace Numeral

-- ---------------------------------------------------------------------------
-- Decimal digits
-- ---------------------------------------------------------------------------

theorem digit?_of_not_isDigit {c : Char} (h : c.isDigit = false) : digit? 10 c = none := by
  have hrange : ¬('0' ≤ c ∧ c ≤ '9') := by simpa [Char.isDigit, Char.le_def] using h
  unfold digit?
  rw [if_neg hrange]
  -- the letters have values from ten on
  split
  · simp
  · split
    · simp
    · rfl

theorem isDigit_of_mem_toDigits {n : Nat} {c : Char} (h : c ∈ Nat.toDigits 10 n) :
    c.isDigit = true :=
  Nat.isDigit_of_mem_toDigits (by decide) (by decide) h

theorem isDigit_of_mem_fixed {base count n : Nat} {c : Char} (hb : 0 < base) (hten : base ≤ 10)
    (h : c ∈ fixed base count n) : c.isDigit = true := by
  induction count generalizing n with
  | zero => cases h
  | succ count ih =>
    obtain h | h := List.mem_append.mp h
    · exact ih h
    · rw [List.mem_singleton.mp h, Nat.isDigit_digitChar, decide_eq_true_eq]
      exact Nat.lt_of_lt_of_le (Nat.mod_lt n hb) hten

-- ---------------------------------------------------------------------------
-- The mark of base sixteen
-- ---------------------------------------------------------------------------

theorem hexPart?_eq_some_iff {text rest : List Char} :
    hexPart? text = some rest ↔ ∃ mark, text = '0' :: mark :: rest ∧ (mark = 'x' ∨ mark = 'X') := by
  constructor
  · intro h
    unfold hexPart? at h
    split at h <;> cases h
    · exact ⟨'x', rfl, .inl rfl⟩
    · exact ⟨'X', rfl, .inr rfl⟩
  · rintro ⟨mark, rfl, rfl | rfl⟩ <;> rfl

theorem hexPart?_of_forall_isDigit {text : List Char} (h : ∀ c ∈ text, c.isDigit = true) :
    hexPart? text = none := by
  refine Option.eq_none_iff_forall_ne_some.mpr fun rest hpart => ?_
  obtain ⟨mark, rfl, hmark⟩ := hexPart?_eq_some_iff.mp hpart
  have hdigit := h mark (List.mem_cons_of_mem '0' List.mem_cons_self)
  obtain rfl | rfl := hmark <;> exact absurd hdigit (by decide)

-- ---------------------------------------------------------------------------
-- Decimal numbers
-- ---------------------------------------------------------------------------

theorem toList_toString (value : Int) :
    (toString value).toList =
      if 0 ≤ value then Nat.toDigits 10 value.toNat else '-' :: Nat.toDigits 10 (-value).toNat := by
  rw [Int.toString_eq_repr, Int.repr_eq_if]
  split
  · exact Nat.toList_repr
  · rw [String.toList_append, Nat.toList_repr]
    rfl

theorem isDigit_or_eq_of_mem_toString {value : Int} {c : Char} (h : c ∈ (toString value).toList) :
    c.isDigit = true ∨ c = '-' := by
  rw [toList_toString] at h
  split at h
  · exact .inl (isDigit_of_mem_toDigits h)
  · obtain rfl | h := List.mem_cons.mp h
    · exact .inr rfl
    · exact .inl (isDigit_of_mem_toDigits h)

theorem toString_ne_nil (value : Int) : (toString value).toList ≠ [] := by
  rw [toList_toString]
  split
  · exact Nat.toDigits_ne_nil
  · exact List.cons_ne_nil _ _

end Numeral

end RiscvBoard
