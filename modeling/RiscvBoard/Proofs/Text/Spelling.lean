import Mathlib.Data.List.Forall2
import RiscvBoard.Proofs.Text.Case
import RiscvBoard.Proofs.Text.Digits

/-!
# Spellings of numbers

A number can be written in many ways: in decimal or in hexadecimal, with zeros in
front of its digits, with letters in either case, with a sign that it does not
need. Every way is read as the number, as long as the number itself fits. Gaps of
spaces and tabs may stand around it, which trimming takes away.
-/

namespace RiscvBoard

namespace Text

variable {inner text : List Char}

def Gap (text : List Char) : Prop := ∀ c ∈ text, c = ' ' ∨ c = '\t'

instance (text : List Char) : Decidable (Gap text) :=
  List.decidableBAll (fun c => c = ' ' ∨ c = '\t') text

def Amid (inner text : List Char) : Prop :=
  ∃ lead trail, text = lead ++ (inner ++ trail) ∧ Gap lead ∧ Gap trail

theorem Gap.all_isBlank (h : Gap text) : text.all isBlank = true := by
  refine List.all_eq_true.mpr fun c hc => ?_
  obtain rfl | rfl := h c hc <;> decide

theorem Amid.trim (h : Amid inner text) (hinner : Tight inner) : trim text = inner := by
  obtain ⟨lead, trail, rfl, hlead, htrail⟩ := h
  exact trim_of_pads ⟨lead, trail, rfl, hlead.all_isBlank, htrail.all_isBlank, hinner⟩

theorem gap_nil : Gap [] := nofun

theorem amid_self (text : List Char) : Amid text text :=
  ⟨[], [], by rw [List.nil_append, List.append_nil], gap_nil, gap_nil⟩

theorem intercalate_cons_head (separator : List Char) (c : Char) (text : List Char)
    (texts : List (List Char)) :
    separator.intercalate ((c :: text) :: texts) = c :: separator.intercalate (text :: texts) := by
  cases texts with
  | nil => rw [List.intercalate_singleton, List.intercalate_singleton]
  | cons next others =>
    rw [List.intercalate_cons_cons, List.intercalate_cons_cons, List.cons_append, List.cons_append]

theorem intercalate_blank (text : List Char) (texts : List (List Char)) :
    [',', ' '].intercalate (text :: texts) = [','].intercalate (text :: texts.map (' ' :: ·)) := by
  induction texts generalizing text with
  | nil => rw [List.map_nil, List.intercalate_singleton, List.intercalate_singleton]
  | cons next others ih =>
    rw [List.intercalate_cons_cons, ih, List.map_cons, List.intercalate_cons_cons,
      intercalate_cons_head]
    simp only [List.append_assoc, List.cons_append, List.nil_append]

theorem exists_amid_intercalate (texts : List (List Char)) : ∃ pieces,
    [',', ' '].intercalate texts = [','].intercalate pieces ∧ List.Forall₂ Amid texts pieces := by
  cases texts with
  | nil => exact ⟨[], rfl, .nil⟩
  | cons text texts =>
    refine ⟨_, intercalate_blank text texts, .cons (amid_self text) ?_⟩
    refine List.forall₂_map_right_iff.mpr (List.forall₂_same.mpr fun other _ => ?_)
    exact ⟨[' '], [], by rw [List.append_nil]; rfl, by decide, gap_nil⟩

end Text

namespace Numeral

/-- The digits of `n`, letters in either case, with any number of zeros in front. -/
def Row (base n : Nat) (text : List Char) : Prop :=
  ∃ count > 0, n < base ^ count ∧ Text.lower text = fixed base count n

inductive Unsigned (n : Nat) : List Char → Prop
  | decimal {text : List Char} (h : Row 10 n text) : Unsigned n text
  | hex {mark : Char} {text : List Char} (hmark : mark = 'x' ∨ mark = 'X') (h : Row 16 n text) :
      Unsigned n ('0' :: mark :: text)

/-- An integer with its sign. Zero may have either sign. -/
inductive Signed : Int → List Char → Prop
  | plain {n : Nat} {text : List Char} (h : Unsigned n text) : Signed n text
  | plus {n : Nat} {text : List Char} (h : Unsigned n text) : Signed n ('+' :: text)
  | minus {n : Nat} {text : List Char} (h : Unsigned n text) : Signed (-n) ('-' :: text)

variable {base limit n : Nat} {value : Int} {text : List Char}

-- ---------------------------------------------------------------------------
-- Rows of digits
-- ---------------------------------------------------------------------------

theorem magnitude?_of_row (hpos : 0 < base) (hbase : base ≤ 16) (h : Row base n text)
    (hn : n < limit) : magnitude? base limit text = some n := by
  obtain ⟨count, hcount, hvalue, htext⟩ := h
  have hsome : ¬(fixed base count n).isEmpty = true := by
    rw [List.isEmpty_iff_length_eq_zero, length_fixed]
    omega
  have hread : base ^ count * 0 + n % base ^ count = n := by
    rw [Nat.mul_zero, Nat.zero_add, Nat.mod_eq_of_lt hvalue]
  have hdigits : digits base limit 0 (fixed base count n) =
      .ok (base ^ count * 0 + n % base ^ count) :=
    digits_fixed hpos hbase (hread.symm ▸ hn)
  rw [← magnitude?_map Text.keepsLetters_toLower]
  change magnitude? base limit (Text.lower text) = some n
  rw [htext, magnitude?, if_neg hsome, hdigits, hread]
  rfl

theorem isAlphanum_of_row (hpos : 0 < base) (hbase : base ≤ 16) (h : Row base n text) :
    ∀ c ∈ text, c.isAlphanum = true :=
  isAlphanum_of_magnitude? (magnitude?_of_row hpos hbase h (Nat.lt_succ_self n))

theorem lt_of_row (h : Row base n text) : 0 < text.length ∧ n < base ^ text.length := by
  obtain ⟨count, hcount, hvalue, htext⟩ := h
  have hlength := congrArg List.length htext
  simp only [Text.lower, List.length_map, length_fixed] at hlength
  rw [hlength]
  exact ⟨hcount, hvalue⟩

theorem row_ne_nil (h : Row base n text) : text ≠ [] := List.ne_nil_of_length_pos (lt_of_row h).1

theorem isDigit_of_row (h : Row 10 n text) : ∀ c ∈ text, c.isDigit = true := by
  obtain ⟨count, -, -, htext⟩ := h
  intro c hc
  have hmem : c.toLower ∈ fixed 10 count n := by
    rw [← htext]
    exact List.mem_map_of_mem hc
  rw [← Text.isDigit_toLower]
  exact isDigit_of_mem_fixed (by decide) (by decide) hmem

theorem lower_digitChar {d : Nat} (h : d < 16) :
    Text.lower [Nat.digitChar d] = [Nat.digitChar d] := by
  have hall : ∀ d < 16, Text.lower [Nat.digitChar d] = [Nat.digitChar d] := by decide
  exact hall d h

theorem row_toDigits (n : Nat) : Row 10 n (Nat.toDigits 10 n) := by
  induction n using Nat.strongRecOn with
  | ind n ih =>
    have hdigit := lower_digitChar (Nat.lt_trans (Nat.mod_lt n (by decide : 10 > 0)) (by decide))
    by_cases hn : n < 10
    · rw [Nat.mod_eq_of_lt hn] at hdigit
      refine ⟨1, Nat.one_pos, by omega, ?_⟩
      rw [Nat.toDigits_of_lt_base hn, fixed, fixed, Nat.mod_eq_of_lt hn, hdigit]
      rfl
    · obtain ⟨count, hcount, hlt, htext⟩ := ih (n / 10) (by omega)
      refine ⟨count + 1, Nat.succ_pos count, by omega, ?_⟩
      rw [Nat.toDigits_of_base_le (by decide) (by omega), fixed, ← htext]
      exact List.map_append.trans (congrArg (_ ++ ·) hdigit)

-- ---------------------------------------------------------------------------
-- Numbers without a sign
-- ---------------------------------------------------------------------------

theorem isAlphanum_of_unsigned (h : Unsigned n text) : ∀ c ∈ text, c.isAlphanum = true := by
  cases h with
  | decimal h => exact isAlphanum_of_row (by decide) (by decide) h
  | hex hmark h =>
    have hletter : ∀ mark : Char, mark = 'x' ∨ mark = 'X' → mark.isAlphanum = true := by
      rintro mark (rfl | rfl) <;> rfl
    exact List.forall_mem_cons.mpr ⟨rfl, List.forall_mem_cons.mpr
      ⟨hletter _ hmark, isAlphanum_of_row (by decide) (by decide) h⟩⟩

theorem unsigned_ne_nil (h : Unsigned n text) : text ≠ [] := by
  cases h with
  | decimal h => exact row_ne_nil h
  | hex => exact List.cons_ne_nil _ _

theorem ne_cons_of_isAlphanum (h : ∀ c ∈ text, c.isAlphanum = true) {sign : Char}
    (hsign : sign.isAlphanum = false) (rest : List Char) : text ≠ sign :: rest := by
  rintro rfl
  exact absurd (h sign List.mem_cons_self) (Bool.eq_false_iff.mp hsign)

theorem long?_of_row (hpos : 0 < base) (hbase : base ≤ 16) (h : Row base n text) (hn : n < 2 ^ 63) :
    long? base text = some (n : Int) := by
  have hsign := isAlphanum_of_row hpos hbase h
  rw [long?.eq_3 base text (ne_cons_of_isAlphanum hsign (by decide))
    (ne_cons_of_isAlphanum hsign (by decide)), magnitude?_of_row hpos hbase h (by omega)]
  rfl

theorem unsignedImmediate?_of_unsigned (h : Unsigned n text) (hn : n < 2 ^ 63) :
    unsignedImmediate? text = some (n : Int) := by
  unfold unsignedImmediate?
  cases h with
  | decimal h =>
    rw [hexPart?_of_forall_isDigit (isDigit_of_row h)]
    dsimp only
    rw [magnitude?_of_row (by decide) (by decide) h (by omega)]
    rfl
  | hex hmark h =>
    rw [hexPart?_eq_some_iff.mpr ⟨_, rfl, hmark⟩]
    exact long?_of_row (by decide) (by decide) h hn

-- ---------------------------------------------------------------------------
-- Numbers with a sign
-- ---------------------------------------------------------------------------

theorem negate_of_lt (hlow : -2 ^ 63 < value) (hhigh : value < 2 ^ 63) : negate value = -value :=
  Int.bmod_eq_of_le_mul_two (by omega) (by omega)

theorem negate_lowest : negate (-2 ^ 63) = -2 ^ 63 := by decide

theorem isNumeric_of_signed (h : Signed value text) : ∀ c ∈ text, isNumeric c = true := by
  cases h with
  | plain h => exact isNumeric_of_isAlphanum (isAlphanum_of_unsigned h)
  | plus h | minus h =>
    exact List.forall_mem_cons.mpr ⟨rfl, isNumeric_of_isAlphanum (isAlphanum_of_unsigned h)⟩

theorem signed_ne_nil (h : Signed value text) : text ≠ [] := by
  cases h with
  | plain h => exact unsigned_ne_nil h
  | plus | minus => exact List.cons_ne_nil _ _

theorem signed_toString (value : Int) : Signed value (toString value).toList := by
  rw [toList_toString]
  split
  · rename_i hs
    have h : Signed value.toNat (Nat.toDigits 10 value.toNat) := .plain (.decimal (row_toDigits _))
    rwa [Int.toNat_of_nonneg hs] at h
  · have h : Signed (-((-value).toNat : Int)) ('-' :: Nat.toDigits 10 (-value).toNat) :=
      .minus (.decimal (row_toDigits _))
    rwa [Int.toNat_of_nonneg (by omega), Int.neg_neg] at h

theorem isBlank_of_isNumeric {c : Char} (h : isNumeric c = true) : Text.isBlank c = false := by
  simp only [isNumeric, Bool.or_eq_true, beq_iff_eq] at h
  obtain (h | rfl) | rfl := h
  · exact Text.isBlank_of_isAlphanum h
  · decide
  · decide

theorem immediate?_of_signed (h : Signed value text) (hvalue : value.natAbs < 2 ^ 63) :
    immediate? text = some value := by
  have htrim : Text.trim text = text :=
    Text.trim_of_tight (Text.tight_of_forall fun c hc =>
      isBlank_of_isNumeric (isNumeric_of_signed h c hc))
  unfold immediate?
  rw [htrim]
  cases h with
  | plain h =>
    have hsign := isAlphanum_of_unsigned h
    split
    · exact absurd rfl (ne_cons_of_isAlphanum hsign (by decide) _)
    · exact absurd rfl (ne_cons_of_isAlphanum hsign (by decide) _)
    · exact unsignedImmediate?_of_unsigned h (by omega)
  | plus h => exact unsignedImmediate?_of_unsigned h (by omega)
  | minus h =>
    change (unsignedImmediate? _).map negate = _
    rw [unsignedImmediate?_of_unsigned h (by omega), Option.map_some,
      negate_of_lt (by omega) (by omega)]

end Numeral

end RiscvBoard
