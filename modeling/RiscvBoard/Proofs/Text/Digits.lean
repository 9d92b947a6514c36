import Mathlib.Algebra.Group.Int.Defs
import Mathlib.Algebra.Group.Nat.Defs
import RiscvBoard.Proofs.Text.Numeral

/-!
# Rows of digits

`fixed` prints the lowest digits of a number, and reading them gives the number
back, in each base up to sixteen. A text that is read as a number has no
characters but digits and, in front of them, signs and the marks of the base.
-/

namespace RiscvBoard

namespace Numeral

variable {base limit read count n d : Nat} {c : Char} {text rest : List Char}

-- ---------------------------------------------------------------------------
-- Printed rows
-- ---------------------------------------------------------------------------

theorem digit?_digitChar (hbase : base ≤ 16) (h : d < base) :
    digit? base (Nat.digitChar d) = some d := by
  have hall : ∀ base ≤ 16, ∀ d < base, digit? base (Nat.digitChar d) = some d := by decide
  exact hall base hbase d h

theorem digits_append : digits base limit read (text ++ rest) =
    (digits base limit read text).bind fun value => digits base limit value rest := by
  induction text generalizing read with
  | nil => rfl
  | cons c text ih =>
    rw [List.cons_append, digits, digits]
    cases digit? base c with
    | none => rfl
    | some d =>
      dsimp only
      split
      · exact ih
      · rfl

theorem value_succ (base read count n : Nat) :
    base * (base ^ count * read + n / base % base ^ count) + n % base =
      base ^ (count + 1) * read + n % base ^ (count + 1) := by
  rw [Nat.pow_succ', Nat.mod_mul, Nat.mul_add, Nat.mul_assoc]
  omega

theorem digits_fixed (hpos : 0 < base) (hbase : base ≤ 16)
    (h : base ^ count * read + n % base ^ count < limit) :
    digits base limit read (fixed base count n) = .ok (base ^ count * read + n % base ^ count) := by
  induction count generalizing n with
  | zero => simp [fixed, digits, Nat.mod_one]
  | succ count ih =>
    rw [← value_succ] at h ⊢
    have hfront : base ^ count * read + n / base % base ^ count < limit :=
      calc base ^ count * read + n / base % base ^ count
        _ ≤ base * (base ^ count * read + n / base % base ^ count) := Nat.le_mul_of_pos_left _ hpos
        _ ≤ _ := Nat.le_add_right ..
        _ < limit := h
    rw [fixed, digits_append, ih hfront]
    simp only [Except.bind, digits, digit?_digitChar hbase (Nat.mod_lt n hpos), if_pos h]

theorem exists_of_mem_fixed (hpos : 0 < base) (h : c ∈ fixed base count n) :
    ∃ d < base, c = Nat.digitChar d := by
  induction count generalizing n with
  | zero => cases h
  | succ count ih =>
    rcases List.mem_append.mp h with h | h
    · exact ih h
    · exact ⟨n % base, Nat.mod_lt n hpos, List.mem_singleton.mp h⟩

theorem isAlphanum_of_mem_fixed (hpos : 0 < base) (hbase : base ≤ 16) (h : c ∈ fixed base count n) :
    c.isAlphanum = true := by
  have hall : ∀ d < 16, (Nat.digitChar d).isAlphanum = true := by decide
  obtain ⟨d, hd, rfl⟩ := exists_of_mem_fixed hpos h
  exact hall d (Nat.lt_of_lt_of_le hd hbase)

theorem fixed_zero : fixed base count 0 = List.replicate count '0' := by
  induction count with
  | zero => rfl
  | succ count ih =>
    rw [fixed, Nat.zero_div, Nat.zero_mod, ih, List.replicate_succ']
    rfl

theorem leftpad_concat : (text ++ [c]).leftpad (count + 1) '0' = text.leftpad count '0' ++ [c] := by
  rw [List.leftpad, List.leftpad, List.length_append, List.length_singleton, Nat.add_sub_add_right,
    List.append_assoc]

/-- A row that is wide enough for a number is its digits behind zeros. -/
theorem fixed_eq_leftpad (hbase : 1 < base) (h : n < base ^ (count + 1)) :
    fixed base (count + 1) n = (Nat.toDigits base n).leftpad (count + 1) '0' := by
  induction count generalizing n with
  | zero =>
    rw [Nat.zero_add, Nat.pow_one] at h
    rw [Nat.toDigits_of_lt_base h, fixed, fixed, Nat.mod_eq_of_lt h]
    rfl
  | succ count ih =>
    rw [fixed]
    rcases Nat.lt_or_ge n base with hlt | hge
    · rw [Nat.toDigits_of_lt_base hlt, Nat.div_eq_of_lt hlt, Nat.mod_eq_of_lt hlt, fixed_zero,
        List.leftpad]
      rfl
    · have hfront : n / base < base ^ (count + 1) := by
        rwa [Nat.div_lt_iff_lt_mul (Nat.zero_lt_of_lt hbase), ← Nat.pow_succ]
      rw [Nat.toDigits_of_base_le hbase hge, leftpad_concat, ih hfront]

-- ---------------------------------------------------------------------------
-- Texts that are numbers
-- ---------------------------------------------------------------------------

theorem isSome_of_digits (h : digits base limit read text = .ok n) :
    ∀ c ∈ text, (digit? base c).isSome = true := by
  induction text generalizing read with
  | nil => nofun
  | cons c text ih =>
    rw [digits] at h
    split at h
    · cases h
    · rename_i d hd
      split at h
      · exact List.forall_mem_cons.mpr ⟨Option.isSome_iff_exists.mpr ⟨d, hd⟩, ih h⟩
      · cases h

theorem lt_of_digit? (h : digit? base c = some d) : d < base :=
  of_decide_eq_true (Option.mem_filter_iff.mp h).2

/-- A row of digits has a value as long as every row of its length stays below the limit. -/
theorem exists_digits_eq_ok (h : ∀ c ∈ text, (digit? base c).isSome = true)
    (hlimit : (read + 1) * base ^ text.length ≤ limit) :
    ∃ n, digits base limit read text = .ok n := by
  induction text generalizing read with
  | nil => exact ⟨read, rfl⟩
  | cons c text ih =>
    obtain ⟨hc, htext⟩ := List.forall_mem_cons.mp h
    obtain ⟨d, hd⟩ := Option.isSome_iff_exists.mp hc
    have hstep : base * read + d + 1 ≤ (read + 1) * base := by
      have hlt := lt_of_digit? hd
      rw [Nat.add_one_mul, Nat.mul_comm read]
      omega
    have hnext : (base * read + d + 1) * base ^ text.length ≤ limit :=
      calc (base * read + d + 1) * base ^ text.length
        _ ≤ (read + 1) * base * base ^ text.length := Nat.mul_le_mul_right _ hstep
        _ = (read + 1) * base ^ (c :: text).length := by
          rw [List.length_cons, Nat.pow_succ', Nat.mul_assoc]
        _ ≤ limit := hlimit
    have hpos : 0 < base ^ text.length :=
      Nat.pow_pos (Nat.lt_of_le_of_lt (Nat.zero_le d) (lt_of_digit? hd))
    have hvalue : base * read + d < limit :=
      calc base * read + d
        _ < base * read + d + 1 := Nat.lt_succ_self _
        _ ≤ (base * read + d + 1) * base ^ text.length := Nat.le_mul_of_pos_right _ hpos
        _ ≤ limit := hnext
    rw [digits, hd]
    dsimp only
    rw [if_pos hvalue]
    exact ih htext hnext

inductive IsNatural (base : Nat) : List Char → Prop
  | plain {text : List Char} (hne : text ≠ [])
      (h : ∀ c ∈ text, (digit? base c).isSome = true) : IsNatural base text
  | plus {text : List Char} (hne : text ≠ []) (h : ∀ c ∈ text, (digit? base c).isSome = true) :
      IsNatural base ('+' :: text)

theorem isNatural_of_natural (h : natural base limit text = .ok n) : IsNatural base text := by
  unfold natural at h
  split at h
  · cases h
  · cases h
  · rename_i hne
    exact .plus hne (isSome_of_digits h)
  · rename_i hne _ _
    exact .plain hne (isSome_of_digits h)

theorem exists_natural_eq_ok_iff (hpos : 0 < base) (hlimit : base ^ text.length ≤ limit) :
    (∃ n, natural base limit text = .ok n) ↔ IsNatural base text := by
  refine ⟨fun ⟨n, h⟩ => isNatural_of_natural h, fun h => ?_⟩
  cases h with
  | plain hne h =>
    have hplus : ∀ rest, text ≠ '+' :: rest := by
      rintro rest rfl
      cases h '+' List.mem_cons_self
    rw [natural.eq_4 base limit text hne (hplus []) hplus]
    exact exists_digits_eq_ok h (by rwa [Nat.zero_add, Nat.one_mul])
  | @plus text hne h =>
    rw [natural.eq_3 base limit text hne]
    refine exists_digits_eq_ok h ?_
    rw [Nat.zero_add, Nat.one_mul]
    exact Nat.le_trans (Nat.pow_le_pow_right hpos (Nat.le_succ _)) hlimit

-- ---------------------------------------------------------------------------
-- Characters of a number
-- ---------------------------------------------------------------------------

theorem isAlphanum_of_digit? (h : digit? base c = some d) : c.isAlphanum = true := by
  have hends : 'A'.val.toNat = 65 ∧ 'Z'.val.toNat = 90 ∧ 'a'.val.toNat = 97 ∧ 'z'.val.toNat = 122 ∧
      '0'.val.toNat = 48 ∧ '9'.val.toNat = 57 ∧ 'f'.val.toNat = 102 ∧
        'F'.val.toNat = 70 := by decide
  simp only [Char.isAlphanum, Char.isDigit, Bool.or_eq_true, Text.isAlpha_iff, Bool.and_eq_true,
    decide_eq_true_eq, UInt32.le_iff_toNat_le, ge_iff_le]
  unfold digit? at h
  simp only [Char.le_def, UInt32.le_iff_toNat_le] at h
  split at h
  · omega
  · split at h
    · omega
    · split at h
      · omega
      · cases h

theorem isAlphanum_of_isSome (h : ∀ c ∈ text, (digit? base c).isSome = true) :
    ∀ c ∈ text, c.isAlphanum = true := by
  intro c hc
  obtain ⟨d, hd⟩ := Option.isSome_iff_exists.mp (h c hc)
  exact isAlphanum_of_digit? hd

theorem isAlphanum_of_magnitude? (h : magnitude? base limit text = some n) :
    ∀ c ∈ text, c.isAlphanum = true := by
  unfold magnitude? at h
  split at h
  · cases h
  · cases hd : digits base limit 0 text with
    | ok value => exact isAlphanum_of_isSome (isSome_of_digits hd)
    | error fault =>
      rw [hd] at h
      cases h

def isNumeric (c : Char) : Bool := c.isAlphanum || c == '+' || c == '-'

theorem isNumeric_of_isAlphanum (h : ∀ c ∈ text, c.isAlphanum = true) :
    ∀ c ∈ text, isNumeric c = true := by
  intro c hc
  simp [isNumeric, h c hc]

theorem isNumeric_of_isNatural (h : IsNatural base text) : ∀ c ∈ text, isNumeric c = true := by
  cases h with
  | plain hne h => exact isNumeric_of_isAlphanum (isAlphanum_of_isSome h)
  | plus hne h =>
    exact List.forall_mem_cons.mpr ⟨rfl, isNumeric_of_isAlphanum (isAlphanum_of_isSome h)⟩

theorem isNumeric_of_long? {value : Int} (h : long? base text = some value) :
    ∀ c ∈ text, isNumeric c = true := by
  unfold long? at h
  split at h
  · obtain ⟨v, hv, -⟩ := Option.map_eq_some_iff.mp h
    obtain ⟨n, hn, -⟩ := Option.bind_eq_some_iff.mp hv
    exact List.forall_mem_cons.mpr ⟨rfl, isNumeric_of_isAlphanum (isAlphanum_of_magnitude? hn)⟩
  · obtain ⟨n, hn, -⟩ := Option.map_eq_some_iff.mp h
    exact List.forall_mem_cons.mpr ⟨rfl, isNumeric_of_isAlphanum (isAlphanum_of_magnitude? hn)⟩
  · obtain ⟨n, hn, -⟩ := Option.map_eq_some_iff.mp h
    exact isNumeric_of_isAlphanum (isAlphanum_of_magnitude? hn)

theorem isNumeric_of_hexPart? (h : hexPart? text = some rest)
    (hrest : ∀ c ∈ rest, isNumeric c = true) : ∀ c ∈ text, isNumeric c = true := by
  unfold hexPart? at h
  split at h
  · cases h
    exact List.forall_mem_cons.mpr ⟨rfl, List.forall_mem_cons.mpr ⟨rfl, hrest⟩⟩
  · cases h
    exact List.forall_mem_cons.mpr ⟨rfl, List.forall_mem_cons.mpr ⟨rfl, hrest⟩⟩
  · cases h

theorem isNumeric_of_unsignedImmediate? {value : Int} (h : unsignedImmediate? text = some value) :
    ∀ c ∈ text, isNumeric c = true := by
  unfold unsignedImmediate? at h
  split at h
  · rename_i rest hpart
    exact isNumeric_of_hexPart? hpart (isNumeric_of_long? h)
  · obtain ⟨n, hn, -⟩ := Option.map_eq_some_iff.mp h
    exact isNumeric_of_isAlphanum (isAlphanum_of_magnitude? hn)

theorem isNumeric_of_immediate? {value : Int} (h : immediate? text = some value) :
    ∀ c ∈ Text.trim text, isNumeric c = true := by
  unfold immediate? at h
  split at h
  · rename_i rest htrim
    obtain ⟨v, hv, -⟩ := Option.map_eq_some_iff.mp h
    rw [htrim]
    exact List.forall_mem_cons.mpr ⟨rfl, isNumeric_of_unsignedImmediate? hv⟩
  · rename_i rest htrim
    rw [htrim]
    exact List.forall_mem_cons.mpr ⟨rfl, isNumeric_of_unsignedImmediate? h⟩
  · exact isNumeric_of_unsignedImmediate? h

end Numeral

end RiscvBoard
