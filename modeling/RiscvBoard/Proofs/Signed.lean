import Mathlib.Data.Int.ModEq
import Mathlib.Tactic.IntervalCases
import RiscvBoard.Instruction.Field
import RiscvBoard.Proofs.Bytes

/-!
# Signed numbers in words

A field that is moved to the top of a word and back again shows its number in
two's complement. It is the one number in the range of the field that agrees with
the word in the bits of the field. The immediates of instructions are such
numbers, and so is what a signed load makes of the bytes that it finds.
-/

namespace RiscvBoard.Word

open BitVec

variable {word other : Word} {bits : Nat}

-- ---------------------------------------------------------------------------
-- There and back
-- ---------------------------------------------------------------------------

theorem msb_shiftLeft (word : Word) (hpos : 0 < bits) (hle : bits ≤ 32) :
    (word <<< (32 - bits)).msb = (word.setWidth bits).msb := by
  have hinside : ¬32 - 1 < 32 - bits := by omega
  have hlast : 32 - 1 - (32 - bits) = bits - 1 := by omega
  have htop : bits - 1 < bits := by omega
  rw [msb_eq_getLsbD_last, msb_eq_getLsbD_last, getLsbD_shiftLeft, getLsbD_setWidth]
  simp [hinside, hlast, htop]

theorem sshiftRight_shiftLeft (word : Word) (hpos : 0 < bits) (hle : bits ≤ 32) :
    (word <<< (32 - bits)).sshiftRight (32 - bits) = (word.setWidth bits).signExtend 32 := by
  ext i hi
  rw [getElem_sshiftRight hi, getElem_signExtend hi, msb_shiftLeft word hpos hle]
  by_cases hfield : i < bits
  · -- a bit of the field comes back to its place
    have hinside : 32 - bits + i < 32 := by omega
    have hback : 32 - bits + i - (32 - bits) = i := by omega
    rw [dif_pos hfield, dif_pos hinside, getElem_setWidth, getLsbD_eq_getElem hi]
    simp [hback]
  · have houtside : ¬32 - bits + i < 32 := by omega
    rw [dif_neg hfield, dif_neg houtside]

theorem signed_eq_toInt (word : Word) (hpos : 0 < bits) (hle : bits ≤ 32) :
    word.signed bits = (word.setWidth bits).toInt := by
  rw [signed, sshiftRight_shiftLeft word hpos hle, toInt_signExtend_of_le hle]

-- ---------------------------------------------------------------------------
-- The number of a field
-- ---------------------------------------------------------------------------

theorem signed_range (word : Word) (hpos : 0 < bits) (hle : bits ≤ 32) :
    -2 ^ (bits - 1) ≤ word.signed bits ∧ word.signed bits < 2 ^ (bits - 1) := by
  rw [signed_eq_toInt word hpos hle]
  exact ⟨le_toInt _, toInt_lt⟩

theorem signed_modEq (word : Word) (hpos : 0 < bits) (hle : bits ≤ 32) :
    word.signed bits ≡ word.toNat [ZMOD 2 ^ bits] := by
  have hmod : (word.toNat : Int).bmod (2 ^ bits) ≡ word.toNat [ZMOD (2 ^ bits : Nat)] :=
    Int.bmod_emod
  rw [signed_eq_toInt word hpos hle, toInt_setWidth]
  rwa [Int.natCast_pow] at hmod

theorem eq_of_modEq {m n : Int} (hpos : 0 < bits) (hm : -2 ^ (bits - 1) ≤ m ∧ m < 2 ^ (bits - 1))
    (hn : -2 ^ (bits - 1) ≤ n ∧ n < 2 ^ (bits - 1)) (h : m ≡ n [ZMOD 2 ^ bits]) : m = n := by
  obtain ⟨k, rfl⟩ := Nat.exists_eq_add_of_le' hpos
  rw [Nat.add_sub_cancel] at hm hn
  have hdvd : (2 : Int) ^ k * 2 ∣ n - m := h.dvd
  have hclose : |n - m| < 2 ^ k * 2 := abs_lt.mpr (by omega)
  have hzero := Int.eq_zero_of_abs_lt_dvd hdvd hclose
  omega

theorem signed_of_low (hpos : 0 < bits) (hle : bits ≤ 32)
    (h : ∀ i < bits, other.getLsbD i = word.getLsbD i) : other.signed bits = word.signed bits := by
  have hlow : other.setWidth bits = word.setWidth bits := by
    ext i hi
    rw [getElem_setWidth, getElem_setWidth, h i hi]
  rw [signed_eq_toInt other hpos hle, signed_eq_toInt word hpos hle, hlow]

-- ---------------------------------------------------------------------------
-- Where fields are extended
-- ---------------------------------------------------------------------------

theorem extend_signed (word : Word) (width : Width) :
    word.extend width true = BitVec.ofInt 32 (word.signed (8 * width.bytes)) := by
  have hpos : 0 < width.bits := Nat.mul_pos (by decide) width.bytes_pos
  rw [extend, if_pos rfl, BitVec.signExtend, ← signed_eq_toInt word hpos width.bits_le, Width.bits]

/-- The pieces of an immediate are moved to their places in a field, which is extended. -/
theorem immediates_signed (w : Word) :
    w.immediateI = signed (w >>> 20) 12 ∧
    w.immediateS = signed ((w >>> 25 &&& 0x7F) <<< 5 ||| w >>> 7 &&& 0x1F) 12 ∧
    w.immediateB = signed ((w >>> 31 &&& 0x1) <<< 12 ||| (w >>> 7 &&& 0x1) <<< 11 |||
      (w >>> 25 &&& 0x3F) <<< 5 ||| (w >>> 8 &&& 0xF) <<< 1) 13 ∧
    w.immediateJ = signed ((w >>> 31 &&& 0x1) <<< 20 ||| (w >>> 12 &&& 0xFF) <<< 12 |||
      (w >>> 20 &&& 0x1) <<< 11 ||| (w >>> 21 &&& 0x3FF) <<< 1) 21 := by
  have hwhole : w.immediateI = signed (w >>> 20) 12 :=
    (signed_eq_toInt (w >>> 20) (by decide) (by decide)).symm
  refine ⟨hwhole, ?_, ?_, ?_⟩
  all_goals
    rw [signed_eq_toInt _ (by decide) (by decide)]
    refine congrArg BitVec.toInt (eq_of_getLsbD_eq fun i hi => ?_)
    simp only [getLsbD_append, getLsbD_extractLsb', getLsbD_setWidth, getLsbD_or, getLsbD_and,
      getLsbD_shiftLeft, getLsbD_ushiftRight]
    interval_cases i <;> simp

/-- Extension with a sign gives the only number in the range of the field that agrees with the word
modulo the size of the field. It ignores the bits above, and a load with a sign extends in the same
way. -/
theorem signed_exact (word : Word) {bits : Nat} (hpos : 1 ≤ bits) (hle : bits ≤ 32) :
    (∀ n : Int, -2 ^ (bits - 1) ≤ n ∧ n < 2 ^ (bits - 1) ∧ n ≡ word.toNat [ZMOD 2 ^ bits] ↔
      n = word.signed bits) ∧
    (∀ other : Word, (∀ i < bits, other.getLsbD i = word.getLsbD i) →
      other.signed bits = word.signed bits) ∧
    ∀ width : Width, word.extend width true = BitVec.ofInt 32 (word.signed (8 * width.bytes)) := by
  refine ⟨fun n => ⟨fun ⟨hlow, hhigh, hmod⟩ => ?_, ?_⟩, fun other => signed_of_low hpos hle,
    extend_signed word⟩
  · exact eq_of_modEq hpos ⟨hlow, hhigh⟩ (signed_range word hpos hle)
      (hmod.trans (signed_modEq word hpos hle).symm)
  · rintro rfl
    obtain ⟨hlow, hhigh⟩ := signed_range word hpos hle
    exact ⟨hlow, hhigh, signed_modEq word hpos hle⟩

theorem signed_exact_lowest :
    1 ≤ 12 ∧ 12 ≤ 32 ∧ signed 0xABCDE800 12 = -2048 ∧
      (∀ i < 12, (0x800 : Word).getLsbD i = (0xABCDE800 : Word).getLsbD i) ∧
      signed 0x800 12 = signed 0xABCDE800 12 ∧
      extend 0xABCDE800 .half true = BitVec.ofInt 32 (signed 0xABCDE800 16) := by
  have hsame : ∀ i < 12, (0x800 : Word).getLsbD i = (0xABCDE800 : Word).getLsbD i := by decide
  obtain ⟨hunique, hlow, hextend⟩ := @signed_exact 0xABCDE800 12 (by decide) (by decide)
  exact ⟨by decide, by decide, ((hunique (-2048)).mp (by decide)).symm, hsame, hlow 0x800 hsame,
    hextend .half⟩

end RiscvBoard.Word
