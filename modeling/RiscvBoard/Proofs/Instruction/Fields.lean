import Mathlib.Algebra.Group.Int.Defs
import Mathlib.Algebra.Group.Nat.Defs
import RiscvBoard.Instruction.Field

/-!
# Fields as pieces of words

The fields of an instruction word are the numbers in its pieces. Pieces that meet
are one piece (`append_pieces`), and a signed number that fits a field survives the
way through it in both directions (`toInt_extractLsb'_ofInt`, `extractLsb'_ofInt_toInt`).
-/

namespace RiscvBoard

open BitVec

-- ---------------------------------------------------------------------------
-- Registers and function codes
-- ---------------------------------------------------------------------------

namespace Word

theorem field_eq_extractLsb' (w : Word) (low count : Nat) :
    w.field low (2 ^ count) = (w.extractLsb' low count).toNat :=
  (BitVec.extractLsb'_toNat ..).symm

theorem opcode_eq (w : Word) : w.opcode = (w.extractLsb' 0 7).toNat := w.field_eq_extractLsb' 0 7

theorem rd_eq (w : Word) : w.rd = (w.extractLsb' 7 5).toNat := w.field_eq_extractLsb' 7 5

theorem funct3_eq (w : Word) : w.funct3 = (w.extractLsb' 12 3).toNat := w.field_eq_extractLsb' 12 3

theorem rs1_eq (w : Word) : w.rs1 = (w.extractLsb' 15 5).toNat := w.field_eq_extractLsb' 15 5

theorem rs2_eq (w : Word) : w.rs2 = (w.extractLsb' 20 5).toNat := w.field_eq_extractLsb' 20 5

theorem funct7_eq (w : Word) : w.funct7 = (w.extractLsb' 25 7).toNat := w.field_eq_extractLsb' 25 7

theorem rd_lt (w : Word) : w.rd < 32 := by rw [rd_eq]; exact isLt _

theorem rs1_lt (w : Word) : w.rs1 < 32 := by rw [rs1_eq]; exact isLt _

theorem rs2_lt (w : Word) : w.rs2 < 32 := by rw [rs2_eq]; exact isLt _

end Word

-- ---------------------------------------------------------------------------
-- Signed numbers in fields
-- ---------------------------------------------------------------------------

variable {n low count : Nat}

theorem extractLsb'_zero_ofInt (value : Int) (h : n ≤ 32) :
    (BitVec.ofInt 32 value).extractLsb' 0 n = BitVec.ofInt n value := by
  apply eq_of_toNat_eq
  have hd : ((2 ^ n : Nat) : Int) ∣ (2 ^ 32 : Nat) :=
    Int.natCast_dvd_natCast.mpr (Nat.pow_dvd_pow 2 h)
  have hw : 0 ≤ value % ((2 ^ 32 : Nat) : Int) := Int.emod_nonneg _ (by decide)
  have hn : 0 ≤ value % ((2 ^ n : Nat) : Int) :=
    Int.emod_nonneg _ (by have := Nat.two_pow_pos n; omega)
  rw [extractLsb'_toNat, toNat_ofInt, toNat_ofInt, Nat.shiftRight_zero]
  apply Int.natCast_inj.mp
  rw [Int.natCast_emod, Int.toNat_of_nonneg hw, Int.toNat_of_nonneg hn,
    Int.emod_emod_of_dvd value hd]

theorem toInt_extractLsb'_ofInt {value : Int} (hn : n < 32) (hl : -2 ^ n ≤ value)
    (hu : value < 2 ^ n) : ((BitVec.ofInt 32 value).extractLsb' 0 (n + 1)).toInt = value := by
  have hp : ((2 ^ (n + 1) : Nat) : Int) = 2 ^ n * 2 := by rw [Nat.pow_succ]; simp
  rw [extractLsb'_zero_ofInt value (by omega), toInt_ofInt]
  exact Int.bmod_eq_of_le_mul_two (by omega) (by omega)

theorem extractLsb'_ofInt_toInt (x : BitVec n) (hn : n ≤ 32) (h : low + count ≤ n) :
    (BitVec.ofInt 32 x.toInt).extractLsb' low count = x.extractLsb' low count := by
  change (x.signExtend 32).extractLsb' low count = _
  ext i hi
  simp only [getElem_extractLsb', getLsbD_signExtend]
  simp [show low + i < 32 by omega, show low + i < n by omega]

theorem extractLsb'_ofInt_of_even {value : Int} (h : value % 2 = 0) :
    (BitVec.ofInt 32 value).extractLsb' 0 1 = 0#1 := by
  rw [extractLsb'_zero_ofInt value (by decide)]
  apply eq_of_toNat_eq
  rw [toNat_ofInt]
  simp [h]

-- ---------------------------------------------------------------------------
-- Immediates in pieces
-- ---------------------------------------------------------------------------

theorem append_pieces (x : BitVec n) (low a b : Nat) :
    x.extractLsb' (low + a) b ++ x.extractLsb' low a = x.extractLsb' low (b + a) :=
  extractLsb'_append_extractLsb'_eq_extractLsb' rfl

theorem join_store_pieces (x : Word) :
    x.extractLsb' 5 7 ++ x.extractLsb' 0 5 = x.extractLsb' 0 12 :=
  append_pieces x 0 5 7

theorem join_branch_pieces {x : Word} (h : x.extractLsb' 0 1 = 0#1) :
    x.extractLsb' 12 1 ++ x.extractLsb' 11 1 ++ x.extractLsb' 5 6 ++ x.extractLsb' 1 4 ++ 0#1 =
      x.extractLsb' 0 13 := by
  rw [← h, append_pieces x 11 1 1, append_pieces x 5 6 2, append_pieces x 1 4 8,
    append_pieces x 0 1 12]

theorem join_jump_pieces {x : Word} (h : x.extractLsb' 0 1 = 0#1) :
    x.extractLsb' 20 1 ++ x.extractLsb' 12 8 ++ x.extractLsb' 11 1 ++ x.extractLsb' 1 10 ++ 0#1 =
      x.extractLsb' 0 21 := by
  rw [← h, append_pieces x 12 8 1, append_pieces x 11 1 9, append_pieces x 1 10 10,
    append_pieces x 0 1 20]

namespace Word

variable (w : Word)

theorem cut_immediateI : (BitVec.ofInt 32 w.immediateI).extractLsb' 0 12 = w.extractLsb' 20 12 := by
  rw [immediateI, extractLsb'_ofInt_toInt _ (by decide) (by decide), extractLsb'_eq_self]

/-- A shift amount stands where the second source register stands otherwise. -/
theorem cut_rs2 : (BitVec.ofInt 32 w.rs2).extractLsb' 0 5 = w.extractLsb' 20 5 := by
  rw [rs2_eq, extractLsb'_zero_ofInt _ (by decide), BitVec.ofInt_natCast, ofNat_toNat, setWidth_eq]

theorem cut_immediateS :
    (BitVec.ofInt 32 w.immediateS).extractLsb' 5 7 = w.extractLsb' 25 7 ∧
      (BitVec.ofInt 32 w.immediateS).extractLsb' 0 5 = w.extractLsb' 7 5 := by
  unfold immediateS
  refine ⟨?_, ?_⟩ <;> rw [extractLsb'_ofInt_toInt _ (by decide) (by decide)] <;>
    simp (disch := decide) only [extractLsb'_append_eq_of_add_le, extractLsb'_append_eq_of_le,
      extractLsb'_eq_self, Nat.sub_self]

theorem cut_immediateB :
    (BitVec.ofInt 32 w.immediateB).extractLsb' 12 1 = w.extractLsb' 31 1 ∧
      (BitVec.ofInt 32 w.immediateB).extractLsb' 5 6 = w.extractLsb' 25 6 ∧
        (BitVec.ofInt 32 w.immediateB).extractLsb' 1 4 = w.extractLsb' 8 4 ∧
          (BitVec.ofInt 32 w.immediateB).extractLsb' 11 1 = w.extractLsb' 7 1 := by
  unfold immediateB
  refine ⟨?_, ?_, ?_, ?_⟩ <;> rw [extractLsb'_ofInt_toInt _ (by decide) (by decide)] <;>
    simp (disch := decide) only [extractLsb'_append_eq_of_add_le, extractLsb'_append_eq_of_le,
      extractLsb'_eq_self, Nat.sub_self, Nat.reduceSub]

theorem cut_immediateU : (BitVec.ofInt 32 w.immediateU).extractLsb' 0 20 = w.extractLsb' 12 20 := by
  rw [immediateU, extractLsb'_zero_ofInt _ (by decide), BitVec.ofInt_natCast, ofNat_toNat,
    setWidth_eq]

theorem cut_immediateJ :
    (BitVec.ofInt 32 w.immediateJ).extractLsb' 20 1 = w.extractLsb' 31 1 ∧
      (BitVec.ofInt 32 w.immediateJ).extractLsb' 1 10 = w.extractLsb' 21 10 ∧
        (BitVec.ofInt 32 w.immediateJ).extractLsb' 11 1 = w.extractLsb' 20 1 ∧
          (BitVec.ofInt 32 w.immediateJ).extractLsb' 12 8 = w.extractLsb' 12 8 := by
  unfold immediateJ
  refine ⟨?_, ?_, ?_, ?_⟩ <;> rw [extractLsb'_ofInt_toInt _ (by decide) (by decide)] <;>
    simp (disch := decide) only [extractLsb'_append_eq_of_add_le, extractLsb'_append_eq_of_le,
      extractLsb'_eq_self, Nat.sub_self, Nat.reduceSub]

-- ---------------------------------------------------------------------------
-- Whole words
-- ---------------------------------------------------------------------------

theorem join_registers :
    w.extractLsb' 25 7 ++ w.extractLsb' 20 5 ++ w.extractLsb' 15 5 ++ w.extractLsb' 12 3 ++
      w.extractLsb' 7 5 ++ w.extractLsb' 0 7 = w := by
  rw [append_pieces w 20 5 7, append_pieces w 15 5 12, append_pieces w 12 3 17,
    append_pieces w 7 5 20, append_pieces w 0 7 25]
  exact extractLsb'_eq_self

theorem join_immediate :
    w.extractLsb' 20 12 ++ w.extractLsb' 15 5 ++ w.extractLsb' 12 3 ++ w.extractLsb' 7 5 ++
      w.extractLsb' 0 7 = w := by
  rw [append_pieces w 15 5 12, append_pieces w 12 3 17,
    append_pieces w 7 5 20, append_pieces w 0 7 25]
  exact extractLsb'_eq_self

theorem join_branch :
    w.extractLsb' 31 1 ++ w.extractLsb' 25 6 ++ w.extractLsb' 20 5 ++ w.extractLsb' 15 5 ++
      w.extractLsb' 12 3 ++ w.extractLsb' 8 4 ++ w.extractLsb' 7 1 ++ w.extractLsb' 0 7 = w := by
  rw [append_pieces w 25 6 1, append_pieces w 20 5 7, append_pieces w 15 5 12,
    append_pieces w 12 3 17, append_pieces w 8 4 20, append_pieces w 7 1 24, append_pieces w 0 7 25]
  exact extractLsb'_eq_self

theorem join_upper : w.extractLsb' 12 20 ++ w.extractLsb' 7 5 ++ w.extractLsb' 0 7 = w := by
  rw [append_pieces w 7 5 20, append_pieces w 0 7 25]
  exact extractLsb'_eq_self

theorem join_jump :
    w.extractLsb' 31 1 ++ w.extractLsb' 21 10 ++ w.extractLsb' 20 1 ++ w.extractLsb' 12 8 ++
      w.extractLsb' 7 5 ++ w.extractLsb' 0 7 = w := by
  rw [append_pieces w 21 10 1, append_pieces w 20 1 11, append_pieces w 12 8 12,
    append_pieces w 7 5 20, append_pieces w 0 7 25]
  exact extractLsb'_eq_self

-- ---------------------------------------------------------------------------
-- Ranges of immediates
-- ---------------------------------------------------------------------------

theorem immediateI_range : -2048 ≤ w.immediateI ∧ w.immediateI ≤ 2047 :=
  ⟨le_toInt _, Int.le_of_lt_add_one toInt_lt⟩

theorem immediateS_range : -2048 ≤ w.immediateS ∧ w.immediateS ≤ 2047 :=
  ⟨le_toInt _, Int.le_of_lt_add_one toInt_lt⟩

theorem immediateB_range :
    -4096 ≤ w.immediateB ∧ w.immediateB ≤ 4094 ∧ w.immediateB % 2 = 0 := by
  have hl :=
    le_toInt (w.extractLsb' 31 1 ++ w.extractLsb' 7 1 ++ w.extractLsb' 25 6 ++ w.extractLsb' 8 4)
  have hu :=
    @toInt_lt _ (w.extractLsb' 31 1 ++ w.extractLsb' 7 1 ++ w.extractLsb' 25 6 ++ w.extractLsb' 8 4)
  rw [immediateB, toInt_append_zero]
  omega

theorem immediateU_range : 0 ≤ w.immediateU ∧ w.immediateU ≤ 0xFFFFF := by
  have := (w.extractLsb' 12 20).isLt
  unfold immediateU
  omega

theorem immediateJ_range :
    -1048576 ≤ w.immediateJ ∧ w.immediateJ ≤ 1048574 ∧ w.immediateJ % 2 = 0 := by
  have hl :=
    le_toInt (w.extractLsb' 31 1 ++ w.extractLsb' 12 8 ++ w.extractLsb' 20 1 ++ w.extractLsb' 21 10)
  have hu :=
    @toInt_lt _ (w.extractLsb' 31 1 ++ w.extractLsb' 12 8 ++ w.extractLsb' 20 1 ++
      w.extractLsb' 21 10)
  rw [immediateJ, toInt_append_zero]
  omega

end Word

end RiscvBoard
