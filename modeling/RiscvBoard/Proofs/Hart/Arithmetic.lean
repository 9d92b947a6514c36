import RiscvBoard.Hart.Action
import RiscvBoard.Proofs.Hart.Manual

/-!
# Words compute residues

Each function on words is the function of the manual on the residues that the
words stand for.
-/

namespace RiscvBoard.Manual

open Arithmetic

-- ---------------------------------------------------------------------------
-- Residues as words
-- ---------------------------------------------------------------------------

theorem ofInt_toNat (w : Word) : BitVec.ofInt 32 w.toNat = w := by
  rw [BitVec.ofInt_natCast, BitVec.ofNat_toNat, BitVec.setWidth_eq]

theorem toNat_ofInt (v : Int) : ((BitVec.ofInt 32 v).toNat : Int) = unsigned v := by
  rw [BitVec.toNat_ofInt]
  exact Int.toNat_of_nonneg (Int.emod_nonneg v (by decide))

theorem toInt_ofInt (v : Int) : (BitVec.ofInt 32 v).toInt = signed v := BitVec.toInt_ofInt v

theorem toNat_unsigned (v : Int) : (unsigned v).toNat = (BitVec.ofInt 32 v).toNat := by
  rw [← toNat_ofInt, Int.toNat_natCast]

theorem shiftAmount_eq (v : Int) : shiftAmount (BitVec.ofInt 32 v) = amount v := by
  rw [shiftAmount, amount, BitVec.toNat_ofInt]
  omega

-- ---------------------------------------------------------------------------
-- Functions
-- ---------------------------------------------------------------------------

variable (a b : Int)

theorem sub_eq : BitVec.ofInt 32 a - BitVec.ofInt 32 b = BitVec.ofInt 32 (a - b) := by
  refine BitVec.eq_of_toInt_eq ?_
  rw [BitVec.toInt_sub, BitVec.toInt_ofInt, BitVec.toInt_ofInt, BitVec.toInt_ofInt,
    Int.bmod_sub_bmod, Int.sub_bmod_bmod]

theorem two_pow_eq (n : Nat) : (2 : Int) ^ n = (2 ^ n : Nat) := by
  rw [Int.natCast_pow]
  rfl

theorem shiftLeft_eq (n : Nat) : BitVec.ofInt 32 a <<< n = BitVec.ofInt 32 (a * 2 ^ n) := by
  have hpow : BitVec.twoPow 32 n = BitVec.ofInt 32 (2 ^ n) := by
    refine BitVec.eq_of_toNat_eq ?_
    rw [BitVec.toNat_twoPow, two_pow_eq, BitVec.ofInt_natCast, BitVec.toNat_ofNat]
  rw [BitVec.shiftLeft_eq_mul_twoPow, hpow, ← BitVec.ofInt_mul]

theorem shiftRight_eq (n : Nat) :
    BitVec.ofInt 32 a >>> n = BitVec.ofInt 32 (unsigned a / 2 ^ n) := by
  refine BitVec.eq_of_toNat_eq ?_
  have hlt := Nat.lt_of_le_of_lt (Nat.div_le_self (BitVec.ofInt 32 a).toNat (2 ^ n)) (BitVec.isLt _)
  rw [BitVec.toNat_ushiftRight, Nat.shiftRight_eq_div_pow, ← toNat_ofInt, two_pow_eq,
    ← Int.natCast_ediv, BitVec.ofInt_natCast, BitVec.toNat_ofNat, Nat.mod_eq_of_lt hlt]

theorem sshiftRight_eq (n : Nat) :
    (BitVec.ofInt 32 a).sshiftRight n = BitVec.ofInt 32 (signed a / 2 ^ n) := by
  rw [← toInt_ofInt, two_pow_eq, ← Int.shiftRight_eq_div_pow, ← BitVec.toInt_sshiftRight,
    BitVec.ofInt_toInt]

theorem bitwise_eq (f : Nat → Nat → Nat) (g : Word → Word → Word)
    (h : ∀ v w, (g v w).toNat = f v.toNat w.toNat) :
    g (BitVec.ofInt 32 a) (BitVec.ofInt 32 b) = BitVec.ofInt 32 (bitwise f a b) := by
  rw [bitwise, toNat_unsigned, toNat_unsigned, ← h, ofInt_toNat]

theorem ofBool_eq (p : Prop) [Decidable p] : ofBool (decide p) = BitVec.ofInt 32 (truth p) := by
  by_cases h : p
  · rw [truth, if_pos h, decide_eq_true h]
    rfl
  · rw [truth, if_neg h, decide_eq_false h]
    rfl

theorem slt_eq : (BitVec.ofInt 32 a).slt (BitVec.ofInt 32 b) = decide (signed a < signed b) := by
  rw [BitVec.slt_eq_decide, toInt_ofInt, toInt_ofInt]

theorem ult_eq :
    (BitVec.ofInt 32 a).ult (BitVec.ofInt 32 b) = decide (unsigned a < unsigned b) := by
  rw [BitVec.ult_eq_decide, ← toNat_ofInt, ← toNat_ofInt]
  exact decide_eq_decide.mpr Int.ofNat_lt.symm

theorem compute_eq {op : Operation} {f : Word → Word → Word} (h : op.action = .compute f)
    (hbase : op.isMExtension = false) :
    ∃ v, result? op a b = some v ∧
      f (BitVec.ofInt 32 a) (BitVec.ofInt 32 b) = BitVec.ofInt 32 v := by
  have hsll : shiftLeft (BitVec.ofInt 32 a) (BitVec.ofInt 32 b) =
      BitVec.ofInt 32 (a * 2 ^ amount b) := by
    rw [shiftLeft, shiftAmount_eq, shiftLeft_eq]
  have hsrl : shiftRight (BitVec.ofInt 32 a) (BitVec.ofInt 32 b) =
      BitVec.ofInt 32 (unsigned a / 2 ^ amount b) := by
    rw [shiftRight, shiftAmount_eq, shiftRight_eq]
  have hsra : shiftRightSigned (BitVec.ofInt 32 a) (BitVec.ofInt 32 b) =
      BitVec.ofInt 32 (signed a / 2 ^ amount b) := by
    rw [shiftRightSigned, shiftAmount_eq, sshiftRight_eq]
  have hslt : ofBool ((BitVec.ofInt 32 a).slt (BitVec.ofInt 32 b)) =
      BitVec.ofInt 32 (truth (signed a < signed b)) := by
    rw [slt_eq, ofBool_eq]
  have hsltu : ofBool ((BitVec.ofInt 32 a).ult (BitVec.ofInt 32 b)) =
      BitVec.ofInt 32 (truth (unsigned a < unsigned b)) := by
    rw [ult_eq, ofBool_eq]
  cases op <;> cases hbase <;> cases h
  case add | addi => exact ⟨_, rfl, (BitVec.ofInt_add a b).symm⟩
  case sub => exact ⟨_, rfl, sub_eq a b⟩
  case sll | slli => exact ⟨_, rfl, hsll⟩
  case slt | slti => exact ⟨_, rfl, hslt⟩
  case sltu | sltiu => exact ⟨_, rfl, hsltu⟩
  case xor | xori => exact ⟨_, rfl, bitwise_eq a b _ _ BitVec.toNat_xor⟩
  case srl | srli => exact ⟨_, rfl, hsrl⟩
  case sra | srai => exact ⟨_, rfl, hsra⟩
  case or | ori => exact ⟨_, rfl, bitwise_eq a b _ _ BitVec.toNat_or⟩
  case and | andi => exact ⟨_, rfl, bitwise_eq a b _ _ BitVec.toNat_and⟩

theorem condition_eq {op : Operation} {c : Word → Word → Bool} (h : op.action = .branch c) :
    c (BitVec.ofInt 32 a) (BitVec.ofInt 32 b) = related op a b := by
  have heq : (BitVec.ofInt 32 a = BitVec.ofInt 32 b) ↔ unsigned a = unsigned b := by
    rw [← BitVec.toNat_inj, ← toNat_ofInt, ← toNat_ofInt]
    exact Int.ofNat_inj.symm
  cases op <;> cases h
  case beq => exact decide_eq_decide.mpr heq
  case bne =>
    change (!decide (BitVec.ofInt 32 a = BitVec.ofInt 32 b)) = _
    rw [← decide_not]
    exact decide_eq_decide.mpr (not_congr heq)
  case blt => exact slt_eq a b
  case bge =>
    change (!(BitVec.ofInt 32 a).slt (BitVec.ofInt 32 b)) = _
    rw [slt_eq, ← decide_not]
    exact decide_eq_decide.mpr Int.not_lt
  case bltu => exact ult_eq a b
  case bgeu =>
    change (!(BitVec.ofInt 32 a).ult (BitVec.ofInt 32 b)) = _
    rw [ult_eq, ← decide_not]
    exact decide_eq_decide.mpr Int.not_lt

theorem clearBit_eq : BitVec.ofInt 32 a &&& ~~~1#32 = BitVec.ofInt 32 (unsigned a / 2 * 2) := by
  have hshift : ∀ w : Word, w &&& ~~~1#32 = (w >>> 1) <<< 1 := by
    intro w
    refine BitVec.eq_of_getLsbD_eq fun k hk => ?_
    rw [BitVec.getLsbD_and, BitVec.getLsbD_not, BitVec.getLsbD_shiftLeft,
      BitVec.getLsbD_ushiftRight, BitVec.getLsbD_one]
    cases k with
    | zero =>
      simp only [hk, Nat.lt_add_one, decide_true, Bool.and_self, Bool.not_true, Bool.and_false,
        Bool.false_and]
    | succ k =>
      have h1 : 1 + (k + 1 - 1) = k + 1 := by omega
      have hlow : ¬k + 1 < 1 := Nat.not_lt.mpr (Nat.le_add_left 1 k)
      simp only [hk, h1, hlow, decide_true, Nat.succ_ne_zero, decide_false, Bool.and_false,
        Bool.not_false, Bool.and_true, Bool.true_and]
  rw [hshift, shiftRight_eq, shiftLeft_eq]
  rfl

theorem byte_eq (v : Int) {k : Nat} (hk : k < 4) :
    Word.byte (BitVec.ofInt 32 v) k = BitVec.ofInt 8 (v / 256 ^ k) := by
  have hbyte : (BitVec.ofInt 32 v).toNat / 256 ^ k % 256 = (v / 256 ^ k % 256).toNat := by
    rw [BitVec.toNat_ofInt]
    match k, hk with
    | 0, _ | 1, _ | 2, _ | 3, _ => omega
  refine BitVec.eq_of_toNat_eq ?_
  rw [Word.toNat_byte, hbyte, BitVec.toNat_ofInt]
  rfl

end RiscvBoard.Manual
