import RiscvBoard.Proofs.Hart.Refinement

/-!
# Products and quotients

What the M extension computes, over integers. The upper and the lower half of a
product make up the exact product, with or without signs, and a quotient and its
remainder make up the dividend. A step that multiplies or divides always executes,
for a division has a result even where there is no quotient or where it is too large.
-/

namespace RiscvBoard

def Operation.value (op : Operation) (a b : Word) : Word :=
  match op.action with
  | .compute f => f a b
  | _ => 0

namespace Manual

structure Products (value : Operation → Word) (a b : Word) : Prop where
  signed : a.toInt * b.toInt = (value .mulh).toInt * 2 ^ 32 + (value .mul).toNat
  mixed : a.toInt * b.toNat = (value .mulhsu).toInt * 2 ^ 32 + (value .mul).toNat
  unsigned : (a.toNat * b.toNat : Int) = (value .mulhu).toNat * 2 ^ 32 + (value .mul).toNat

/-- A quotient rounded toward zero, and its remainder. -/
structure Divides (a b quotient remainder : Int) : Prop where
  eq : a = b * quotient + remainder
  lt : remainder.natAbs < b.natAbs
  sign : remainder = 0 ∨ remainder.sign = a.sign

structure Quotients (value : Operation → Word) (a b : Word) : Prop where
  signed : b ≠ 0 → ¬(a.toInt = -2 ^ 31 ∧ b.toInt = -1) →
    Divides a.toInt b.toInt (value .div).toInt (value .rem).toInt
  unsigned : b ≠ 0 → Divides a.toNat b.toNat (value .divu).toNat (value .remu).toNat
  overflow : a.toInt = -2 ^ 31 → b.toInt = -1 →
    (value .div).toInt = -2 ^ 31 ∧ (value .rem).toInt = 0
  zero : b = 0 → value .div = .allOnes 32 ∧ value .divu = .allOnes 32 ∧ value .rem = a ∧
    value .remu = a

open Arithmetic

variable {v : Int}

-- ---------------------------------------------------------------------------
-- Halves
-- ---------------------------------------------------------------------------

theorem upper_product (a b : Int) : upper (product a b) = BitVec.ofInt 32 (a * b / 2 ^ 32) := by
  refine BitVec.eq_of_toNat_eq ?_
  rw [upper, product, BitVec.extractLsb'_toNat, BitVec.toNat_ofInt, BitVec.toNat_ofInt,
    Nat.shiftRight_eq_div_pow]
  omega

theorem halves_signed (hlow : -2 ^ 63 ≤ v) (hhigh : v < 2 ^ 63) :
    v = (BitVec.ofInt 32 (v / 2 ^ 32)).toInt * 2 ^ 32 + (BitVec.ofInt 32 v).toNat := by
  have hfits : (v / 2 ^ 32).bmod (2 ^ 32) = v / 2 ^ 32 := Int.bmod_eq_of_le (by omega) (by omega)
  rw [BitVec.toInt_ofInt, hfits, toNat_ofInt, unsigned]
  omega

theorem halves_unsigned (hlow : 0 ≤ v) (hhigh : v < 2 ^ 64) :
    v = (BitVec.ofInt 32 (v / 2 ^ 32)).toNat * 2 ^ 32 + (BitVec.ofInt 32 v).toNat := by
  rw [toNat_ofInt, toNat_ofInt, unsigned, unsigned]
  omega

-- ---------------------------------------------------------------------------
-- Products
-- ---------------------------------------------------------------------------

section Words

variable (a b : Word)

theorem natAbs_toInt_le : a.toInt.natAbs ≤ 2 ^ 31 := by
  have hlow := a.le_toInt
  have hhigh := a.toInt_lt
  omega

theorem natAbs_toNat_le : (a.toNat : Int).natAbs ≤ 2 ^ 32 - 1 := by
  have hlt := a.isLt
  omega

theorem natAbs_mul_le {u v : Int} {m n : Nat} (hu : u.natAbs ≤ m) (hv : v.natAbs ≤ n) :
    (u * v).natAbs ≤ m * n := by
  rw [Int.natAbs_mul]
  exact Nat.mul_le_mul hu hv

theorem natAbs_signed_lt : (a.toInt * b.toInt).natAbs < 2 ^ 63 :=
  Nat.lt_of_le_of_lt (natAbs_mul_le (natAbs_toInt_le a) (natAbs_toInt_le b)) (by decide)

theorem natAbs_mixed_lt : (a.toInt * b.toNat).natAbs < 2 ^ 63 :=
  Nat.lt_of_le_of_lt (natAbs_mul_le (natAbs_toInt_le a) (natAbs_toNat_le b)) (by decide)

theorem natAbs_unsigned_lt : (a.toNat * b.toNat : Int).natAbs < 2 ^ 64 :=
  Nat.lt_of_le_of_lt (natAbs_mul_le (natAbs_toNat_le a) (natAbs_toNat_le b)) (by decide)

theorem product_exact : (product a.toInt b.toInt).toInt = a.toInt * b.toInt ∧
    (product a.toInt b.toNat).toInt = a.toInt * b.toNat ∧
      ((product a.toNat b.toNat).toNat : Int) = a.toNat * b.toNat := by
  have hsigned := natAbs_signed_lt a b
  have hmixed := natAbs_mixed_lt a b
  have hunsigned := natAbs_unsigned_lt a b
  have hnonneg : (0 : Int) ≤ a.toNat * b.toNat := Int.natCast_nonneg (a.toNat * b.toNat)
  refine ⟨?_, ?_, ?_⟩
  · rw [product, BitVec.toInt_ofInt]
    exact Int.bmod_eq_of_le (by omega) (by omega)
  · rw [product, BitVec.toInt_ofInt]
    exact Int.bmod_eq_of_le (by omega) (by omega)
  · rw [product, BitVec.toNat_ofInt]
    omega

theorem products_value : Products (fun op => op.value a b) a b := by
  have hsigned := natAbs_signed_lt a b
  have hmixed := natAbs_mixed_lt a b
  have hunsigned := natAbs_unsigned_lt a b
  have hnonneg : (0 : Int) ≤ a.toNat * b.toNat := Int.natCast_nonneg (a.toNat * b.toNat)
  -- the low half does not depend on the signs
  have hlow : Operation.mul.value a b = BitVec.ofInt 32 (a.toInt * b.toInt) ∧
      Operation.mul.value a b = BitVec.ofInt 32 (a.toInt * b.toNat) ∧
        Operation.mul.value a b = BitVec.ofInt 32 (a.toNat * b.toNat) := by
    simp only [BitVec.ofInt_mul, BitVec.ofInt_toInt, ofInt_toNat]
    exact ⟨rfl, rfl, rfl⟩
  refine ⟨?_, ?_, ?_⟩
  · rw [hlow.1, show Operation.mulh.value a b = _ from upper_product _ _]
    exact halves_signed (by omega) (by omega)
  · rw [hlow.2.1, show Operation.mulhsu.value a b = _ from upper_product _ _]
    exact halves_signed (by omega) (by omega)
  · rw [hlow.2.2, show Operation.mulhu.value a b = _ from upper_product _ _]
    exact halves_unsigned hnonneg (by omega)

-- ---------------------------------------------------------------------------
-- Quotients
-- ---------------------------------------------------------------------------

theorem divides_tdiv (u : Int) (hv : v ≠ 0) : Divides u v (u.tdiv v) (u.tmod v) where
  eq := (Int.mul_tdiv_add_tmod u v).symm
  lt := by
    rw [Int.natAbs_tmod]
    exact Nat.mod_lt _ (Int.natAbs_pos.mpr hv)
  sign := by
    rw [← Int.sign_eq_zero_iff_zero, Int.sign_tmod]
    split
    · exact .inl rfl
    · exact .inr rfl

variable {a b : Word}

theorem quotient_eq (h : b ≠ 0) : quotient a b = BitVec.ofInt 32 (a.toInt.tdiv b.toInt) := by
  refine BitVec.eq_of_toInt_eq ?_
  rw [quotient, if_neg h, BitVec.toInt_sdiv, BitVec.toInt_ofInt]

theorem remainder_eq (h : b ≠ 0) : remainder a b = BitVec.ofInt 32 (a.toInt.tmod b.toInt) := by
  rw [remainder, if_neg h, ← BitVec.toInt_srem, BitVec.ofInt_toInt]

theorem quotientUnsigned_eq (h : b ≠ 0) :
    quotientUnsigned a b = BitVec.ofInt 32 (a.toNat / b.toNat) := by
  rw [quotientUnsigned, if_neg h, ← Int.natCast_ediv, ← BitVec.toNat_udiv, ofInt_toNat]

theorem remainderUnsigned_eq (h : b ≠ 0) :
    remainderUnsigned a b = BitVec.ofInt 32 (a.toNat % b.toNat) := by
  rw [remainderUnsigned, if_neg h, ← Int.natCast_emod, ← BitVec.toNat_umod, ofInt_toNat]

theorem toInt_quotient (h : b ≠ 0) (hfits : ¬(a.toInt = -2 ^ 31 ∧ b.toInt = -1)) :
    (quotient a b).toInt = a.toInt.tdiv b.toInt := by
  rw [quotient, if_neg h]
  refine BitVec.toInt_sdiv_of_ne_or_ne a b (Decidable.not_and_iff_not_or_not.mp ?_)
  rintro ⟨rfl, rfl⟩
  exact hfits (by decide)

theorem quotients_value (a b : Word) : Quotients (fun op => op.value a b) a b where
  signed hb hfits := by
    have hdiv : (Operation.div.value a b).toInt = _ := toInt_quotient hb hfits
    have hrem : (Operation.rem.value a b).toInt = a.toInt.tmod b.toInt := by
      change (remainder a b).toInt = _
      rw [remainder, if_neg hb, BitVec.toInt_srem]
    rw [hdiv, hrem]
    exact divides_tdiv a.toInt fun h0 => hb (BitVec.eq_of_toInt_eq h0)
  unsigned hb := by
    have hdivu : ((Operation.divu.value a b).toNat : Int) = (a.toNat : Int).tdiv b.toNat := by
      change ((quotientUnsigned a b).toNat : Int) = _
      rw [quotientUnsigned, if_neg hb, BitVec.toNat_udiv, Int.ofNat_tdiv]
    have hremu : ((Operation.remu.value a b).toNat : Int) = (a.toNat : Int).tmod b.toNat := by
      change ((remainderUnsigned a b).toNat : Int) = _
      rw [remainderUnsigned, if_neg hb, BitVec.toNat_umod, Int.ofNat_tmod]
    rw [hdivu, hremu]
    exact divides_tdiv a.toNat fun h0 => hb (BitVec.eq_of_toNat_eq (Int.ofNat_inj.mp h0))
  overflow ha hb := by
    obtain rfl : a = 0x80000000#32 := BitVec.eq_of_toInt_eq ha
    obtain rfl : b = 0xFFFFFFFF#32 := BitVec.eq_of_toInt_eq hb
    exact ⟨by decide, by decide⟩
  zero := by
    rintro rfl
    exact ⟨rfl, rfl, rfl, rfl⟩

end Words

def extended? (op : Operation) (a b : Int) : Option Int :=
  match op with
  | .mul => some (a * b)
  | .mulh => some (signed a * signed b / 2 ^ 32)
  | .mulhsu => some (signed a * unsigned b / 2 ^ 32)
  | .mulhu => some (unsigned a * unsigned b / 2 ^ 32)
  | .div => some (if unsigned b = 0 then -1 else (signed a).tdiv (signed b))
  | .divu => some (if unsigned b = 0 then -1 else unsigned a / unsigned b)
  | .rem => some (if unsigned b = 0 then a else (signed a).tmod (signed b))
  | .remu => some (if unsigned b = 0 then a else unsigned a % unsigned b)
  | _ => none

theorem ofInt_eq_zero_iff : BitVec.ofInt 32 v = 0 ↔ unsigned v = 0 := by
  rw [← BitVec.toNat_inj, ← toNat_ofInt]
  exact Int.ofNat_inj.symm

theorem division_eq {f : Word → Word → Word} {a b zero : Int}
    (hzero : f (BitVec.ofInt 32 a) 0 = BitVec.ofInt 32 zero)
    (hne : BitVec.ofInt 32 b ≠ 0 → f (BitVec.ofInt 32 a) (BitVec.ofInt 32 b) = BitVec.ofInt 32 v) :
    f (BitVec.ofInt 32 a) (BitVec.ofInt 32 b) =
      BitVec.ofInt 32 (if unsigned b = 0 then zero else v) := by
  by_cases hb : unsigned b = 0
  · rw [if_pos hb, ofInt_eq_zero_iff.mpr hb, hzero]
  · rw [if_neg hb, hne (mt ofInt_eq_zero_iff.mp hb)]

theorem extended_eq {op : Operation} (h : op.isMExtension = true) (a b : Int) :
    ∃ v, extended? op a b = some v ∧
      op.value (BitVec.ofInt 32 a) (BitVec.ofInt 32 b) = BitVec.ofInt 32 v := by
  cases op <;> cases h <;> refine ⟨_, rfl, ?_⟩
  case mul => exact (BitVec.ofInt_mul a b).symm
  case mulh =>
    rw [← toInt_ofInt, ← toInt_ofInt]
    exact upper_product _ _
  case mulhsu =>
    rw [← toInt_ofInt, ← toNat_ofInt]
    exact upper_product _ _
  case mulhu =>
    rw [← toNat_ofInt, ← toNat_ofInt]
    exact upper_product _ _
  case div =>
    refine division_eq rfl fun hb => ?_
    rw [← toInt_ofInt, ← toInt_ofInt]
    exact quotient_eq hb
  case divu =>
    refine division_eq rfl fun hb => ?_
    rw [← toNat_ofInt, ← toNat_ofInt]
    exact quotientUnsigned_eq hb
  case rem =>
    refine division_eq rfl fun hb => ?_
    rw [← toInt_ofInt, ← toInt_ofInt]
    exact remainder_eq hb
  case remu =>
    refine division_eq rfl fun hb => ?_
    rw [← toNat_ofInt, ← toNat_ofInt]
    exact remainderUnsigned_eq hb

end Manual

-- ---------------------------------------------------------------------------
-- Steps
-- ---------------------------------------------------------------------------

theorem Operation.action_of_isMExtension {op : Operation} (h : op.isMExtension = true) :
    op.action = .compute op.value ∧ op.format = .r := by
  cases op <;> cases h <;> exact ⟨rfl, rfl⟩

namespace Hart

variable {hart : Hart} {board : Board} {raw : Word} {i : Instruction}

theorem step_of_effect {effect : Effect} (hpc : hart.pc.toNat % 4 = 0)
    (hfetch : Bus.load board hart.pc .word false = .ok raw)
    (hdecode : RiscvBoard.decode raw = .ok i)
    (hgate : i.op.isMExtension = true → hart.config.mExtension = true)
    (heffect : hart.effect board i = .ok effect) :
    hart.step board = (.executed, hart.retire board i effect) := by
  have hzero : raw ≠ 0 := by
    rintro rfl
    cases hdecode
  have hhas : hart.decode raw = .ok i := by
    rw [decode, hdecode]
    refine if_neg ?_
    cases hop : i.op.isMExtension with
    | false => exact Bool.false_ne_true
    | true =>
      rw [hgate hop]
      exact Bool.false_ne_true
  have hplan :=
    plan_eq_retire.mpr ⟨raw, fetch_of_load hpc hfetch, fun h => hzero h.1, hhas, heffect⟩
  rw [step, hplan]

theorem effect_of_isMExtension (h : i.op.isMExtension = true) :
    hart.effect board i =
      .ok (.result i.rd (i.op.value (hart.register i.rs1) (hart.register i.rs2))) := by
  obtain ⟨haction, hformat⟩ := Operation.action_of_isMExtension h
  simp only [effect, haction, hformat, if_true]

theorem step_isMExtension (hm : hart.config.mExtension = true) (hpc : hart.pc.toNat % 4 = 0)
    (hfetch : Bus.load board hart.pc .word false = .ok raw)
    (hdecode : RiscvBoard.decode raw = .ok i) (hop : i.op.isMExtension = true) :
    (hart.step board).1 = .executed ∧
      Manual.Change.Describes
        { pc := (Manual.view hart board).pc + 4,
          written := some (i.op.value (hart.register i.rs1) (hart.register i.rs2)).toNat }
        i.rd (hart, board) (hart.step board).2 := by
  rw [step_of_effect hpc hfetch hdecode (fun _ => hm) (effect_of_isMExtension hop)]
  exact ⟨rfl, Manual.describes_written (rd_lt_of_decode hdecode) (Manual.ofInt_next hart board)
    (Manual.ofInt_toNat _).symm⟩

end Hart

/-- The instructions that multiply and divide are exact, and a step at one of them leaves its
result. -/
theorem multiplication_exact :
    (∀ a b : Word,
      Manual.Products (fun op => op.value a b) a b ∧ Manual.Quotients (fun op => op.value a b) a b ∧
        (Arithmetic.product a.toInt b.toInt).toInt = a.toInt * b.toInt ∧
          (Arithmetic.product a.toInt b.toNat).toInt = a.toInt * b.toNat ∧
            ((Arithmetic.product a.toNat b.toNat).toNat : Int) = a.toNat * b.toNat) ∧
    ∀ (hart : Hart) (board : Board) (raw : Word) (i : Instruction),
      hart.config.mExtension = true → hart.pc.toNat % 4 = 0 →
        Bus.load board hart.pc .word false = .ok raw →
        decode raw = .ok i → i.op.isMExtension = true →
          (hart.step board).1 = .executed ∧
            Manual.Change.Describes
              { pc := (Manual.view hart board).pc + 4,
                written := some (i.op.value (hart.register i.rs1) (hart.register i.rs2)).toNat }
              i.rd (hart, board) (hart.step board).2 := by
  refine ⟨fun a b => ⟨Manual.products_value a b, Manual.quotients_value a b,
    Manual.product_exact a b⟩, ?_⟩
  intro hart board raw i hm hpc hfetch hdecode hop
  exact Hart.step_isMExtension hm hpc hfetch hdecode hop

def remainderBoard : Board where
  rom := #[0x33, 0xE5, 0xC5, 0x02]
  ram := #[]
  romWritable := true
  rom_le := by decide
  ram_le := Nat.zero_le Region.maxMemory

theorem multiplication_exact_rem :
    Manual.Divides (-7) 2 (-3) (-1) ∧
      (let hart := (({} : Hart).setRegister 11 (-7)).setRegister 12 2
      (hart.step remainderBoard).1 = .executed ∧
        Manual.Change.Describes { pc := 4, written := some 0xFFFFFFFF } 10 (hart, remainderBoard)
          (hart.step remainderBoard).2) := by
  obtain ⟨hexact, hstep⟩ := multiplication_exact
  have hdecode : decode 0x02C5E533 =
      .ok { op := .rem, raw := 0x02C5E533, rd := 10, rs1 := 11, rs2 := 12 } := rfl
  refine ⟨(hexact (-7) 2).2.1.signed (by decide) (by decide), ?_⟩
  intro hart
  have hpc : hart.pc = 0 := rfl
  have hload : Bus.load remainderBoard hart.pc .word false = .ok 0x02C5E533 := by
    rw [hpc]
    rfl
  have hvalue : (Operation.rem.value (hart.register 11) (hart.register 12)).toNat = 0xFFFFFFFF := by
    decide
  have hshown := hstep hart remainderBoard 0x02C5E533 _ rfl (by decide) hload hdecode rfl
  rw [hvalue] at hshown
  exact hshown

end RiscvBoard
