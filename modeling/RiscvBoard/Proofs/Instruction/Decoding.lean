import RiscvBoard.Instruction.Decoding
import RiscvBoard.Proofs.Instruction.Fields

/-!
# Which words decode

A word decodes exactly when it has the fixed bits of a row, and then to the
instruction of that row (`decode_eq_ok_iff`). Which function codes are fixed
depends on the format alone (`Operation.fits_iff`).
-/

namespace RiscvBoard

def Format.fixesFunct3 : Format → Bool
  | .u | .j => false
  | _ => true

def Format.fixesFunct7 : Format → Bool
  | .r | .shift => true
  | _ => false

namespace Operation

theorem isSome_funct3 (op : Operation) : op.row.funct3.isSome = op.format.fixesFunct3 := by
  cases op <;> rfl

theorem isSome_funct7 (op : Operation) : op.row.funct7.isSome = op.format.fixesFunct7 := by
  cases op <;> rfl

theorem opcode_lt (op : Operation) : op.row.opcode < 128 := by cases op <;> decide

theorem funct3_lt (op : Operation) : op.row.funct3.getD 0 < 8 := by cases op <;> decide

theorem funct7_lt (op : Operation) : op.row.funct7.getD 0 < 128 := by cases op <;> decide

theorem admits_iff {field : Option Nat} {value : Nat} :
    Row.admits field value = true ↔ (field.isSome = true → field.getD 0 = value) := by
  cases field <;> simp [Row.admits]

theorem fits_iff {op : Operation} {opcode funct3 funct7 : Nat} :
    op.row.fits opcode funct3 funct7 = true ↔
      op.row.opcode = opcode ∧ (op.format.fixesFunct3 = true → op.row.funct3.getD 0 = funct3) ∧
        (op.format.fixesFunct7 = true → op.row.funct7.getD 0 = funct7) := by
  rw [← isSome_funct3, ← isSome_funct7]
  simp only [Row.fits, Bool.and_eq_true, beq_iff_eq, admits_iff, and_assoc]

theorem fits_of_ofFields? {op : Operation} {opcode funct3 funct7 : Nat}
    (h : ofFields? opcode funct3 funct7 = some op) : op.row.fits opcode funct3 funct7 = true :=
  List.find?_some (p := fun op : Operation => op.row.fits opcode funct3 funct7) h

theorem ofFields?_eq_some_iff {op : Operation} {opcode funct3 funct7 : Nat} :
    ofFields? opcode funct3 funct7 = some op ↔ op.row.fits opcode funct3 funct7 = true := by
  refine ⟨fits_of_ofFields?, fun h => ?_⟩
  cases hf : ofFields? opcode funct3 funct7 with
  | none => exact absurd h (List.find?_eq_none.mp hf op (mem_all op))
  | some other => exact congrArg some (eq_of_fits (fits_of_ofFields? hf) h)

end Operation

/-- The row that a word fits says how it is taken apart. -/
theorem decode_eq_ok_iff {w : Word} {i : Instruction} :
    decode w = .ok i ↔
      ∃ op : Operation, op.row.fits w.opcode w.funct3 w.funct7 = true ∧ i = op.instruction w := by
  unfold decode
  constructor
  · intro h
    split at h
    · rename_i op ho
      cases h
      exact ⟨op, Operation.ofFields?_eq_some_iff.mp ho, rfl⟩
    · cases h
  · rintro ⟨op, hf, rfl⟩
    rw [Operation.ofFields?_eq_some_iff.mpr hf]

@[simp] theorem Operation.op_instruction (op : Operation) (w : Word) :
    (op.instruction w).op = op := by
  unfold Operation.instruction
  split <;> rfl

end RiscvBoard
