import RiscvBoard.Instruction.Encoding
import RiscvBoard.Proofs.Instruction.Decoding
import RiscvBoard.Proofs.Result

/-!
# Encoding and decoding are inverse

A word that decodes is the encoding of its operands, and an encoding decodes to
the operation and the operands that it was made from; only an upper immediate
comes back without its sign. Each direction goes through the formats one by one:
`decode_of_encode` cuts an encoding apart, `encode_operands` puts the pieces of a
word together.
-/

namespace RiscvBoard

open BitVec (toNat_ofNat ofNat_toNat toNat_ofInt setWidth_eq extractLsb'_eq_self
  extractLsb'_append_eq_of_le extractLsb'_append_eq_of_add_le)

def Format.Takes (format : Format) (value : Int) : Prop :=
  (format.evenOnly = true → value % 2 = 0) ∧
    ∀ low high, format.range? = some (low, high) → low ≤ value ∧ value ≤ high

def Format.Holds (format : Format) : Operand → Prop
  | .register number => number < 32
  | .immediate value =>
    (∃ range, format.range? = some range ∧ range.1 ≤ value ∧ value ≤ range.2) ∧
      (format = .b ∨ format = .j → value % 2 = 0) ∧ (format = .u → 0 ≤ value ∧ value ≤ 0xFFFFF)

/-- The operand that names the same field. An upper immediate has no sign. -/
def Format.normal (format : Format) : Operand → Operand
  | .register number => .register number
  | .immediate value => .immediate (if format = .u then value % 2 ^ 20 else value)

theorem Format.Holds.takes {format : Format} {value : Int} (h : format.Holds (.immediate value)) :
    format.Takes value := by
  obtain ⟨⟨range, hr, hin⟩, heven, -⟩ := h
  refine ⟨fun he => heven ?_, fun l u hlu => ?_⟩
  · cases format <;> simp_all [evenOnly]
  · rw [hr] at hlu
    cases hlu
    exact hin

-- ---------------------------------------------------------------------------
-- The fields of operands
-- ---------------------------------------------------------------------------

namespace Operation

variable {op : Operation} {operand : Operand} {operands : List Operand} {w : Word}

theorem registerField_ok {field : BitVec 5} :
    op.registerField operand = .ok field ↔
      ∃ number < 32, operand = .register number ∧ field = BitVec.ofNat 5 number := by
  cases operand with
  | register number => simp only [registerField]; grind
  | immediate value => exact ⟨nofun, nofun⟩

theorem immediateField_ok {field : Word} :
    op.immediateField operand = .ok field ↔
      ∃ value, op.format.Takes value ∧ operand = .immediate value ∧
        field = BitVec.ofInt 32 value := by
  cases operand with
  | register number => exact ⟨nofun, nofun⟩
  | immediate value => simp only [immediateField, Format.Takes]; grind

theorem registerField_of_eq {number : Nat} {field : BitVec 5} (h : number = field.toNat) :
    op.registerField (.register number) = .ok field :=
  registerField_ok.mpr ⟨number, h ▸ field.isLt, rfl, by rw [h, ofNat_toNat, setWidth_eq]⟩

theorem immediateField_of_holds {value : Int} (h : op.format.Holds (.immediate value)) :
    op.immediateField (.immediate value) = .ok (BitVec.ofInt 32 value) :=
  immediateField_ok.mpr ⟨value, h.takes, rfl, rfl⟩

-- ---------------------------------------------------------------------------
-- Encodings decode
-- ---------------------------------------------------------------------------

abbrev opcodeBits (op : Operation) : BitVec 7 := BitVec.ofNat 7 op.row.opcode

abbrev funct3Bits (op : Operation) : BitVec 3 := BitVec.ofNat 3 (op.row.funct3.getD 0)

abbrev funct7Bits (op : Operation) : BitVec 7 := BitVec.ofNat 7 (op.row.funct7.getD 0)

theorem toNat_codes (op : Operation) :
    op.opcodeBits.toNat = op.row.opcode ∧ op.funct3Bits.toNat = op.row.funct3.getD 0 ∧
      op.funct7Bits.toNat = op.row.funct7.getD 0 := by
  simp only [toNat_ofNat]
  exact ⟨Nat.mod_eq_of_lt op.opcode_lt, Nat.mod_eq_of_lt op.funct3_lt,
    Nat.mod_eq_of_lt op.funct7_lt⟩

theorem toNat_number {number : Nat} (h : number < 32) : (BitVec.ofNat 5 number).toNat = number := by
  rw [toNat_ofNat]
  exact Nat.mod_eq_of_lt h

section Layouts

variable {d a b : Nat} {value : Int} {x : Word}

theorem decode_r (hf : op.format = .r) (hd : d < 32) (ha : a < 32) (hb : b < 32)
    (hw : w = op.funct7Bits ++ BitVec.ofNat 5 b ++ BitVec.ofNat 5 a ++ op.funct3Bits ++
      BitVec.ofNat 5 d ++ op.opcodeBits) :
    decode w = .ok { op, raw := w, rd := d, rs1 := a, rs2 := b } := by
  obtain ⟨ho, h3, h7⟩ := op.toNat_codes
  refine decode_eq_ok_iff.mpr ⟨op, fits_iff.mpr ?_, ?_⟩
  all_goals
    simp (disch := decide) only [hw, instruction, hf, Word.opcode_eq, Word.rd_eq, Word.funct3_eq,
      Word.rs1_eq, Word.rs2_eq, Word.funct7_eq, extractLsb'_append_eq_of_le,
      extractLsb'_append_eq_of_add_le, extractLsb'_eq_self, Nat.reduceSub, toNat_number hd,
      toNat_number ha, toNat_number hb, ho, h3, h7, implies_true, and_self]

theorem decode_i (hf : op.format = .i ∨ op.format = .load) (hd : d < 32) (ha : a < 32)
    (hv : op.format.Takes value) (hx : x = BitVec.ofInt 32 value)
    (hw : w = x.extractLsb' 0 12 ++ BitVec.ofNat 5 a ++ op.funct3Bits ++ BitVec.ofNat 5 d ++
      op.opcodeBits) :
    decode w = .ok { op, raw := w, rd := d, rs1 := a, imm := value } := by
  obtain ⟨ho, h3, -⟩ := op.toNat_codes
  have hi : (x.extractLsb' 0 12).toInt = value := by
    have hr := hv.2 (-2048) 2047 (by obtain hf | hf := hf <;> rw [hf] <;> rfl)
    rw [hx]
    exact toInt_extractLsb'_ofInt (by decide) (by omega) (by omega)
  refine decode_eq_ok_iff.mpr ⟨op, fits_iff.mpr ?_, ?_⟩
  all_goals
    obtain hf | hf := hf
    all_goals
      simp (disch := decide) only [hw, instruction, hf, Word.opcode_eq, Word.rd_eq, Word.funct3_eq,
        Word.rs1_eq, Word.immediateI, extractLsb'_append_eq_of_le, extractLsb'_append_eq_of_add_le,
        extractLsb'_eq_self, Nat.reduceSub, toNat_number hd, toNat_number ha, hi, ho, h3,
        Format.fixesFunct7, implies_true, and_self, reduceCtorEq, false_implies]

theorem decode_shift (hf : op.format = .shift) (hd : d < 32) (ha : a < 32)
    (hv : op.format.Takes value) (hx : x = BitVec.ofInt 32 value)
    (hw : w = op.funct7Bits ++ x.extractLsb' 0 5 ++ BitVec.ofNat 5 a ++ op.funct3Bits ++
      BitVec.ofNat 5 d ++ op.opcodeBits) :
    decode w = .ok { op, raw := w, rd := d, rs1 := a, imm := value } := by
  obtain ⟨ho, h3, h7⟩ := op.toNat_codes
  have hi : ((x.extractLsb' 0 5).toNat : Int) = value := by
    have hr := hv.2 0 31 (by rw [hf]; rfl)
    rw [hx, extractLsb'_zero_ofInt value (by decide), toNat_ofInt]
    omega
  refine decode_eq_ok_iff.mpr ⟨op, fits_iff.mpr ?_, ?_⟩
  all_goals
    simp (disch := decide) only [hw, instruction, hf, Word.opcode_eq, Word.rd_eq, Word.funct3_eq,
      Word.rs1_eq, Word.rs2_eq, Word.funct7_eq, extractLsb'_append_eq_of_le,
      extractLsb'_append_eq_of_add_le, extractLsb'_eq_self, Nat.reduceSub, toNat_number hd,
      toNat_number ha, hi, ho, h3, h7, implies_true, and_self]

theorem decode_s (hf : op.format = .s) (ha : a < 32) (hb : b < 32) (hv : op.format.Takes value)
    (hx : x = BitVec.ofInt 32 value)
    (hw : w = x.extractLsb' 5 7 ++ BitVec.ofNat 5 b ++ BitVec.ofNat 5 a ++ op.funct3Bits ++
      x.extractLsb' 0 5 ++ op.opcodeBits) :
    decode w = .ok { op, raw := w, rs1 := a, rs2 := b, imm := value } := by
  obtain ⟨ho, h3, -⟩ := op.toNat_codes
  have hi : (x.extractLsb' 0 12).toInt = value := by
    have hr := hv.2 (-2048) 2047 (by rw [hf]; rfl)
    rw [hx]
    exact toInt_extractLsb'_ofInt (by decide) (by omega) (by omega)
  refine decode_eq_ok_iff.mpr ⟨op, fits_iff.mpr ?_, ?_⟩
  all_goals
    simp (disch := decide) only [hw, instruction, hf, Word.opcode_eq, Word.funct3_eq, Word.rs1_eq,
      Word.rs2_eq, Word.immediateS, extractLsb'_append_eq_of_le, extractLsb'_append_eq_of_add_le,
      extractLsb'_eq_self, Nat.reduceSub, join_store_pieces, toNat_number ha, toNat_number hb, hi,
      ho, h3, Format.fixesFunct7, implies_true, and_self, reduceCtorEq, false_implies]

theorem decode_b (hf : op.format = .b) (ha : a < 32) (hb : b < 32) (hv : op.format.Takes value)
    (hx : x = BitVec.ofInt 32 value)
    (hw : w = x.extractLsb' 12 1 ++ x.extractLsb' 5 6 ++ BitVec.ofNat 5 b ++ BitVec.ofNat 5 a ++
      op.funct3Bits ++ x.extractLsb' 1 4 ++ x.extractLsb' 11 1 ++ op.opcodeBits) :
    decode w = .ok { op, raw := w, rs1 := a, rs2 := b, imm := value } := by
  obtain ⟨ho, h3, -⟩ := op.toNat_codes
  have heven : x.extractLsb' 0 1 = 0#1 := hx ▸ extractLsb'_ofInt_of_even (hv.1 (by rw [hf]; rfl))
  have hi : (x.extractLsb' 0 13).toInt = value := by
    have hr := hv.2 (-4096) 4094 (by rw [hf]; rfl)
    rw [hx]
    exact toInt_extractLsb'_ofInt (by decide) (by omega) (by omega)
  refine decode_eq_ok_iff.mpr ⟨op, fits_iff.mpr ?_, ?_⟩
  all_goals
    simp (disch := decide) only [hw, instruction, hf, Word.opcode_eq, Word.funct3_eq, Word.rs1_eq,
      Word.rs2_eq, Word.immediateB, extractLsb'_append_eq_of_le, extractLsb'_append_eq_of_add_le,
      extractLsb'_eq_self, Nat.reduceSub, join_branch_pieces heven, toNat_number ha,
      toNat_number hb, hi, ho, h3, Format.fixesFunct7, implies_true, and_self, reduceCtorEq,
      false_implies]

theorem decode_u (hf : op.format = .u) (hd : d < 32) (hx : x = BitVec.ofInt 32 value)
    (hw : w = x.extractLsb' 0 20 ++ BitVec.ofNat 5 d ++ op.opcodeBits) :
    decode w = .ok { op, raw := w, rd := d, imm := value % 2 ^ 20 } := by
  obtain ⟨ho, -, -⟩ := op.toNat_codes
  have hi : ((x.extractLsb' 0 20).toNat : Int) = value % 2 ^ 20 := by
    rw [hx, extractLsb'_zero_ofInt value (by decide), toNat_ofInt]
    omega
  refine decode_eq_ok_iff.mpr ⟨op, fits_iff.mpr ?_, ?_⟩
  all_goals
    simp (disch := decide) only [hw, instruction, hf, Word.opcode_eq, Word.rd_eq, Word.immediateU,
      extractLsb'_append_eq_of_le, extractLsb'_append_eq_of_add_le, extractLsb'_eq_self,
      Nat.reduceSub, toNat_number hd, hi, ho, Format.fixesFunct3, Format.fixesFunct7, and_self,
      reduceCtorEq, false_implies]

theorem decode_j (hf : op.format = .j) (hd : d < 32) (hv : op.format.Takes value)
    (hx : x = BitVec.ofInt 32 value)
    (hw : w = x.extractLsb' 20 1 ++ x.extractLsb' 1 10 ++ x.extractLsb' 11 1 ++
      x.extractLsb' 12 8 ++ BitVec.ofNat 5 d ++ op.opcodeBits) :
    decode w = .ok { op, raw := w, rd := d, imm := value } := by
  obtain ⟨ho, -, -⟩ := op.toNat_codes
  have heven : x.extractLsb' 0 1 = 0#1 := hx ▸ extractLsb'_ofInt_of_even (hv.1 (by rw [hf]; rfl))
  have hi : (x.extractLsb' 0 21).toInt = value := by
    have hr := hv.2 (-1048576) 1048574 (by rw [hf]; rfl)
    rw [hx]
    exact toInt_extractLsb'_ofInt (by decide) (by omega) (by omega)
  refine decode_eq_ok_iff.mpr ⟨op, fits_iff.mpr ?_, ?_⟩
  all_goals
    simp (disch := decide) only [hw, instruction, hf, Word.opcode_eq, Word.rd_eq, Word.immediateJ,
      extractLsb'_append_eq_of_le, extractLsb'_append_eq_of_add_le, extractLsb'_eq_self,
      Nat.reduceSub, join_jump_pieces heven, toNat_number hd, hi, ho, Format.fixesFunct3,
      Format.fixesFunct7, and_self, reduceCtorEq, false_implies]

end Layouts

/-- An encoding is taken apart into the operands that it was made from. -/
theorem decode_of_encode (h : op.encode operands = .ok w) :
    ∃ i, decode w = .ok i ∧ i.op = op ∧ i.operands = operands.map op.format.normal := by
  unfold encode at h
  simp only at h
  split at h <;> rename_i hf
  · simp only [bind_eq_ok, pure_eq_ok, registerField_ok] at h
    obtain ⟨_, ⟨d, hd, rfl, rfl⟩, _, ⟨a, ha, rfl, rfl⟩, _, ⟨b, hb, rfl, rfl⟩, hw⟩ := h
    exact ⟨_, decode_r hf hd ha hb hw.symm, rfl, by simp [Instruction.operands, hf, Format.normal]⟩
  · simp only [bind_eq_ok, pure_eq_ok, registerField_ok, immediateField_ok] at h
    obtain ⟨_, ⟨d, hd, rfl, rfl⟩, _, ⟨a, ha, rfl, rfl⟩, _, ⟨value, hv, rfl, rfl⟩, hw⟩ := h
    exact ⟨_, decode_i (.inl hf) hd ha hv rfl hw.symm, rfl,
      by simp [Instruction.operands, hf, Format.normal]⟩
  · simp only [bind_eq_ok, pure_eq_ok, registerField_ok, immediateField_ok] at h
    obtain ⟨_, ⟨d, hd, rfl, rfl⟩, _, ⟨a, ha, rfl, rfl⟩, _, ⟨value, hv, rfl, rfl⟩, hw⟩ := h
    exact ⟨_, decode_i (.inr hf) hd ha hv rfl hw.symm, rfl,
      by simp [Instruction.operands, hf, Format.normal]⟩
  · simp only [bind_eq_ok, pure_eq_ok, registerField_ok, immediateField_ok] at h
    obtain ⟨_, ⟨d, hd, rfl, rfl⟩, _, ⟨a, ha, rfl, rfl⟩, _, ⟨value, hv, rfl, rfl⟩, hw⟩ := h
    exact ⟨_, decode_shift hf hd ha hv rfl hw.symm, rfl,
      by simp [Instruction.operands, hf, Format.normal]⟩
  · simp only [bind_eq_ok, pure_eq_ok, registerField_ok, immediateField_ok] at h
    obtain ⟨_, ⟨b, hb, rfl, rfl⟩, _, ⟨a, ha, rfl, rfl⟩, _, ⟨value, hv, rfl, rfl⟩, hw⟩ := h
    exact ⟨_, decode_s hf ha hb hv rfl hw.symm, rfl,
      by simp [Instruction.operands, hf, Format.normal]⟩
  · simp only [bind_eq_ok, pure_eq_ok, registerField_ok, immediateField_ok] at h
    obtain ⟨_, ⟨a, ha, rfl, rfl⟩, _, ⟨b, hb, rfl, rfl⟩, _, ⟨value, hv, rfl, rfl⟩, hw⟩ := h
    exact ⟨_, decode_b hf ha hb hv rfl hw.symm, rfl,
      by simp [Instruction.operands, hf, Format.normal]⟩
  · simp only [bind_eq_ok, pure_eq_ok, registerField_ok, immediateField_ok] at h
    obtain ⟨_, ⟨d, hd, rfl, rfl⟩, _, ⟨value, -, rfl, rfl⟩, hw⟩ := h
    exact ⟨_, decode_u hf hd rfl hw.symm, rfl, by simp [Instruction.operands, hf, Format.normal]⟩
  · simp only [bind_eq_ok, pure_eq_ok, registerField_ok, immediateField_ok] at h
    obtain ⟨_, ⟨d, hd, rfl, rfl⟩, _, ⟨value, hv, rfl, rfl⟩, hw⟩ := h
    exact ⟨_, decode_j hf hd hv rfl hw.symm, rfl, by simp [Instruction.operands, hf, Format.normal]⟩
  · cases h

-- ---------------------------------------------------------------------------
-- Decoded words encode
-- ---------------------------------------------------------------------------

theorem holds_operands (op : Operation) (w : Word) :
    ∀ operand ∈ (op.instruction w).operands, op.format.Holds operand := by
  have hd := w.rd_lt
  have ha := w.rs1_lt
  have hb := w.rs2_lt
  unfold instruction
  cases hf : op.format with
  | r => simp [Instruction.operands, hf, Format.Holds, hd, ha, hb]
  | i => simp [Instruction.operands, hf, Format.Holds, Format.range?, hd, ha, w.immediateI_range]
  | shift =>
    have hs : (w.rs2 : Int) ≤ 31 := by omega
    simp [Instruction.operands, hf, Format.Holds, Format.range?, hd, ha, hs]
  | load => simp [Instruction.operands, hf, Format.Holds, Format.range?, hd, ha, w.immediateI_range]
  | s => simp [Instruction.operands, hf, Format.Holds, Format.range?, ha, hb, w.immediateS_range]
  | b =>
    obtain ⟨hl, hu, he⟩ := w.immediateB_range
    simp only [Instruction.operands, hf, List.forall_mem_cons]
    exact ⟨ha, hb, ⟨⟨_, rfl, hl, hu⟩, fun _ => he, nofun⟩, nofun⟩
  | u =>
    have hu := w.immediateU_range
    have hl : -0x80000 ≤ w.immediateU := by omega
    simp [Instruction.operands, hf, Format.Holds, Format.range?, hd, hu, hl]
  | j =>
    obtain ⟨hl, hu, he⟩ := w.immediateJ_range
    simp only [Instruction.operands, hf, List.forall_mem_cons]
    exact ⟨hd, ⟨⟨_, rfl, hl, hu⟩, fun _ => he, nofun⟩, nofun⟩

theorem bits_of_fits (h : op.row.fits w.opcode w.funct3 w.funct7 = true) :
    op.opcodeBits = w.extractLsb' 0 7 ∧
      (op.format.fixesFunct3 = true → op.funct3Bits = w.extractLsb' 12 3) ∧
        (op.format.fixesFunct7 = true → op.funct7Bits = w.extractLsb' 25 7) := by
  obtain ⟨ho, h3, h7⟩ := fits_iff.mp h
  refine ⟨?_, fun hf => ?_, fun hf => ?_⟩
  · rw [opcodeBits, ho, Word.opcode_eq, ofNat_toNat, setWidth_eq]
  · rw [funct3Bits, h3 hf, Word.funct3_eq, ofNat_toNat, setWidth_eq]
  · rw [funct7Bits, h7 hf, Word.funct7_eq, ofNat_toNat, setWidth_eq]

/-- The pieces of a word that fits a row make up the word again. -/
theorem encode_operands (h : op.row.fits w.opcode w.funct3 w.funct7 = true) :
    op.encode (op.instruction w).operands = .ok w := by
  obtain ⟨ho, h3, h7⟩ := bits_of_fits h
  have hh := op.holds_operands w
  have hd : op.registerField (.register w.rd) = .ok (w.extractLsb' 7 5) :=
    registerField_of_eq w.rd_eq
  have ha : op.registerField (.register w.rs1) = .ok (w.extractLsb' 15 5) :=
    registerField_of_eq w.rs1_eq
  have hb : op.registerField (.register w.rs2) = .ok (w.extractLsb' 20 5) :=
    registerField_of_eq w.rs2_eq
  unfold instruction at hh ⊢
  unfold encode
  cases hf : op.format <;> rw [hf] at h3 h7 <;>
    simp only [hf, Instruction.operands, List.forall_mem_cons] at hh ⊢
  case r =>
    simp only [hd, ha, hb, ho, h3 rfl, h7 rfl, bind_eq_ok, pure_eq_ok, Except.ok.injEq,
      exists_eq_left']
    exact w.join_registers
  case i =>
    have hi := immediateField_of_holds (hf ▸ hh.2.2.1)
    simp only [hd, ha, hi, ho, h3 rfl, bind_eq_ok, pure_eq_ok, Except.ok.injEq, exists_eq_left']
    rw [w.cut_immediateI]
    exact w.join_immediate
  case shift =>
    have hi := immediateField_of_holds (hf ▸ hh.2.2.1)
    simp only [hd, ha, hi, ho, h3 rfl, h7 rfl, bind_eq_ok, pure_eq_ok, Except.ok.injEq,
      exists_eq_left']
    rw [w.cut_rs2]
    exact w.join_registers
  case load =>
    have hi := immediateField_of_holds (hf ▸ hh.2.1)
    simp only [hd, ha, hi, ho, h3 rfl, bind_eq_ok, pure_eq_ok, Except.ok.injEq, exists_eq_left']
    rw [w.cut_immediateI]
    exact w.join_immediate
  case s =>
    have hi := immediateField_of_holds (hf ▸ hh.2.1)
    simp only [ha, hb, hi, ho, h3 rfl, bind_eq_ok, pure_eq_ok, Except.ok.injEq, exists_eq_left']
    obtain ⟨hhigh, hlow⟩ := w.cut_immediateS
    rw [hhigh, hlow]
    exact w.join_registers
  case b =>
    have hi := immediateField_of_holds (hf ▸ hh.2.2.1)
    simp only [ha, hb, hi, ho, h3 rfl, bind_eq_ok, pure_eq_ok, Except.ok.injEq, exists_eq_left']
    obtain ⟨h12, h5, h1, h11⟩ := w.cut_immediateB
    rw [h12, h5, h1, h11]
    exact w.join_branch
  case u =>
    have hi := immediateField_of_holds (hf ▸ hh.2.1)
    simp only [hd, hi, ho, bind_eq_ok, pure_eq_ok, Except.ok.injEq, exists_eq_left']
    rw [w.cut_immediateU]
    exact w.join_upper
  case j =>
    have hi := immediateField_of_holds (hf ▸ hh.2.1)
    simp only [hd, hi, ho, bind_eq_ok, pure_eq_ok, Except.ok.injEq, exists_eq_left']
    obtain ⟨h20, h1, h11, h12⟩ := w.cut_immediateJ
    rw [h20, h1, h11, h12]
    exact w.join_jump

end Operation

theorem encode_of_decode {w : Word} {i : Instruction} (h : decode w = .ok i) :
    i.encode = .ok w ∧ ∀ operand ∈ i.operands, i.op.format.Holds operand := by
  obtain ⟨op, hfits, rfl⟩ := decode_eq_ok_iff.mp h
  unfold Instruction.encode
  rw [op.op_instruction w]
  exact ⟨Operation.encode_operands hfits, op.holds_operands w⟩

-- ---------------------------------------------------------------------------
-- Both directions
-- ---------------------------------------------------------------------------

/-- A decoded word is the encoding of its operands, which lie in the ranges of the format. An
encoding decodes to its mnemonic and its operands, up to the sign of an upper immediate. -/
theorem encode_decode_inverse :
    (∀ (w : Word) (i : Instruction), decode w = .ok i →
      i.encode = .ok w ∧ ∀ operand ∈ i.operands, i.op.format.Holds operand) ∧
    (∀ (mnemonic : String) (operands : List Operand) (w : Word),
      Operation.encodeNamed mnemonic operands = .ok w →
        ∃ i, decode w = .ok i ∧ Operation.ofMnemonic? mnemonic.toList = some i.op ∧
          i.operands = operands.map i.op.format.normal) := by
  refine ⟨fun w i h => encode_of_decode h, fun mnemonic operands w h => ?_⟩
  unfold Operation.encodeNamed at h
  split at h
  · rename_i op hop
    obtain ⟨i, hi, rfl, hoperands⟩ := Operation.decode_of_encode h
    exact ⟨i, hi, hop, hoperands⟩
  · cases h

/-- A branch backwards, and an upper immediate written with a sign. -/
theorem encode_decode_inverse_beq_lui :
    (∃ i, decode 0xFE000CE3#32 = .ok i ∧ i.encode = .ok 0xFE000CE3#32 ∧
      ∀ operand ∈ i.operands, i.op.format.Holds operand) ∧
    ∃ i, decode 0xFFFFF0B7#32 = .ok i ∧ Operation.ofMnemonic? "LUI".toList = some i.op ∧
      i.operands = [.register 1, .immediate (-1)].map i.op.format.normal :=
  ⟨⟨_, rfl, encode_decode_inverse.1 0xFE000CE3#32 _ rfl⟩,
    encode_decode_inverse.2 "LUI" [.register 1, .immediate (-1)] 0xFFFFF0B7#32 rfl⟩

end RiscvBoard
