import RiscvBoard.Proofs.Instruction.Layout

/-!
# One row for a word

No word has the fixed bits of two rows. So a table may be searched in any order, and
in passes that look at the more and the less specific rows apart: the word decodes
to the operation that it fits, to its fields there and to zeros elsewhere.
-/

namespace RiscvBoard

namespace Manual

structure Fits (op : Operation) (w : Word) : Prop where
  opcode : bits w.toNat 6 0 = op.row.opcode
  funct3 : ∀ code ∈ op.row.funct3, bits w.toNat 14 12 = code
  funct7 : ∀ code ∈ op.row.funct7, bits w.toNat 31 25 = code

/-- An instruction has the parts of a word that its format draws, and zeros for the others. -/
structure Parses (w : Word) (i : Instruction) : Prop where
  fits : Fits i.op w
  raw : i.raw = w
  rd : i.rd = if .rd ∈ layout i.op.format then bits w.toNat 11 7 else 0
  rs1 : i.rs1 = if .rs1 ∈ layout i.op.format then bits w.toNat 19 15 else 0
  rs2 : i.rs2 = if .rs2 ∈ layout i.op.format then bits w.toNat 24 20 else 0
  imm : if i.op.format = .r then i.imm = 0 else Carries i.op.format w i.imm

end Manual

namespace Operation

/-- Which rows a pass over the table looks at. -/
inductive Pass
  | both
  | first
  | neither
  deriving DecidableEq, Repr

def Pass.takes (pass : Pass) (opcode funct3 funct7 : Nat) (op : Operation) : Bool :=
  op.row.opcode == opcode && match pass with
    | .both => op.row.funct3 == some funct3 && op.row.funct7 == some funct7
    | .first => op.row.funct3 == some funct3 && op.row.funct7 == none
    | .neither => op.row.funct3 == none && op.row.funct7 == none

/-- The first row that the first successful pass takes. -/
def search (passes : List Pass) (rows : List Operation) (opcode funct3 funct7 : Nat) :
    Option Operation :=
  passes.findSome? fun pass => rows.find? (pass.takes opcode funct3 funct7)

def decodeBy (find : Nat → Nat → Nat → Option Operation) (w : Word) :
    Except DecodeError Instruction :=
  match find w.opcode w.funct3 w.funct7 with
  | some op => .ok (op.instruction w)
  | none => .error (if knowsOpcode w.opcode then .unimplemented w else .unknownOpcode w)

variable {op : Operation} {opcode funct3 funct7 : Nat}

-- ---------------------------------------------------------------------------
-- Passes
-- ---------------------------------------------------------------------------

theorem funct7_of_funct3 (op : Operation) (h : op.row.funct3 = none) : op.row.funct7 = none := by
  cases op <;> first | rfl | cases h

theorem fits_iff_takes : op.row.fits opcode funct3 funct7 = true ↔
    ∃ pass : Pass, pass.takes opcode funct3 funct7 op = true := by
  simp only [Row.fits, Pass.takes, Bool.and_eq_true, and_assoc, exists_and_left]
  refine and_congr_right fun _ => ?_
  constructor
  · rintro ⟨h3, h7⟩
    cases hf3 : op.row.funct3 with
    | none => exact ⟨.neither, by simp [op.funct7_of_funct3 hf3]⟩
    | some code3 =>
      cases hf7 : op.row.funct7 with
      | none => exact ⟨.first, by simpa [hf3, hf7, Row.admits] using h3⟩
      | some code7 => exact ⟨.both, by simpa [hf3, hf7, Row.admits] using And.intro h3 h7⟩
  · rintro ⟨pass, h⟩
    cases pass <;> simp only [Bool.and_eq_true, beq_iff_eq] at h <;> simp [h.1, h.2, Row.admits]

/-- Whatever the order of the passes and of the rows, the search finds the row that fits. -/
theorem search_eq {passes : List Pass} {rows : List Operation} (hpasses : ∀ pass, pass ∈ passes)
    (hrows : ∀ op, op ∈ rows) (opcode funct3 funct7 : Nat) :
    search passes rows opcode funct3 funct7 = ofFields? opcode funct3 funct7 := by
  have hfits : ∀ op, search passes rows opcode funct3 funct7 = some op →
      op.row.fits opcode funct3 funct7 = true := by
    intro op h
    obtain ⟨pass, -, hpass⟩ := List.exists_of_findSome?_eq_some h
    exact fits_iff_takes.mpr ⟨pass, List.find?_some hpass⟩
  cases hfound : search passes rows opcode funct3 funct7 with
  | some op => exact (ofFields?_eq_some_iff.mpr (hfits op hfound)).symm
  | none =>
    cases hop : ofFields? opcode funct3 funct7 with
    | none => rfl
    | some op =>
      obtain ⟨pass, htakes⟩ := fits_iff_takes.mp (ofFields?_eq_some_iff.mp hop)
      have hnone := List.findSome?_eq_none_iff.mp hfound pass (hpasses pass)
      exact absurd htakes (List.find?_eq_none.mp hnone op (hrows op))

end Operation

-- ---------------------------------------------------------------------------
-- Words
-- ---------------------------------------------------------------------------

namespace Manual

variable {w : Word} {i : Instruction}

theorem fits_iff {op : Operation} : Fits op w ↔ op.row.fits w.opcode w.funct3 w.funct7 = true := by
  have hadmits : ∀ (field : Option Nat) (value : Nat),
      Row.admits field value = true ↔ ∀ code ∈ field, (value : Int) = code := by
    intro field value
    cases field with
    | none => simp [Row.admits]
    | some code => simpa [Row.admits] using (eq_comm.trans Int.ofNat_inj.symm)
  simp only [Row.fits, Bool.and_eq_true, beq_iff_eq, hadmits, ← bits_funct3, ← bits_funct7]
  constructor
  · rintro ⟨hopcode, hfunct3, hfunct7⟩
    exact ⟨⟨Int.ofNat_inj.mp (hopcode.symm.trans (bits_opcode w)), hfunct3⟩, hfunct7⟩
  · rintro ⟨⟨hopcode, hfunct3⟩, hfunct7⟩
    exact ⟨(bits_opcode w).trans (congrArg _ hopcode.symm), hfunct3, hfunct7⟩

theorem raw_instruction (op : Operation) (w : Word) : (op.instruction w).raw = w := by
  unfold Operation.instruction
  split <;> rfl

theorem Fits.unique {a b : Operation} (ha : Fits a w) (hb : Fits b w) : a = b :=
  Operation.eq_of_fits (fits_iff.mp ha) (fits_iff.mp hb)

theorem parses_instruction {op : Operation} (h : Fits op w) : Parses w (op.instruction w) := by
  obtain ⟨hrd, hrs1, hrs2, himm⟩ := fields_instruction op w
  refine ⟨?_, raw_instruction op w, ?_, ?_, ?_, ?_⟩ <;> rw [op.op_instruction]
  · exact h
  · rw [hrd, bits_rd]
    split <;> rfl
  · rw [hrs1, bits_rs1]
    split <;> rfl
  · rw [hrs2, bits_rs2]
    split <;> rfl
  · rw [himm]
    split
    · rename_i hr
      rw [hr, immediate]
    · rename_i hr
      exact (carries_iff hr).mpr rfl

theorem Parses.unique {j : Instruction} (hi : Parses w i) (hj : Parses w j) : i = j := by
  have hop : i.op = j.op := hi.fits.unique hj.fits
  have hrd := hi.rd
  have hrs1 := hi.rs1
  have hrs2 := hi.rs2
  have himm := hi.imm
  rw [hop] at hrd hrs1 hrs2 himm
  have himms : i.imm = j.imm := by
    have hjimm := hj.imm
    split at himm
    · rename_i hr
      rw [if_pos hr] at hjimm
      exact himm.trans hjimm.symm
    · rename_i hr
      rw [if_neg hr] at hjimm
      exact himm.unique hjimm
  cases i
  cases j
  simp only [Instruction.mk.injEq]
  exact ⟨hop, hi.raw.trans hj.raw.symm, Int.ofNat_inj.mp (hrd.trans hj.rd.symm),
    Int.ofNat_inj.mp (hrs1.trans hj.rs1.symm), Int.ofNat_inj.mp (hrs2.trans hj.rs2.symm), himms⟩

theorem decode_eq_ok_iff_parses : decode w = .ok i ↔ Parses w i := by
  rw [decode_eq_ok_iff]
  constructor
  · rintro ⟨op, hfits, rfl⟩
    exact parses_instruction (fits_iff.mpr hfits)
  · intro h
    exact ⟨i.op, fits_iff.mp h.fits, h.unique (parses_instruction h.fits)⟩

/-- A word decodes to an operation that it fits. -/
theorem exists_decode_iff {op : Operation} : (∃ i, decode w = .ok i ∧ i.op = op) ↔ Fits op w := by
  constructor
  · rintro ⟨i, hi, rfl⟩
    exact (decode_eq_ok_iff_parses.mp hi).fits
  · intro h
    exact ⟨op.instruction w, decode_eq_ok_iff_parses.mpr (parses_instruction h),
      op.op_instruction w⟩

theorem knowsOpcode_iff : Operation.knowsOpcode w.opcode = true ↔
    ∃ op : Operation, op.row.opcode = bits w.toNat 6 0 := by
  rw [Operation.knowsOpcode, List.any_eq_true, bits_opcode]
  constructor
  · rintro ⟨op, -, hop⟩
    exact ⟨op, congrArg _ (beq_iff_eq.mp hop)⟩
  · rintro ⟨op, hop⟩
    exact ⟨op, op.mem_all, beq_iff_eq.mpr (Int.ofNat_inj.mp hop)⟩

theorem ofFields?_eq_none_iff :
    Operation.ofFields? w.opcode w.funct3 w.funct7 = none ↔ ∀ op : Operation, ¬Fits op w := by
  simp only [fits_iff, ← Operation.ofFields?_eq_some_iff, Option.eq_none_iff_forall_ne_some, ne_eq]

theorem decode_eq_error_iff {e : DecodeError} : decode w = .error e ↔
    (∀ op, ¬Fits op w) ∧ e =
      if Operation.knowsOpcode w.opcode then .unimplemented w else .unknownOpcode w := by
  rw [← ofFields?_eq_none_iff, decode]
  cases Operation.ofFields? w.opcode w.funct3 w.funct7 with
  | some op => exact ⟨nofun, fun h => nomatch h.1⟩
  | none => exact ⟨fun h => ⟨rfl, (Except.error.inj h).symm⟩, fun h => congrArg _ h.2.symm⟩

theorem decode_eq_unknownOpcode_iff :
    decode w = .error (.unknownOpcode w) ↔ ∀ op : Operation, op.row.opcode ≠ bits w.toNat 6 0 := by
  rw [decode_eq_error_iff]
  constructor
  · rintro ⟨-, h⟩ op hop
    rw [if_pos (knowsOpcode_iff.mpr ⟨op, hop⟩)] at h
    cases h
  · intro h
    have hknows : ¬Operation.knowsOpcode w.opcode = true := fun hknows =>
      have ⟨op, hop⟩ := knowsOpcode_iff.mp hknows
      h op hop
    exact ⟨fun op hfits => h op hfits.opcode.symm, by rw [if_neg hknows]⟩

theorem decode_eq_unimplemented_iff : decode w = .error (.unimplemented w) ↔
    (∃ op : Operation, op.row.opcode = bits w.toNat 6 0) ∧ ∀ op, ¬Fits op w := by
  rw [decode_eq_error_iff, ← knowsOpcode_iff, and_comm]
  refine and_congr_left fun _ => ?_
  cases Operation.knowsOpcode w.opcode <;> simp

end Manual

theorem Operation.decodeBy_search {passes : List Pass} {rows : List Operation}
    (hpasses : ∀ pass, pass ∈ passes)
    (hrows : ∀ op, op ∈ rows) (w : Word) : decodeBy (search passes rows) w = decode w := by
  rw [decodeBy, search_eq hpasses hrows]
  rfl

/-- A word fits one operation at most, and it decodes to that one however the table is searched. A
word that fits none is refused, and the error says whether another word with its opcode fits one. -/
theorem decode_exact (w : Word) :
    (∀ a b : Operation, Manual.Fits a w → Manual.Fits b w → a = b) ∧
    (∀ i, decode w = .ok i ↔ Manual.Parses w i) ∧
    (∀ op, (∃ i, decode w = .ok i ∧ i.op = op) ↔ Manual.Fits op w) ∧
    (decode w = .error (.unknownOpcode w) ↔
      ∀ op : Operation, op.row.opcode ≠ Manual.bits w.toNat 6 0) ∧
    (decode w = .error (.unimplemented w) ↔
      (∃ op : Operation, op.row.opcode = Manual.bits w.toNat 6 0) ∧ ∀ op, ¬Manual.Fits op w) ∧
    ∀ (passes : List Operation.Pass) (rows : List Operation), (∀ pass, pass ∈ passes) →
      (∀ op, op ∈ rows) → Operation.decodeBy (Operation.search passes rows) w = decode w := by
  refine ⟨fun a b ha hb => ha.unique hb, fun i => Manual.decode_eq_ok_iff_parses,
    fun op => Manual.exists_decode_iff,
    Manual.decode_eq_unknownOpcode_iff, Manual.decode_eq_unimplemented_iff, ?_⟩
  intro passes rows hpasses hrows
  exact Operation.decodeBy_search hpasses hrows w

/-- A `mul`, which differs from an `add` in one bit, with the table backwards and its general rows
first. -/
theorem decode_exact_mul :
    Operation.decodeBy (Operation.search [.neither, .first, .both] Operation.all.reverse)
      0x02C58533#32 =
        .ok { op := .mul, raw := 0x02C58533#32, rd := 10, rs1 := 11, rs2 := 12 } ∧
      ∀ op, Manual.Fits op 0x02C58533#32 → op = .mul := by
  have hdecode : decode 0x02C58533#32 =
      .ok { op := .mul, raw := 0x02C58533#32, rd := 10, rs1 := 11, rs2 := 12 } := rfl
  obtain ⟨hunique, -, hfits, -, -, hsearch⟩ := decode_exact 0x02C58533#32
  refine ⟨?_, fun op hop => hunique op .mul hop ((hfits .mul).mp ⟨_, hdecode, rfl⟩)⟩
  rw [hsearch _ _ (fun pass => by cases pass <;> decide)
    (fun op => List.mem_reverse.mpr op.mem_all)]
  exact hdecode

end RiscvBoard
