import RiscvBoard.Proofs.Instruction.Acceptance

/-!
# Where the bits stand

The manual draws the words of a format as a row of slices, each with some bits of
a register number, of a code or of the immediate. The slices of an encoding show
the operands that it was made from, and the immediate of a word is the one number
in the range of the format that has the bits in the slices.
-/

namespace RiscvBoard

namespace Manual

def bits (v : Int) (high low : Nat) : Int := v / 2 ^ low % 2 ^ (high + 1 - low)

inductive Part
  | opcode | funct3 | funct7 | rd | rs1 | rs2 | imm
  deriving DecidableEq, Repr

/-- Bits `high` to `low` of a word are bits `top` to `bottom` of a part. -/
structure Slice where
  high : Nat
  low : Nat
  part : Part
  top : Nat
  bottom : Nat
  deriving DecidableEq, Repr

namespace Slice

def opcode : Slice := ⟨6, 0, .opcode, 6, 0⟩

def rd : Slice := ⟨11, 7, .rd, 4, 0⟩

def funct3 : Slice := ⟨14, 12, .funct3, 2, 0⟩

def rs1 : Slice := ⟨19, 15, .rs1, 4, 0⟩

def rs2 : Slice := ⟨24, 20, .rs2, 4, 0⟩

def funct7 : Slice := ⟨31, 25, .funct7, 6, 0⟩

def imm (high low top bottom : Nat) : Slice := ⟨high, low, .imm, top, bottom⟩

def Shows (slice : Slice) (w : Word) (v : Int) : Prop :=
  bits w.toNat slice.high slice.low = bits v slice.top slice.bottom

end Slice

/-- The words of a format from bit 31 down to bit 0. -/
def layout : Format → List Slice
  | .r => [.funct7, .rs2, .rs1, .funct3, .rd, .opcode]
  | .i | .load => [.imm 31 20 11 0, .rs1, .funct3, .rd, .opcode]
  | .shift => [.funct7, .imm 24 20 4 0, .rs1, .funct3, .rd, .opcode]
  | .s => [.imm 31 25 11 5, .rs2, .rs1, .funct3, .imm 11 7 4 0, .opcode]
  | .b =>
    [.imm 31 31 12 12, .imm 30 25 10 5, .rs2, .rs1, .funct3, .imm 11 8 4 1, .imm 7 7 11 11, .opcode]
  | .u => [.imm 31 12 19 0, .rd, .opcode]
  | .j => [.imm 31 31 20 20, .imm 30 21 10 1, .imm 20 20 11 11, .imm 19 12 19 12, .rd, .opcode]

def given : Format → List Part
  | .r => [.rd, .rs1, .rs2]
  | .i | .shift => [.rd, .rs1, .imm]
  | .load => [.rd, .imm, .rs1]
  | .s => [.rs2, .imm, .rs1]
  | .b => [.rs1, .rs2, .imm]
  | .u | .j => [.rd, .imm]

end Manual

def Operand.number : Operand → Int
  | .register number => number
  | .immediate value => value

namespace Manual

def part? (op : Operation) (operands : List Operand) : Part → Option Int
  | .opcode => some op.row.opcode
  | .funct3 => op.row.funct3.map Int.ofNat
  | .funct7 => op.row.funct7.map Int.ofNat
  | part => (((given op.format).zip operands).lookup part).map Operand.number

/-- Every slice of the word shows the part that the manual has there. -/
def Encodes (op : Operation) (operands : List Operand) (w : Word) : Prop :=
  ∀ slice ∈ layout op.format, ∃ v, part? op operands slice.part = some v ∧ slice.Shows w v

def InRange : Format → Int → Prop
  | .r, _ => False
  | .i, v | .load, v | .s, v => -2 ^ 11 ≤ v ∧ v < 2 ^ 11
  | .shift, v => 0 ≤ v ∧ v < 2 ^ 5
  | .b, v => -2 ^ 12 ≤ v ∧ v < 2 ^ 12 ∧ v % 2 = 0
  | .u, v => 0 ≤ v ∧ v < 2 ^ 20
  | .j, v => -2 ^ 20 ≤ v ∧ v < 2 ^ 20 ∧ v % 2 = 0

/-- The immediate of a word of the format: the number that has the bits of all its slices. -/
structure Carries (format : Format) (w : Word) (v : Int) : Prop where
  range : InRange format v
  bits : ∀ slice ∈ layout format, slice.part = .imm → slice.Shows w v

variable {op : Operation} {format : Format} {slice : Slice} {w : Word} {u v : Int} {high low : Nat}

/-- The slices of a format do not overlap and leave no bit out. -/
theorem layout_covers (format : Format) :
    ∀ k < 32, (layout format).countP (fun slice => slice.low ≤ k ∧ k ≤ slice.high) = 1 := by
  cases format <;> decide

-- ---------------------------------------------------------------------------
-- Bits of integers and of words
-- ---------------------------------------------------------------------------

theorem bits_word (w : Word) (high low : Nat) :
    bits w.toNat high low = (w.extractLsb' low (high + 1 - low)).toNat := by
  rw [bits, BitVec.extractLsb'_toNat, Nat.shiftRight_eq_div_pow]
  push_cast
  rfl

theorem bits_emod (v : Int) {n : Nat} (hlow : low ≤ high) (hhigh : high < n) :
    bits (v % 2 ^ n) high low = bits v high low := by
  obtain ⟨rest, hrest⟩ := Nat.exists_eq_add_of_le (Nat.succ_le_of_lt hhigh)
  have hpow : (2 : Int) ^ n = 2 ^ low * (2 ^ (high + 1 - low) * 2 ^ rest) := by
    rw [← Int.pow_add, ← Int.pow_add]
    exact congrArg _ (by omega)
  have hne : (2 : Int) ^ low ≠ 0 := Int.pow_ne_zero (by decide)
  have hv : v = v % 2 ^ n + 2 ^ low * (2 ^ (high + 1 - low) * (2 ^ rest * (v / 2 ^ n))) := by
    have hdiv := Int.emod_add_mul_ediv v (2 ^ n)
    rw [← Int.mul_assoc (2 ^ (high + 1 - low)), ← Int.mul_assoc (2 ^ low), ← hpow]
    exact hdiv.symm
  rw [bits, bits, ← Int.add_mul_emod_self_left (v % 2 ^ n / 2 ^ low) _ (2 ^ rest * (v / 2 ^ n)),
    ← Int.add_mul_ediv_left _ _ hne, ← hv]

theorem bits_ofInt (v : Int) (hlow : low ≤ high) (hhigh : high < 32) :
    bits (BitVec.ofInt 32 v).toNat high low = bits v high low := by
  rw [BitVec.toNat_ofInt, Int.toNat_of_nonneg (Int.emod_nonneg v (by decide))]
  exact bits_emod v hlow hhigh

/-- A slice shows a number if the pieces of the two are equal. -/
theorem shows_of_pieces (hlow : slice.bottom ≤ slice.top) (hhigh : slice.top < 32)
    (h : (w.extractLsb' slice.low (slice.high + 1 - slice.low)).toNat =
      ((BitVec.ofInt 32 v).extractLsb' slice.bottom (slice.top + 1 - slice.bottom)).toNat) :
        slice.Shows w v := by
  rw [Slice.Shows, bits_word, ← bits_ofInt v hlow hhigh, bits_word, h]

theorem bits_opcode (w : Word) : bits w.toNat 6 0 = w.opcode :=
  (bits_word w 6 0).trans (congrArg _ w.opcode_eq.symm)

theorem bits_rd (w : Word) : bits w.toNat 11 7 = w.rd :=
  (bits_word w 11 7).trans (congrArg _ w.rd_eq.symm)

theorem bits_funct3 (w : Word) : bits w.toNat 14 12 = w.funct3 :=
  (bits_word w 14 12).trans (congrArg _ w.funct3_eq.symm)

theorem bits_rs1 (w : Word) : bits w.toNat 19 15 = w.rs1 :=
  (bits_word w 19 15).trans (congrArg _ w.rs1_eq.symm)

theorem bits_rs2 (w : Word) : bits w.toNat 24 20 = w.rs2 :=
  (bits_word w 24 20).trans (congrArg _ w.rs2_eq.symm)

theorem bits_funct7 (w : Word) : bits w.toNat 31 25 = w.funct7 :=
  (bits_word w 31 25).trans (congrArg _ w.funct7_eq.symm)

theorem shows_whole {n : Nat} (hbits : bits w.toNat slice.high slice.low = n)
    (hbottom : slice.bottom = 0) (h : n < 2 ^ (slice.top + 1)) : slice.Shows w n := by
  rw [Slice.Shows, hbits, hbottom, bits, Int.pow_zero, Int.ediv_one, Nat.sub_zero]
  exact (Int.emod_eq_of_lt (Int.natCast_nonneg n) (by exact_mod_cast h)).symm

-- ---------------------------------------------------------------------------
-- Immediates of words
-- ---------------------------------------------------------------------------

theorem Carries.unique (hu : Carries format w u) (hv : Carries format w v) : u = v := by
  obtain ⟨hur, hub⟩ := hu
  obtain ⟨hvr, hvb⟩ := hv
  have hsame : ∀ slice ∈ layout format, slice.part = .imm →
      Manual.bits u slice.top slice.bottom = Manual.bits v slice.top slice.bottom :=
    fun slice hslice himm => (hub slice hslice himm).symm.trans (hvb slice hslice himm)
  cases format <;>
    simp [layout, Slice.imm, Slice.opcode, Slice.rd, Slice.funct3, Slice.rs1, Slice.rs2,
      Slice.funct7, Manual.bits, InRange] at hsame hur hvr <;> omega

def immediate (format : Format) (w : Word) : Int :=
  match format with
  | .r => 0
  | .i | .load => w.immediateI
  | .shift => w.rs2
  | .s => w.immediateS
  | .b => w.immediateB
  | .u => w.immediateU
  | .j => w.immediateJ

theorem inRange_immediate (w : Word) (h : format ≠ .r) : InRange format (immediate format w) := by
  have hi := w.immediateI_range
  have hs := w.immediateS_range
  have hb := w.immediateB_range
  have hu := w.immediateU_range
  have hj := w.immediateJ_range
  have ha := w.rs2_lt
  cases format <;> simp only [InRange, immediate] <;> first | exact absurd rfl h | omega

theorem shows_immediate (w : Word) :
    ∀ slice ∈ layout format, slice.part = .imm → slice.Shows w (immediate format w) := by
  have hpiece : ∀ {high low top bottom : Nat} {v : Int}, bottom ≤ top → top < 32 →
      ((BitVec.ofInt 32 v).extractLsb' bottom (top + 1 - bottom)).toNat =
        (w.extractLsb' low (high + 1 - low)).toNat → (Slice.imm high low top bottom).Shows w v :=
    fun hlow hhigh h => shows_of_pieces hlow hhigh h.symm
  cases format <;> simp only [layout, List.forall_mem_cons]
  case r => exact ⟨nofun, nofun, nofun, nofun, nofun, nofun, nofun⟩
  case i | load =>
    exact ⟨fun _ => hpiece (by decide) (by decide) (congrArg _ w.cut_immediateI), nofun, nofun,
      nofun, nofun, nofun⟩
  case shift =>
    exact ⟨nofun, fun _ => hpiece (by decide) (by decide) (congrArg _ w.cut_rs2), nofun, nofun,
      nofun, nofun, nofun⟩
  case s =>
    obtain ⟨h5, h0⟩ := w.cut_immediateS
    exact ⟨fun _ => hpiece (by decide) (by decide) (congrArg _ h5), nofun, nofun, nofun,
      fun _ => hpiece (by decide) (by decide) (congrArg _ h0), nofun, nofun⟩
  case b =>
    obtain ⟨h12, h5, h1, h11⟩ := w.cut_immediateB
    exact ⟨fun _ => hpiece (by decide) (by decide) (congrArg _ h12),
      fun _ => hpiece (by decide) (by decide) (congrArg _ h5), nofun, nofun, nofun,
      fun _ => hpiece (by decide) (by decide) (congrArg _ h1),
      fun _ => hpiece (by decide) (by decide) (congrArg _ h11), nofun, nofun⟩
  case u =>
    exact ⟨fun _ => hpiece (by decide) (by decide) (congrArg _ w.cut_immediateU), nofun,
      nofun, nofun⟩
  case j =>
    obtain ⟨h20, h1, h11, h12⟩ := w.cut_immediateJ
    exact ⟨fun _ => hpiece (by decide) (by decide) (congrArg _ h20),
      fun _ => hpiece (by decide) (by decide) (congrArg _ h1),
      fun _ => hpiece (by decide) (by decide) (congrArg _ h11),
      fun _ => hpiece (by decide) (by decide) (congrArg _ h12), nofun, nofun, nofun⟩

theorem carries_iff (h : format ≠ .r) : Carries format w v ↔ v = immediate format w := by
  have hcarries : Carries format w (immediate format w) :=
    ⟨inRange_immediate w h, shows_immediate w⟩
  exact ⟨fun hv => hv.unique hcarries, fun hv => hv ▸ hcarries⟩

-- ---------------------------------------------------------------------------
-- Operands in words
-- ---------------------------------------------------------------------------

theorem fields_instruction (op : Operation) (w : Word) :
    (op.instruction w).rd = (if .rd ∈ layout op.format then w.rd else 0) ∧
      (op.instruction w).rs1 = (if .rs1 ∈ layout op.format then w.rs1 else 0) ∧
      (op.instruction w).rs2 = (if .rs2 ∈ layout op.format then w.rs2 else 0) ∧
      (op.instruction w).imm = immediate op.format w := by
  unfold Operation.instruction
  cases op.format <;> exact ⟨rfl, rfl, rfl, rfl⟩

def partOf (i : Instruction) : Part → Int
  | .opcode => i.op.row.opcode
  | .funct3 => (i.op.row.funct3.getD 0 : Nat)
  | .funct7 => (i.op.row.funct7.getD 0 : Nat)
  | .rd => i.rd
  | .rs1 => i.rs1
  | .rs2 => i.rs2
  | .imm => i.imm

theorem lookup_operands (i : Instruction) : ∀ part ∈ given i.op.format,
    (((given i.op.format).zip i.operands).lookup part).map Operand.number =
      some (partOf i part) := by
  unfold Instruction.operands
  cases i.op.format <;> simp only [given, List.forall_mem_cons]
  case u | j => exact ⟨rfl, rfl, nofun⟩
  all_goals exact ⟨rfl, rfl, rfl, nofun⟩

theorem part?_of_given {part : Part} (operands : List Operand) (h : part ∈ given op.format) :
    part? op operands part = (((given op.format).zip operands).lookup part).map Operand.number := by
  obtain ⟨hopcode, hfunct3, hfunct7⟩ :
      .opcode ∉ given op.format ∧ .funct3 ∉ given op.format ∧ .funct7 ∉ given op.format := by
    cases op.format <;> decide
  cases part with
  | rd | rs1 | rs2 | imm => rfl
  | opcode => exact absurd h hopcode
  | funct3 => exact absurd h hfunct3
  | funct7 => exact absurd h hfunct7

theorem part_cases (h : slice ∈ layout format) : slice.part ∈ given format ∨ slice.part = .opcode ∨
    slice.part = .funct3 ∧ format.fixesFunct3 = true ∨ slice.part = .funct7 ∧
      format.fixesFunct7 = true := by
  have hall : ∀ slice ∈ layout format, slice.part ∈ given format ∨ slice.part = .opcode ∨
      slice.part = .funct3 ∧ format.fixesFunct3 = true ∨ slice.part = .funct7 ∧
        format.fixesFunct7 = true := by
    cases format <;> decide
  exact hall slice h

theorem map_ofNat_getD {field : Option Nat} (h : field.isSome = true) :
    field.map Int.ofNat = some ((field.getD 0 : Nat) : Int) := by
  obtain ⟨n, rfl⟩ := Option.isSome_iff_exists.mp h
  rfl

theorem part?_operands {i : Instruction} (h : slice ∈ layout i.op.format) :
    part? i.op i.operands slice.part = some (partOf i slice.part) := by
  rcases part_cases h with hgiven | hopcode | ⟨hfunct3, hfixed⟩ | ⟨hfunct7, hfixed⟩
  · rw [part?_of_given _ hgiven]
    exact lookup_operands i slice.part hgiven
  · rw [hopcode]
    rfl
  · rw [hfunct3]
    exact map_ofNat_getD (i.op.isSome_funct3.trans hfixed)
  · rw [hfunct7]
    exact map_ofNat_getD (i.op.isSome_funct7.trans hfixed)

theorem slice_cases (h : slice ∈ layout format) :
    slice.part = .imm ∨ slice = .opcode ∨ slice = .rd ∨
      slice = .rs1 ∨ slice = .rs2 ∨ slice = .funct3 ∧ format.fixesFunct3 = true ∨
        slice = .funct7 ∧ format.fixesFunct7 = true := by
  have hall : ∀ slice ∈ layout format, slice.part = .imm ∨ slice = .opcode ∨ slice = .rd ∨
      slice = .rs1 ∨ slice = .rs2 ∨ slice = .funct3 ∧ format.fixesFunct3 = true ∨
        slice = .funct7 ∧ format.fixesFunct7 = true := by
    cases format <;> decide
  exact hall slice h

/-- A word shows the parts of the instruction that it is taken apart into. -/
theorem shows_partOf {i : Instruction} (h : decode w = .ok i)
    (hslice : slice ∈ layout i.op.format) : slice.Shows w (partOf i slice.part) := by
  obtain ⟨op, hfits, hi⟩ := decode_eq_ok_iff.mp h
  obtain ⟨hrd, hrs1, hrs2, himm⟩ := fields_instruction op w
  obtain rfl : i.op = op := hi ▸ op.op_instruction w
  rw [← hi] at hrd hrs1 hrs2 himm
  obtain ⟨hopcode, hfunct3, hfunct7⟩ := Operation.fits_iff.mp hfits
  rcases slice_cases hslice with hpart | rfl | rfl | rfl | rfl | ⟨rfl, hfixed⟩ | ⟨rfl, hfixed⟩
  · rw [hpart, partOf, himm]
    exact shows_immediate w slice hslice hpart
  · exact shows_whole ((bits_opcode w).trans (congrArg _ hopcode.symm)) rfl i.op.opcode_lt
  · rw [if_pos hslice] at hrd
    exact shows_whole ((bits_rd w).trans (congrArg _ hrd.symm)) rfl (hrd ▸ w.rd_lt)
  · rw [if_pos hslice] at hrs1
    exact shows_whole ((bits_rs1 w).trans (congrArg _ hrs1.symm)) rfl (hrs1 ▸ w.rs1_lt)
  · rw [if_pos hslice] at hrs2
    exact shows_whole ((bits_rs2 w).trans (congrArg _ hrs2.symm)) rfl (hrs2 ▸ w.rs2_lt)
  · exact shows_whole ((bits_funct3 w).trans (congrArg _ (hfunct3 hfixed).symm)) rfl i.op.funct3_lt
  · exact shows_whole ((bits_funct7 w).trans (congrArg _ (hfunct7 hfixed).symm)) rfl i.op.funct7_lt

theorem encodes_of_decode {i : Instruction} (h : decode w = .ok i) : Encodes i.op i.operands w :=
  fun _ hslice => ⟨_, part?_operands hslice, shows_partOf h hslice⟩

theorem lookup_zip_map (f : Operand → Operand) (parts : List Part) (operands : List Operand)
    (part : Part) :
    (parts.zip (operands.map f)).lookup part = ((parts.zip operands).lookup part).map f := by
  induction parts generalizing operands with
  | nil => rfl
  | cons first parts ih =>
    cases operands with
    | nil => rfl
    | cons operand operands =>
      simp only [List.map_cons, List.zip_cons_cons, List.lookup_cons]
      split <;> simp [ih]

theorem part?_map {f : Operand → Operand} {operands : List Operand} {part : Part}
    (h : part? op (operands.map f) part = some v) : part? op operands part = some v ∨
      ∃ operand, part? op operands part = some operand.number ∧ v = (f operand).number := by
  cases part with
  | opcode | funct3 | funct7 => exact .inl h
  | rd | rs1 | rs2 | imm =>
    change Option.map _ (List.lookup _ _) = _ at h
    rw [lookup_zip_map, Option.map_map] at h
    obtain ⟨operand, hoperand, rfl⟩ := Option.map_eq_some_iff.mp h
    exact .inr ⟨operand, congrArg (Option.map Operand.number) hoperand, rfl⟩

theorem shows_of_normal {operand : Operand} (hslice : slice ∈ layout format)
    (h : slice.Shows w (format.normal operand).number) : slice.Shows w operand.number := by
  have hslices : ∀ slice ∈ layout .u, slice.bottom ≤ slice.top ∧ slice.top < 20 := by decide
  cases operand with
  | register number => exact h
  | immediate value =>
    by_cases hu : format = .u
    · subst hu
      obtain ⟨hbottom, htop⟩ := hslices slice hslice
      exact h.trans (bits_emod value hbottom htop)
    · simpa only [Format.normal, if_neg hu] using h

theorem encodes_of_encode {operands : List Operand} (h : op.encode operands = .ok w) :
    Encodes op operands w := by
  obtain ⟨i, hi, rfl, hoperands⟩ := Operation.decode_of_encode h
  intro slice hslice
  obtain ⟨v, hv, hshows⟩ := encodes_of_decode hi slice hslice
  rw [hoperands] at hv
  rcases part?_map hv with hrow | ⟨operand, hoperand, rfl⟩
  · exact ⟨v, hrow, hshows⟩
  · exact ⟨operand.number, hoperand, shows_of_normal hslice hshows⟩

-- ---------------------------------------------------------------------------
-- The figure
-- ---------------------------------------------------------------------------

/-- The words of accepted operands are drawn as in the manual: every bit is in one slice, and each
slice shows a code of the operation or an operand. The immediates of any word are the numbers that
have the bits of its slices. -/
theorem encodings_drawn :
    (∀ format, ∀ k < 32, (layout format).countP (fun slice => slice.low ≤ k ∧ k ≤ slice.high) = 1) ∧
    (∀ (name : String) (operands : List Operand) (w : Word),
      Operation.encodeNamed name operands = .ok w →
      ∃ op : Operation, op.Named name ∧ Encodes op operands w) ∧
    ∀ (w : Word) (v : Int),
      (Carries .i w v ↔ v = w.immediateI) ∧ (Carries .s w v ↔ v = w.immediateS) ∧
        (Carries .b w v ↔ v = w.immediateB) ∧ (Carries .u w v ↔ v = w.immediateU) ∧
          (Carries .j w v ↔ v = w.immediateJ) := by
  refine ⟨layout_covers, fun name operands w h => ?_, fun w v => ?_⟩
  · obtain ⟨op, hname, hencode⟩ := Operation.encodeNamed_eq_ok h
    exact ⟨op, hname, encodes_of_encode hencode⟩
  · exact ⟨carries_iff nofun, carries_iff nofun, carries_iff nofun, carries_iff nofun,
      carries_iff nofun⟩

/-- The offset of a branch backwards is cut into four slices. -/
theorem encodings_drawn_bgeu :
    (∃ op : Operation, op.Named "BGEU" ∧
      Encodes op [.register 3, .register 30, .immediate (-2734)] 0xD5E1F963#32) ∧
    Carries .b 0xD5E1F963#32 (-2734) := by
  obtain ⟨-, hencodings, himmediates⟩ := encodings_drawn
  exact ⟨hencodings "BGEU" [.register 3, .register 30, .immediate (-2734)] 0xD5E1F963#32 rfl,
    (himmediates 0xD5E1F963#32 (-2734)).2.2.1.mpr (by decide +kernel)⟩

end Manual

end RiscvBoard
