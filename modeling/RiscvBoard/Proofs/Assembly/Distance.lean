import RiscvBoard.Proofs.Assembly.Errors
import RiscvBoard.Proofs.Assembly.Target
import RiscvBoard.Proofs.Text.Reading

/-!
# Which labels are in reach

The field of a branch or a jump holds a distance, which the hart adds modulo
2 ^ 32, and the addresses of a source go on at zero behind the last one. The
distance to a label is taken between the numbers of the two addresses, though.
So a label that the field can hold the distance to is refused where the way to
it leads past the last address, and only there.
-/

namespace RiscvBoard.Assembly

/-- A branch or a jump to a label. Before the label stand as many registers as the operation has. -/
inductive Goes : List Char → Operation → List Char → Prop
  | intro {mnemonic front last label : List Char} {blank : Char} {op : Operation}
      {numbers : List Nat}
      (hop : op.format = .b ∨ op.format = .j) (hmnemonic : Text.lower mnemonic = op.mnemonic.toList)
      (hbare : ∀ c ∈ mnemonic, Text.isBlank c = false) (hblank : Text.isBlank blank = true)
      (hregisters : (Text.pieces (· == ',') front).map Register.read? = numbers.map some)
      (hcount : numbers.length + 1 = op.format.kinds.length) (hcomma : ',' ∉ last)
      (hlast : Text.Pads last label)
      (hlabel : isName label = true) : Goes (mnemonic ++ blank :: (front ++ ',' :: last)) op label

theorem Goes.format {statement label : List Char} {op : Operation} (h : Goes statement op label) :
    op.format = .b ∨ op.format = .j := by
  cases h
  assumption

-- ---------------------------------------------------------------------------
-- Registers
-- ---------------------------------------------------------------------------

theorem register_trim {piece : List Char} {n : Nat} (h : Register.read? piece = some n) :
    register (Text.trim piece) = .ok (.register n) := by
  rw [register, Register.read?_trim, h]

-- ---------------------------------------------------------------------------
-- One statement
-- ---------------------------------------------------------------------------

section Statement

variable {symbols : Symbols} {pc addr w : Word} {op : Operation} {statement label : List Char}

/-- Two addresses are as far apart as their numbers if the difference of the numbers has a sign and
31 bits. -/
theorem fitsWord_sub_iff (pc addr : Word) :
    fitsWord (addr.toNat - pc.toNat) = true ↔
      (addr.toNat : Int) - pc.toNat = (addr - pc).toInt := by
  have haddr := addr.isLt
  have hpc := pc.isLt
  simp only [fitsWord, Bool.and_eq_true, decide_eq_true_eq, BitVec.toInt_eq_toNat_bmod,
    BitVec.toNat_sub, Int.bmod]
  omega

theorem target_of_find? (hlabel : isName label = true) (hfind : symbols.find? label = some addr) :
    target symbols pc label =
      if fitsWord (addr.toNat - pc.toNat) then .ok (.immediate (addr.toNat - pc.toNat))
      else .error (.invalidImmediate (String.ofList label)) := by
  rw [target, immediate?_of_isName hlabel, hlabel, hfind]
  rfl

section Given

variable {pieces : List (List Char)} {numbers : List Nat} (hop : op.format = .b ∨ op.format = .j)
  (hcount : numbers.length + 1 = op.format.kinds.length)
  (hregisters : pieces.map Register.read? = numbers.map some)
include hop hcount hregisters

theorem shaped_of_registers (offset : Int) :
    op.Shaped (numbers.map .register ++ [.immediate offset]) := by
  constructor
  · -- two registers before the label of a branch, one before that of a jump
    rcases hop with hop | hop <;> rw [hop] at hcount ⊢
    · obtain ⟨a, b, rfl⟩ := List.length_eq_two.mp (Nat.succ.inj hcount)
      rfl
    · obtain ⟨a, rfl⟩ := List.length_eq_one_iff.mp (Nat.succ.inj hcount)
      rfl
  · intro number hnumber
    have hmem : number ∈ numbers := by simpa using hnumber
    have hread : some number ∈ pieces.map Register.read? := hregisters ▸ List.mem_map_of_mem hmem
    obtain ⟨piece, -, hpiece⟩ := List.mem_map.mp hread
    exact (Register.read?_eq_some_iff.mp hpiece).1

theorem operands_of_registers (symbols : Symbols) (pc : Word) (label : List Char) :
    operands symbols pc op (pieces.map Text.trim ++ [label]) =
      (target symbols pc label).map fun operand => numbers.map .register ++ [operand] := by
  unfold operands
  rcases hop with hop | hop <;> rw [hop] at hcount ⊢
  · obtain ⟨a, b, rfl⟩ := List.length_eq_two.mp (Nat.succ.inj hcount)
    obtain ⟨first, _, rfl, ha, hrest⟩ := List.map_eq_cons_iff.mp hregisters
    obtain ⟨second, _, rfl, hb, hrest⟩ := List.map_eq_cons_iff.mp hrest
    obtain rfl := List.map_eq_nil_iff.mp hrest
    simp only [List.map_cons, List.map_nil, List.cons_append, List.nil_append, register_trim ha,
      register_trim hb]
    cases target symbols pc label <;> rfl
  · obtain ⟨a, rfl⟩ := List.length_eq_one_iff.mp (Nat.succ.inj hcount)
    obtain ⟨first, _, rfl, ha, hrest⟩ := List.map_eq_cons_iff.mp hregisters
    obtain rfl := List.map_eq_nil_iff.mp hrest
    simp only [List.map_cons, List.map_nil, List.cons_append, List.nil_append, register_trim ha]
    cases target symbols pc label <;> rfl

end Given

theorem encodeStatement_of_goes (h : Goes statement op label) :
    isName label = true ∧ ∃ registers : List Operand,
      (∀ offset, op.Shaped (registers ++ [.immediate offset])) ∧
      ∀ symbols pc, encodeStatement symbols pc statement =
        (target symbols pc label).bind fun operand =>
          (op.encode (registers ++ [operand])).mapError .unencodable := by
  obtain @⟨mnemonic, front, last, _, blank, _, numbers, hop, hmnemonic, hbare, hblank, hregisters,
    hcount, hcomma, hlast, hlabel⟩ := h
  refine ⟨hlabel, numbers.map .register, shaped_of_registers hop hcount hregisters,
    fun symbols pc => ?_⟩
  have hparts : mnemonicAndRest (mnemonic ++ blank :: (front ++ ',' :: last)) =
      (mnemonic, Text.trim (front ++ ',' :: last)) := by
    rw [mnemonicAndRest, Text.splitFirst?_append hbare hblank]
  rw [encodeStatement, hparts]
  dsimp only
  rw [Operation.ofMnemonic?_of_lower hmnemonic, operandTexts_append_last hcomma hlast]
  dsimp only
  rw [operands_of_registers hop hcount hregisters]
  cases target symbols pc label <;> rfl

/-- There is a word that has the distance for its immediate. The statement has this word if the
distance is the difference of the numbers of the addresses, and else the label is refused. -/
theorem encodeStatement_of_admits (hgoes : Goes statement op label)
    (hfind : symbols.find? label = some addr) (hadmits : op.format.Admits (addr - pc).toInt) :
    ∃ w i, decode w = .ok i ∧ i.op = op ∧ i.imm = (addr - pc).toInt ∧
      encodeStatement symbols pc statement =
        if (addr.toNat : Int) - pc.toNat = (addr - pc).toInt then .ok w
        else .error (.invalidImmediate (String.ofList label)) := by
  obtain ⟨hlabel, registers, hshaped, hencode⟩ := encodeStatement_of_goes hgoes
  have hlast : Operand.immediate (addr - pc).toInt ∈
      registers ++ [.immediate (addr - pc).toInt] := by simp
  have hencodable : op.Encodable (registers ++ [.immediate (addr - pc).toInt]) :=
    ⟨hshaped _, fun value hvalue => (hshaped _).immediate_unique hlast hvalue ▸ hadmits⟩
  obtain ⟨w, hw⟩ := Operation.encode_eq_ok_iff.mpr hencodable
  obtain ⟨i, hdecode, hi, himm⟩ := decode_of_getLast? hgoes.format List.getLast?_concat hw
  refine ⟨w, i, hdecode, hi, himm, ?_⟩
  rw [hencode, target_of_find? hlabel hfind]
  by_cases hdistance : (addr.toNat : Int) - pc.toNat = (addr - pc).toInt
  · rw [if_pos ((fitsWord_sub_iff pc addr).mpr hdistance), if_pos hdistance, hdistance]
    show (op.encode (registers ++ [.immediate (addr - pc).toInt])).mapError
      Error.unencodable = .ok w
    rw [hw]
    rfl
  · rw [if_neg fun hfits => hdistance ((fitsWord_sub_iff pc addr).mp hfits), if_neg hdistance]
    rfl

end Statement

-- ---------------------------------------------------------------------------
-- One line of a source
-- ---------------------------------------------------------------------------

section Line

variable {origin : Word} {source : String} {text statement label : List Char}
  {named : Option (List Char)} {op : Operation} {j k : Nat}

/-- The instruction on line `k` goes to the label that line `j` introduces, and its field can hold
the distance from address to address. A word with the distance takes the hart to the label. The line
has this word and no error but one about a label of its own if the distance is the difference of the
numbers of the addresses too; if it is not, the label is refused. -/
theorem label_in_reach (htext : (Text.lines source.toList)[k]? = some text)
    (hcarries : Carries text named (some statement)) (hgoes : Goes statement op label)
    (hlabel : Introduces (Text.lines source.toList) j (Text.lower label)) :
    let pc := addressAt origin (Text.lines source.toList) k
    let addr := addressAt origin (Text.lines source.toList) j
    op.format.Admits (addr - pc).toInt →
      ∃ w i, decode w = .ok i ∧ i.op = op ∧ i.imm = (addr - pc).toInt ∧
        (addr.toNat % 4 = 0 → Reaches i pc addr) ∧
        ((addr.toNat : Int) - pc.toNat = (addr - pc).toInt →
          encodeStatement (collectSymbols origin source).1 pc statement = .ok w ∧
            ∀ e ∈ reported (assemble origin source), e.line = k + 1 → e.error.aboutLabel = true) ∧
        ((addr.toNat : Int) - pc.toNat ≠ (addr - pc).toInt →
          ⟨k + 1, .invalidImmediate (String.ofList label)⟩ ∈
            reported (assemble origin source)) := by
  intro pc addr hadmits
  have hstatement : instructionAt? (Text.lines source.toList) k = some statement := by
    rw [instructionAt?, htext]
    exact (carries_iff.mp hcarries).2
  have hfind : (collectSymbols origin source).1.find? label = some addr :=
    find?_collectSymbols.mpr ⟨j, hlabel, rfl⟩
  obtain ⟨w, i, hdecode, rfl, himm, hencode⟩ := encodeStatement_of_admits hgoes hfind hadmits
  have hadd : pc + BitVec.ofInt 32 i.imm = addr := by
    rw [himm, BitVec.ofInt_toInt, BitVec.add_comm, BitVec.sub_add_cancel]
  refine ⟨w, i, hdecode, rfl, himm, reaches_of_add hgoes.format hadd, fun hdistance => ?_,
    fun hdistance => ?_⟩
  · rw [if_pos hdistance] at hencode
    refine ⟨hencode, fun e he hline => ?_⟩
    rcases mem_complaints.mp (mem_reported.mp he) with
      ⟨_, _, _, -, rfl⟩ | ⟨number, error, hfails, rfl⟩
    · rfl
    · obtain rfl : number = k := Nat.succ.inj hline
      obtain ⟨other, hother, herror⟩ := hfails
      cases hother.symm.trans hstatement
      cases herror.symm.trans hencode
  · rw [if_neg hdistance] at hencode
    exact mem_reported.mpr (mem_complaints.mpr (.inr ⟨k, _, ⟨statement, hstatement, hencode⟩, rfl⟩))

def shortLoop : String := "top: addi a0, a0, 1\nbne a0, a1, top\n"

/-- At zero the branch of the loop has a word. With the last address between its two lines it has
none, but there is a word that takes the hart back. -/
theorem label_in_reach_shortLoop :
    (∃ w i, decode w = .ok i ∧ i.op = .bne ∧ i.imm = -4 ∧ Reaches i 4 0 ∧
      encodeStatement (collectSymbols 0 shortLoop).1 4 "bne a0, a1, top".toList = .ok w) ∧
    ∃ w i, decode w = .ok i ∧ i.op = .bne ∧ i.imm = -4 ∧ Reaches i 0 0xFFFFFFFC ∧
      ⟨2, .invalidImmediate "top"⟩ ∈ reported (assemble 0xFFFFFFFC shortLoop) := by
  have hall : "bne".toList.all (!Text.isBlank ·) = true := rfl
  have hbare : ∀ c ∈ "bne".toList, Text.isBlank c = false :=
    fun c hc => Bool.not_eq_true' _ ▸ List.all_eq_true.mp hall c hc
  have hgoes : Goes "bne a0, a1, top".toList .bne "top".toList :=
    @Goes.intro "bne".toList "a0, a1".toList " top".toList "top".toList ' ' .bne [10, 11]
      (.inl rfl) rfl
      hbare rfl rfl rfl (by decide) (Text.pads_iff.mpr rfl) rfl
  have hlabel : Introduces (Text.lines shortLoop.toList) 0 (Text.lower "top".toList) := ⟨rfl, nofun⟩
  constructor
  · obtain ⟨w, i, hdecode, hop, himm, hreaches, hword, -⟩ :=
      @label_in_reach 0 shortLoop _ _ _ _ _ 0 1 rfl
        (carries_iff.mpr ⟨rfl, rfl⟩) hgoes hlabel (by decide)
    exact ⟨w, i, hdecode, hop, himm, hreaches (by decide), (hword (by decide)).1⟩
  · obtain ⟨w, i, hdecode, hop, himm, hreaches, -, hrefused⟩ :=
      @label_in_reach 0xFFFFFFFC shortLoop _ _ _ _ _ 0 1 rfl
        (carries_iff.mpr ⟨rfl, rfl⟩) hgoes hlabel (by decide)
    exact ⟨w, i, hdecode, hop, himm, hreaches (by decide), hrefused (by decide)⟩

/-- A jump over the last address, to the label behind it, is refused. -/
theorem not_assembles_jumpAhead :
    (collectSymbols 0xFFFFFFFC "jal x0, next\nnext:\n").1.find? "next".toList = some 0 ∧
      Format.j.Admits ((0 : Word) - 0xFFFFFFFC).toInt ∧
      assemble 0xFFFFFFFC "jal x0, next\nnext:\n" = .error [⟨1, .invalidImmediate "next"⟩] := by
  refine ⟨rfl, by decide, ?_⟩
  have herror : complaints 0xFFFFFFFC "jal x0, next\nnext:\n" = [⟨1, .invalidImmediate "next"⟩] :=
    rfl
  obtain ⟨program, h⟩ := exists_assemble_eq_ite 0xFFFFFFFC "jal x0, next\nnext:\n"
  rw [h, herror, List.mergeSort_singleton]
  rfl

end Line

end RiscvBoard.Assembly
