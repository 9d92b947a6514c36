import RiscvBoard.Hart.Step
import RiscvBoard.Proofs.Assembly.Layout
import RiscvBoard.Proofs.Hart.Arithmetic

/-!
# Where jumps to labels go

A branch or a jump that names a label carries the distance from its own address
to the address of the label, and the hart adds the distance to the program
counter. So the instruction goes to the label, before or behind it, whatever the
origin.
-/

namespace RiscvBoard.Assembly

/-- An instruction with an operation that goes to a label, and the label after its last comma. -/
inductive Targets : List Char → Operation → List Char → Prop
  | intro {mnemonic front last label : List Char} {blank : Char} {op : Operation}
      (hop : op.format = .b ∨ op.format = .j) (hmnemonic : Text.lower mnemonic = op.mnemonic.toList)
      (hbare : ∀ c ∈ mnemonic, Text.isBlank c = false) (hblank : Text.isBlank blank = true)
      (hcomma : ',' ∉ last) (hlast : Text.Pads last label) (hlabel : isName label = true) :
      Targets (mnemonic ++ blank :: (front ++ ',' :: last)) op label

/-- A jump or a branch at `pc` goes to `addr`, or to the next instruction if the condition of the
branch does not hold. It does so without a trap, whatever the registers and the bus are. -/
def Reaches (i : Instruction) (pc addr : Word) : Prop :=
  ∀ {β : Type} [Bus β] (hart : Hart) (bus : β), hart.pc = pc →
    let goes := i.op = .jal ∨
      Manual.related i.op (hart.register i.rs1).toNat (hart.register i.rs2).toNat = true
    ∃ effect, hart.effect bus i = .ok effect ∧
      effect.target? = (if goes then some addr else none) ∧
      (hart.retire bus i effect).1.pc = if goes then addr else pc + 4

-- ---------------------------------------------------------------------------
-- Names are no numbers
-- ---------------------------------------------------------------------------

section Names

variable {c : Char} {rest name : List Char}

theorem isBlank_of_continuesName (h : continuesName c = true) : Text.isBlank c = false := by
  rcases Bool.or_eq_true_iff.mp h with h | h
  · exact Text.isBlank_of_isAlphanum h
  · rw [beq_iff_eq.mp h]
    decide

theorem isDigit_of_startsName (h : startsName c = true) : c.isDigit = false := by
  simp only [startsName, Bool.or_eq_true, Text.isAlpha_iff, beq_iff_eq, UInt32.le_iff_toNat_le] at h
  have hends : 'A'.val.toNat = 65 ∧ 'a'.val.toNat = 97 ∧ '9'.val.toNat = 57 := by decide
  rcases h with h | rfl
  · simp only [Char.isDigit, Bool.and_eq_false_iff, decide_eq_false_iff_not, UInt32.le_iff_toNat_le,
      ge_iff_le]
    omega
  · decide

theorem trim_of_isName (h : isName name = true) : Text.trim name = name := by
  cases name with
  | nil => cases h
  | cons c rest =>
    obtain ⟨hc, hrest⟩ := Bool.and_eq_true_iff.mp h
    refine Text.trim_of_tight (Text.tight_of_forall fun d hd => isBlank_of_continuesName ?_)
    rcases List.mem_cons.mp hd with rfl | hd
    · exact continuesName_of_startsName hc
    · exact List.all_eq_true.mp hrest d hd

theorem unsignedImmediate?_of_startsName (h : startsName c = true) :
    Numeral.unsignedImmediate? (c :: rest) = none := by
  have hne : c ≠ '0' := by
    rintro rfl
    cases h
  have hhex : Numeral.hexPart? (c :: rest) = none := by
    unfold Numeral.hexPart?
    split
    · rename_i heq
      exact absurd (List.cons.inj heq).1 hne
    · rename_i heq
      exact absurd (List.cons.inj heq).1 hne
    · rfl
  have hdigits : Numeral.digits 10 0x8000000000000000 0 (c :: rest) = .error .invalidDigit := by
    rw [Numeral.digits, Numeral.digit?_of_not_isDigit (isDigit_of_startsName h)]
  simp only [Numeral.unsignedImmediate?, hhex, Numeral.magnitude?, hdigits]
  rfl

theorem immediate?_of_isName (h : isName name = true) : Numeral.immediate? name = none := by
  unfold Numeral.immediate?
  rw [trim_of_isName h]
  cases name with
  | nil => cases h
  | cons c rest =>
    obtain ⟨hc, -⟩ := Bool.and_eq_true_iff.mp h
    split
    · rename_i heq
      cases heq
      cases hc
    · rename_i heq
      cases heq
      cases hc
    · exact unsignedImmediate?_of_startsName hc

end Names

-- ---------------------------------------------------------------------------
-- The distance to a label
-- ---------------------------------------------------------------------------

section Distance

variable {symbols : Symbols} {pc w : Word} {op : Operation} {statement label : List Char}
  {texts : List (List Char)} {given : List Operand} {operand : Operand}

theorem target_of_isName (hname : isName label = true) (h : target symbols pc label = .ok operand) :
    ∃ addr, symbols.find? label = some addr ∧ operand = .immediate (addr.toNat - pc.toNat) := by
  unfold target at h
  rw [immediate?_of_isName hname, hname] at h
  cases hfind : symbols.find? label with
  | none =>
    rw [hfind] at h
    cases h
  | some addr =>
    rw [hfind] at h
    refine ⟨addr, rfl, ?_⟩
    simp only [Option.isSome_none, Bool.false_eq_true, if_false, Bool.not_true] at h
    split at h
    · cases h
      rfl
    · cases h

theorem operands_target (hop : op.format = .b ∨ op.format = .j)
    (hlast : texts.getLast? = some label) (h : operands symbols pc op texts = .ok given) :
    ∃ operand, target symbols pc label = .ok operand ∧ given.getLast? = some operand := by
  unfold operands at h
  rcases hop with hop | hop <;> rw [hop] at h <;> split at h <;> try contradiction
  · simp only [bind_eq_ok, pure_eq_ok] at h
    obtain ⟨rs1, -, rs2, -, operand, htarget, rfl⟩ := h
    cases hlast
    exact ⟨operand, htarget, rfl⟩
  · simp only [bind_eq_ok, pure_eq_ok] at h
    obtain ⟨rd, -, operand, htarget, rfl⟩ := h
    cases hlast
    exact ⟨operand, htarget, rfl⟩

theorem getLast?_operands {i : Instruction} (hop : i.op.format = .b ∨ i.op.format = .j) :
    i.operands.getLast? = some (.immediate i.imm) := by
  unfold Instruction.operands
  rcases hop with hop | hop <;> rw [hop] <;> rfl

theorem operandTexts_append_last {front last : List Char} (hcomma : ',' ∉ last)
    (hlast : Text.Pads last label) :
    operandTexts (Text.trim (front ++ ',' :: last)) =
      (Text.pieces (· == ',') front).map Text.trim ++ [label] := by
  have hclear : ∀ c ∈ last, (c == ',') = false := by
    intro c hc
    refine beq_eq_false_iff_ne.mpr ?_
    rintro rfl
    exact hcomma hc
  have hpieces := Text.trim_pieces_trim Text.comma_of_isBlank (front ++ ',' :: last)
  rw [Text.pieces_append_last (by rfl) hclear, List.map_append, List.map_singleton,
    Text.trim_of_pads hlast] at hpieces
  unfold operandTexts
  split
  · -- a text with a comma has two pieces at least
    rename_i hempty
    obtain ⟨piece, others, hp⟩ := List.exists_cons_of_ne_nil (Text.pieces_ne_nil (· == ',') front)
    have htwo := congrArg List.length hpieces
    rw [List.isEmpty_iff.mp hempty, hp, List.length_append] at htwo
    simp [Text.pieces] at htwo
  · exact hpieces

theorem getLast?_operandTexts {front last : List Char} (hcomma : ',' ∉ last)
    (hlast : Text.Pads last label) :
    (operandTexts (Text.trim (front ++ ',' :: last))).getLast? = some label := by
  rw [operandTexts_append_last hcomma hlast, List.getLast?_concat]

theorem decode_of_getLast? {offset : Int} (hop : op.format = .b ∨ op.format = .j)
    (hlast : given.getLast? = some (.immediate offset)) (h : op.encode given = .ok w) :
    ∃ i, decode w = .ok i ∧ i.op = op ∧ i.imm = offset := by
  obtain ⟨i, hdecode, rfl, hoperands⟩ := Operation.decode_of_encode h
  refine ⟨i, hdecode, rfl, ?_⟩
  have himm := getLast?_operands hop
  rw [hoperands, List.getLast?_map, hlast] at himm
  have hwide : i.op.format ≠ .u := by
    rintro hu
    rw [hu] at hop
    rcases hop with hop | hop <;> cases hop
  simp only [Option.map_some, Format.normal, if_neg hwide, Option.some.injEq,
    Operand.immediate.injEq] at himm
  exact himm.symm

/-- The word of an instruction that goes to a label has the distance to the label for its
immediate. -/
theorem decode_of_targets (htargets : Targets statement op label)
    (h : encodeStatement symbols pc statement = .ok w) :
    ∃ i addr, decode w = .ok i ∧ i.op = op ∧ symbols.find? label = some addr ∧
      i.imm = addr.toNat - pc.toNat := by
  obtain @⟨mnemonic, front, last, _, blank, _, hop, hmnemonic, hbare, hblank, hcomma, hlast,
    hlabel⟩ := htargets
  have hparts : mnemonicAndRest (mnemonic ++ blank :: (front ++ ',' :: last)) =
      (mnemonic, Text.trim (front ++ ',' :: last)) := by
    rw [mnemonicAndRest, Text.splitFirst?_append hbare hblank]
  obtain ⟨_, given, hread, hgiven, hencode⟩ := encodeStatement_eq_ok_iff.mp h
  rw [hparts] at hread hgiven
  obtain rfl := Option.some.inj ((Operation.ofMnemonic?_of_lower hmnemonic).symm.trans hread)
  obtain ⟨operand, htarget, hoperand⟩ :=
    operands_target hop (getLast?_operandTexts hcomma hlast) hgiven
  obtain ⟨addr, hfind, rfl⟩ := target_of_isName hlabel htarget
  obtain ⟨i, hdecode, hi, himm⟩ := decode_of_getLast? hop hoperand hencode
  exact ⟨i, addr, hdecode, hi, hfind, himm⟩

end Distance

-- ---------------------------------------------------------------------------
-- The way to a label
-- ---------------------------------------------------------------------------

section Way

variable {origin addr pc : Word} {source : String} {program : Program} {texts : List (List Char)}
  {name text statement label : List Char} {k : Nat}

theorem word_of_line (h : assemble origin source = .ok program)
    (htext : (Text.lines source.toList)[k]? = some text)
    (hstatement : instructionOn? text = some statement) :
    ∃ i w, program.lineMap[i]? = some (k + 1) ∧ program.words[i]? = some w ∧
      encodeStatement program.symbols (origin + BitVec.ofNat 32 (4 * i)) statement = .ok w := by
  obtain ⟨-, hlines, hwords⟩ := assemble_eq_ok h
  have hmem :
      (k + 1, encodeStatement program.symbols (addressAt origin (Text.lines source.toList) k)
        statement) ∈
      results program.symbols origin (Text.lines source.toList) :=
    mem_onLines.mpr ⟨k, text, htext, Option.map_eq_some_iff.mpr ⟨statement, hstatement, rfl⟩⟩
  obtain ⟨i, hi⟩ := List.mem_iff_getElem?.mp hmem
  obtain ⟨j, other, found, hother, hfound, hpair, haddr⟩ := results_getElem? hi
  obtain ⟨hnumber, -⟩ := Prod.mk.inj hpair
  obtain rfl : k = j := Nat.succ.inj hnumber
  have hword : (program.words.map Except.ok)[i]? =
      some (encodeStatement program.symbols (addressAt origin (Text.lines source.toList) k)
        statement) := by
    rw [hwords, List.getElem?_map, hi]
    rfl
  rw [List.getElem?_map] at hword
  obtain ⟨w, hw, hencode⟩ := Option.map_eq_some_iff.mp hword
  refine ⟨i, w, ?_, hw, ?_⟩
  · rw [hlines, List.getElem?_map, hi]
    rfl
  · rw [← haddr]
    exact hencode.symm

/-- The table finds a label under its name in any case, and nothing else. -/
theorem find?_iff_labels (h : assemble origin source = .ok program) :
    program.symbols.find? name = some addr ↔
      Labels origin (Text.lines source.toList) (Text.lower name) addr := by
  obtain ⟨hdefine, -, -⟩ := assemble_eq_ok h
  obtain ⟨hentries, hdistinct⟩ := define_eq hdefine
  rw [Symbols.find?_eq_some_iff (hdistinct Symbols.distinct_empty), hentries, labelled_eq_labels,
    List.append_nil, List.mem_reverse, mem_labels]

theorem aligned_of_labels (horigin : origin.toNat % 4 = 0) (h : Labels origin texts name addr) :
    addr.toNat % 4 = 0 := by
  obtain ⟨k, text, label, -, -, -, rfl⟩ := h
  rw [addressAt, BitVec.toNat_add, BitVec.toNat_ofNat]
  omega

/-- The sum of an address and the distance to another one is the other one, also past the last
address. -/
theorem add_distance (pc addr : Word) : pc + BitVec.ofInt 32 (addr.toNat - pc.toNat) = addr := by
  have hpc : BitVec.ofInt 32 pc.toNat = pc := Manual.ofInt_toNat pc
  rw [← Manual.sub_eq, Manual.ofInt_toNat, hpc, BitVec.add_comm, BitVec.sub_add_cancel]

theorem action_of_format_b {op : Operation} (h : op.format = .b) :
    ∃ condition, op.action = .branch condition := by
  cases op <;> cases h <;> exact ⟨_, rfl⟩

theorem eq_jal_of_format_j {op : Operation} (h : op.format = .j) : op = .jal := by
  cases op <;> cases h
  rfl

theorem reaches_of_add {i : Instruction} (hop : i.op.format = .b ∨ i.op.format = .j)
    (hadd : pc + BitVec.ofInt 32 i.imm = addr) (haligned : addr.toNat % 4 = 0) :
    Reaches i pc addr := by
  intro β _ hart bus hpc
  subst hpc
  have hjump : hart.jumpTarget (hart.pc + BitVec.ofInt 32 i.imm) = .ok addr := by
    rw [hadd, Hart.jumpTarget, if_pos haligned]
  rcases hop with hop | hop
  · obtain ⟨condition, haction⟩ := action_of_format_b hop
    have hjal : i.op ≠ .jal := by
      rintro heq
      rw [heq] at hop
      cases hop
    have hcondition :=
      Manual.condition_eq (hart.register i.rs1).toNat (hart.register i.rs2).toNat haction
    rw [Manual.ofInt_toNat, Manual.ofInt_toNat] at hcondition
    by_cases hrelated :
        Manual.related i.op (hart.register i.rs1).toNat (hart.register i.rs2).toNat = true
    · refine ⟨.branch (some addr), ?_, (if_pos (.inr hrelated)).symm, (if_pos (.inr hrelated)).symm⟩
      simp only [Hart.effect, haction, hcondition, hrelated, if_true, hjump]
      rfl
    · have hstays : ¬(i.op = .jal ∨
          Manual.related i.op (hart.register i.rs1).toNat (hart.register i.rs2).toNat = true) :=
        not_or.mpr ⟨hjal, hrelated⟩
      refine ⟨.branch none, ?_, (if_neg hstays).symm, (if_neg hstays).symm⟩
      simp only [Hart.effect, haction, hcondition, hrelated, Bool.false_eq_true, if_false]
  · have hjal := eq_jal_of_format_j hop
    refine ⟨.link i.rd addr, ?_, (if_pos (.inl hjal)).symm, (if_pos (.inl hjal)).symm⟩
    have haction : i.op.action = .jump := by rw [hjal]; rfl
    simp only [Hart.effect, haction, hjump]
    rfl

theorem reaches_of_distance {i : Instruction} (hop : i.op.format = .b ∨ i.op.format = .j)
    (himm : i.imm = addr.toNat - pc.toNat) (haligned : addr.toNat % 4 = 0) : Reaches i pc addr :=
  reaches_of_add hop (himm ▸ add_distance pc addr) haligned

theorem format_of_targets {op : Operation} (h : Targets statement op label) :
    op.format = .b ∨ op.format = .j := by
  cases h
  assumption

/-- A jump to a label and a branch to a label go to the line with the label, wherever it is in the
source. -/
theorem label_reached {op : Operation} {named : Option (List Char)} (horigin : origin.toNat % 4 = 0)
    (h : assemble origin source = .ok program) (htext : (Text.lines source.toList)[k]? = some text)
    (hcarries : Carries text named (some statement)) (htargets : Targets statement op label) :
    ∃ i w addr instruction, program.lineMap[i]? = some (k + 1) ∧ program.words[i]? = some w ∧
      program.symbols.find? label = some addr ∧
      Labels origin (Text.lines source.toList) (Text.lower label) addr ∧
      decode w = .ok instruction ∧ instruction.op = op ∧
      Reaches instruction (origin + BitVec.ofNat 32 (4 * i)) addr := by
  obtain ⟨-, hstatement⟩ := carries_iff.mp hcarries
  obtain ⟨i, w, hline, hword, hencode⟩ := word_of_line h htext hstatement
  obtain ⟨instruction, addr, hdecode, rfl, hfind, himm⟩ := decode_of_targets htargets hencode
  have hlabels := (find?_iff_labels h).mp hfind
  refine ⟨i, w, addr, instruction, hline, hword, hfind, hlabels, hdecode, rfl, ?_⟩
  exact reaches_of_distance (format_of_targets htargets) himm (aligned_of_labels horigin hlabels)

def bothWays : String :=
  "Top: addi a0, a0, 1\n\tBNE a0, a1, tOP # again\n\tjal ra, DONE\naddi a1, a1, 1\ndone:\n"

theorem label_reached_bothWays :
    (∃ i, decode 0xFEB51EE3 = .ok i ∧ i.op = .bne ∧ Reaches i 0xFFFFFFFC 0xFFFFFFF8) ∧
      ∃ i, decode 0x008000EF = .ok i ∧ i.op = .jal ∧ Reaches i 0 8 := by
  have hprogram : assemble 0xFFFFFFF8 bothWays = .ok {
      words := [0x00150513, 0xFEB51EE3, 0x008000EF, 0x00158593]
      lineMap := [1, 2, 3, 4]
      symbols := ⟨[("done".toList, 8), ("top".toList, 0xFFFFFFF8)]⟩ } := rfl
  have hbare : ∀ mnemonic : List Char, mnemonic.all (!Text.isBlank ·) = true →
      ∀ c ∈ mnemonic, Text.isBlank c = false :=
    fun _ hall c hc => Bool.not_eq_true' _ ▸ List.all_eq_true.mp hall c hc
  constructor
  · have htargets : Targets "BNE a0, a1, tOP".toList .bne "tOP".toList :=
      @Targets.intro "BNE".toList "a0, a1".toList " tOP".toList "tOP".toList ' ' .bne (.inl rfl) rfl
        (hbare _ rfl) rfl (by decide) (Text.pads_iff.mpr rfl) rfl
    obtain ⟨i, w, addr, instruction, hline, hword, hfind, -, hdecode, hop, hreaches⟩ :=
      label_reached (k := 1) (by decide) hprogram rfl (carries_iff.mpr ⟨rfl, rfl⟩) htargets
    obtain rfl : i = 1 := by
      rcases i with _ | _ | _ | _ | _ <;> first | rfl | cases hline
    cases hword
    cases hfind
    exact ⟨instruction, hdecode, hop, hreaches⟩
  · have htargets : Targets "jal ra, DONE".toList .jal "DONE".toList :=
      @Targets.intro "jal".toList "ra".toList " DONE".toList "DONE".toList ' ' .jal (.inr rfl) rfl
        (hbare _ rfl) rfl (by decide) (Text.pads_iff.mpr rfl) rfl
    obtain ⟨i, w, addr, instruction, hline, hword, hfind, -, hdecode, hop, hreaches⟩ :=
      label_reached (k := 2) (by decide) hprogram rfl (carries_iff.mpr ⟨rfl, rfl⟩) htargets
    obtain rfl : i = 2 := by
      rcases i with _ | _ | _ | _ | _ <;> first | rfl | cases hline
    cases hword
    cases hfind
    exact ⟨instruction, hdecode, hop, hreaches⟩

end Way

end RiscvBoard.Assembly
