import RiscvBoard.Assembly.Statement
import RiscvBoard.Proofs.Register

/-!
# Statements are read as they are spelled

Every spelling of an instruction that can be encoded is a statement with the word
of the instruction, whatever the table of symbols and the address. So is the text
that the instruction is written as, which is one of its spellings.
-/

namespace RiscvBoard

namespace Text

theorem comma_of_isBlank (c : Char) (h : isBlank c = true) : (c == ',') = false := by
  refine beq_eq_false_iff_ne.mpr ?_
  rintro rfl
  exact absurd h (by decide)

theorem pieces_intercalate {texts : List (List Char)} (hne : texts ≠ [])
    (h : ∀ text ∈ texts, ∀ c ∈ text, (c == ',') = false) :
    pieces (· == ',') ([','].intercalate texts) = texts := by
  induction texts with
  | nil => exact absurd rfl hne
  | cons text others ih =>
    have htext := h text List.mem_cons_self
    cases others with
    | nil => rw [List.intercalate_singleton, pieces_of_forall htext]
    | cons next others =>
      have hrest := ih (List.cons_ne_nil next others) fun other ho =>
        h other (List.mem_cons_of_mem text ho)
      rw [List.intercalate_cons_cons, List.append_assoc, List.singleton_append,
        pieces_append htext (by decide), hrest]

end Text

namespace Assembly

variable {symbols : Symbols} {pc w : Word} {op : Operation} {given : List Operand}
  {texts : List (List Char)}

-- ---------------------------------------------------------------------------
-- One operand
-- ---------------------------------------------------------------------------

section Operand

variable {operand displacement base : Operand} {text : List Char} {n : Nat} {value : Int}

theorem range_of_admits {format : Format} (h : format.Admits value) :
    -0x100000 ≤ value ∧ value ≤ 0xFFFFF := by
  cases format <;> simp only [Format.Admits] at h <;> omega

theorem immediate_of_read (hread : Numeral.immediate? text = some value)
    (hrange : -0x100000 ≤ value ∧ value ≤ 0xFFFFF) : immediate text = .ok (.immediate value) := by
  have hfits : fitsWord value = true := by
    simp only [fitsWord, Bool.and_eq_true, decide_eq_true_eq]
    omega
  simp only [immediate, hread, Option.filter_some, hfits, if_true]

theorem target_of_read (hread : Numeral.immediate? text = some value)
    (hrange : -0x100000 ≤ value ∧ value ≤ 0xFFFFF) :
    target symbols pc text = .ok (.immediate value) := by
  rw [target, hread, Option.isSome_some, if_pos rfl]
  exact immediate_of_read hread hrange

theorem exists_displaced? (h : displacement.SpelledAddress base text) : ∃ front behind,
    displaced? text = some (front, behind) ∧ displacement.Spelled front ∧ base.Spelled behind := by
  cases h with
  | @displaced _ _ front gap inner inside hfront hgap hinner hinside =>
    have hopen : ∀ c ∈ front ++ gap, (c == '(') = false := by
      refine List.forall_mem_append.mpr ⟨fun c hc => beq_eq_false_iff_ne.mpr ?_, fun c hc => ?_⟩
      · rintro rfl
        exact absurd (hfront.isNumeric.2 _ hc) (by decide)
      · obtain rfl | rfl := hgap c hc <;> rfl
    have htrim : Text.trim (front ++ gap) = front := by
      rw [Text.trim_append_of_all hgap.all_isBlank, Text.trim_of_tight hfront.tight]
    have hne : ¬front.isEmpty = true :=
      fun hempty => hfront.isNumeric.1 (List.isEmpty_iff.mp hempty)
    refine ⟨front, inner, ?_, hfront, hinner⟩
    rw [displaced?, ← List.append_assoc, Text.splitFirst?_append hopen (by decide)]
    simp only [List.getLast?_concat, List.dropLast_concat, if_true, htrim, if_neg hne,
      hinside.trim hinner.tight]
  | @bare _ inner inside hinner hinside =>
    have hzero : Numeral.Signed 0 ['0'] := .plain (.decimal ⟨1, by decide, by decide, by decide⟩)
    have hsplit : Text.splitFirst? (· == '(') ('(' :: (inside ++ [')'])) =
        some ([], inside ++ [')']) :=
      Text.splitFirst?_eq_some_iff.mpr ⟨'(', rfl, rfl, List.forall_mem_nil _⟩
    refine ⟨['0'], inner, ?_, .immediate hzero, hinner⟩
    rw [displaced?, hsplit]
    simp only [List.getLast?_concat, List.dropLast_concat, if_true, hinside.trim hinner.tight]
    rfl

section Encodable

variable (hencodable : op.Encodable given) (hmem : operand ∈ given) (h : operand.Spelled text)
include hencodable hmem h

theorem register_of_spelled (hkind : operand.kind = .register) : register text = .ok operand := by
  cases h with
  | register h => rw [register, Register.read?_of_spelled (hencodable.registers _ hmem) h]
  | immediate => cases hkind

theorem read_of_spelled (hkind : operand.kind = .immediate) : ∃ value, operand = .immediate value ∧
    Numeral.immediate? text = some value ∧ -0x100000 ≤ value ∧ value ≤ 0xFFFFF := by
  cases h with
  | register => cases hkind
  | immediate h =>
    have hrange := range_of_admits (hencodable.immediates _ hmem)
    exact ⟨_, rfl, Numeral.immediate?_of_signed h (by omega), hrange⟩

theorem immediate_of_spelled (hkind : operand.kind = .immediate) :
    immediate text = .ok operand := by
  obtain ⟨value, rfl, hread, hrange⟩ := read_of_spelled hencodable hmem h hkind
  exact immediate_of_read hread hrange

theorem target_of_spelled (hkind : operand.kind = .immediate) :
    target symbols pc text = .ok operand := by
  obtain ⟨value, rfl, hread, hrange⟩ := read_of_spelled hencodable hmem h hkind
  exact target_of_read hread hrange

end Encodable

end Operand

-- ---------------------------------------------------------------------------
-- All operands
-- ---------------------------------------------------------------------------

theorem operands_of_listed (hencodable : op.Encodable given)
    (hformat : op.format ≠ .load ∧ op.format ≠ .s)
    (h : List.Forall₂ Operand.Spelled given texts) : operands symbols pc op texts = .ok given := by
  have hkinds := hencodable.kinds
  unfold operands
  -- two operands or three; the kinds decide which reader has to succeed on each text
  cases hf : op.format <;> rw [hf] at hkinds
  case load | s => simp [hf] at hformat
  case u | j =>
    obtain ⟨a, b, rfl, ha, hb⟩ := Operand.map_kind_eq_two.mp hkinds
    simp only [List.forall₂_cons_left_iff, List.forall₂_nil_left_iff] at h
    obtain ⟨first, _, hfirst, ⟨second, _, hsecond, rfl, rfl⟩, rfl⟩ := h
    simp only [register_of_spelled hencodable (by simp) hfirst ha,
      immediate_of_spelled hencodable (by simp) hsecond hb,
      target_of_spelled hencodable (by simp) hsecond hb]
    rfl
  all_goals
    obtain ⟨a, b, c, rfl, ha, hb, hc⟩ := Operand.map_kind_eq_three.mp hkinds
    simp only [List.forall₂_cons_left_iff, List.forall₂_nil_left_iff] at h
    obtain ⟨first, _, hfirst, ⟨second, _, hsecond, ⟨third, _, hthird, rfl, rfl⟩, rfl⟩, rfl⟩ := h
    have hregisters := And.intro (register_of_spelled hencodable (by simp) hfirst ha)
      (register_of_spelled hencodable (by simp) hsecond hb)
  case r =>
    simp only [hregisters, register_of_spelled hencodable (by simp) hthird hc]
    rfl
  case b =>
    simp only [hregisters, target_of_spelled hencodable (by simp) hthird hc]
    rfl
  all_goals
    simp only [hregisters, immediate_of_spelled hencodable (by simp) hthird hc]
    rfl

theorem operands_of_spelled (hencodable : op.Encodable given)
    (h : op.SpelledArguments given texts) : operands symbols pc op texts = .ok given := by
  have hkinds := hencodable.kinds
  cases h with
  | listed hformat h => exact operands_of_listed hencodable hformat h
  | @access r displacement base _ _ hformat hr h =>
    obtain ⟨front, behind, hparts, hfront, hbehind⟩ := exists_displaced? h
    have hkind : r.kind = .register ∧ displacement.kind = .immediate ∧ base.kind = .register := by
      obtain hf | hf := hformat <;> simpa [hf, Format.kinds] using hkinds
    unfold operands
    obtain hf | hf := hformat
    all_goals
      simp only [hf, hparts, register_of_spelled hencodable (by simp) hr hkind.1,
        immediate_of_spelled hencodable (by simp) hfront hkind.2.1,
        register_of_spelled hencodable (by simp) hbehind hkind.2.2]
      rfl
  | @jump r displacement base _ _ hop hr h =>
    obtain ⟨front, behind, hparts, hfront, hbehind⟩ := exists_displaced? h
    have hformat : op.format = .i := by rw [hop]; rfl
    have hkind : r.kind = .register ∧ base.kind = .register ∧ displacement.kind = .immediate := by
      simpa [hformat, Format.kinds] using hkinds
    have hr := register_of_spelled hencodable (by simp) hr hkind.1
    have hbase := register_of_spelled hencodable (by simp) hbehind hkind.2.1
    have hdisplacement := immediate_of_spelled hencodable (by simp) hfront hkind.2.2
    unfold operands
    simp only [hformat, hparts]
    rw [hop]
    simp only [hr, hbase, hdisplacement]
    rfl

theorem operandTexts_of_pieces {text : List Char} {texts : List (List Char)}
    (h : (Text.pieces (· == ',') text).map Text.trim = texts) (hne : [] ∉ texts) :
    operandTexts text = texts := by
  unfold operandTexts
  split
  · rename_i hempty
    rw [List.isEmpty_iff.mp hempty] at h
    exact absurd (h ▸ List.mem_singleton.mpr rfl) hne
  · exact h

theorem trim_pieces_of_amid (hne : texts ≠ []) (hwhole : ∀ text ∈ texts, Whole text)
    (h : List.Forall₂ Text.Amid texts pieces) :
    (Text.pieces (· == ',') ([','].intercalate pieces)).map Text.trim = texts := by
  have hall := (List.forall₂_and_left texts pieces).mpr ⟨hwhole, h⟩
  have hcomma : ∀ piece ∈ pieces, ∀ c ∈ piece, (c == ',') = false :=
    forall_mem_of_forall₂
      (fun _ _ h c hc => ne_of_isPiece (isPiece_of_amid h.2 h.1.isPiece c hc) (by decide)) hall
  have htrim : pieces.map Text.trim = texts := by
    clear hne hwhole h hcomma
    induction hall with
    | nil => rfl
    | cons h _ ih => rw [List.map_cons, h.2.trim h.1.tight, ih]
  rw [Text.pieces_intercalate ?_ hcomma, htrim]
  rintro rfl
  exact hne htrim.symm

theorem operandTexts_of_amid (hne : texts ≠ []) (hwhole : ∀ text ∈ texts, Whole text)
    (h : List.Forall₂ Text.Amid texts pieces) :
    operandTexts (Text.trim ([','].intercalate pieces)) = texts :=
  operandTexts_of_pieces
    ((Text.trim_pieces_trim Text.comma_of_isBlank _).trans (trim_pieces_of_amid hne hwhole h))
    fun hmem => (hwhole [] hmem).ne_nil rfl

theorem spelledArguments_ne_nil (hencodable : op.Encodable given)
    (h : op.SpelledArguments given texts) : texts ≠ [] := by
  cases h with
  | listed _ h =>
    rintro rfl
    cases h
    exact hencodable.ne_nil rfl
  | access | jump => exact List.cons_ne_nil _ _

-- ---------------------------------------------------------------------------
-- Blanks around a statement
-- ---------------------------------------------------------------------------

section Statement

variable {text trail mnemonic gap rest : List Char}

theorem mnemonicAndRest_append (htrail : trail.all Text.isBlank = true) :
    mnemonicAndRest (text ++ trail) = mnemonicAndRest text := by
  unfold mnemonicAndRest
  cases hsplit : Text.splitFirst? Text.isBlank text with
  | some parts =>
    obtain ⟨mnemonic, rest⟩ := parts
    obtain ⟨blank, rfl, hblank, hmnemonic⟩ := Text.splitFirst?_eq_some_iff.mp hsplit
    rw [List.append_assoc, List.cons_append, Text.splitFirst?_append hmnemonic hblank]
    exact congrArg (Prod.mk mnemonic) (Text.trim_append_of_all htrail)
  | none =>
    have hclear : ∀ c ∈ text, Text.isBlank c = false := Text.forall_of_splitFirst? hsplit
    cases trail with
    | nil => rw [List.append_nil, hsplit]
    | cons blank trail =>
      rw [List.all_cons, Bool.and_eq_true] at htrail
      have hrest : Text.trim ([] ++ trail) = Text.trim [] := Text.trim_append_of_all htrail.2
      rw [Text.splitFirst?_append hclear htrail.1]
      exact congrArg (Prod.mk text) hrest

theorem encodeStatement_append (htrail : trail.all Text.isBlank = true) :
    encodeStatement symbols pc (text ++ trail) = encodeStatement symbols pc text := by
  rw [encodeStatement, mnemonicAndRest_append htrail, encodeStatement]

theorem encodeStatement_eq_ok_iff : encodeStatement symbols pc text = .ok w ↔ ∃ op given,
    Operation.ofMnemonic? (mnemonicAndRest text).1 = some op ∧
      operands symbols pc op (operandTexts (mnemonicAndRest text).2) = .ok given ∧
        op.encode given = .ok w := by
  unfold encodeStatement
  dsimp only
  cases Operation.ofMnemonic? (mnemonicAndRest text).1 with
  | none => simp
  | some op =>
    cases hgiven : operands symbols pc op (operandTexts (mnemonicAndRest text).2) with
    | error error => simp [hgiven]
    | ok given => cases hencode : op.encode given <;> simp [hgiven, hencode, Except.mapError]

theorem head_of_encodeStatement (h : encodeStatement symbols pc text = .ok w) :
    ∃ c rest, text = c :: rest ∧ Text.isBlank c = false := by
  have hmnemonic : (mnemonicAndRest text).1 ≠ [] := by
    intro hnil
    obtain ⟨op, given, hop, -⟩ := encodeStatement_eq_ok_iff.mp h
    rw [hnil] at hop
    cases hop
  cases text with
  | nil => exact absurd rfl hmnemonic
  | cons c rest =>
    refine ⟨c, rest, rfl, Bool.not_eq_true _ ▸ fun hblank => hmnemonic ?_⟩
    have hsplit : Text.splitFirst? Text.isBlank (c :: rest) = some ([], rest) :=
      Text.splitFirst?_eq_some_iff.mpr ⟨c, rfl, hblank, nofun⟩
    rw [mnemonicAndRest, hsplit]

theorem encodeStatement_trim (h : encodeStatement symbols pc text = .ok w) :
    encodeStatement symbols pc (Text.trim text) = .ok w ∧ Text.trim text ≠ [] := by
  obtain ⟨lead, trail, htext, hlead, htrail, -⟩ := Text.pads_trim text
  obtain ⟨c, rest, hhead, hc⟩ := head_of_encodeStatement h
  cases lead with
  | cons blank lead =>
    rw [htext, List.cons_append, List.cons.injEq] at hhead
    rw [List.all_cons, Bool.and_eq_true, hhead.1, hc] at hlead
    cases hlead.1
  | nil =>
    rw [List.nil_append] at htext
    rw [htext, encodeStatement_append htrail] at h
    refine ⟨h, fun hnil => ?_⟩
    rw [hnil] at h
    cases h

-- ---------------------------------------------------------------------------
-- The whole statement
-- ---------------------------------------------------------------------------

theorem mnemonicAndRest_of_gap (hmnemonic : ∀ c ∈ mnemonic, Text.isBlank c = false)
    (hgap : Text.Gap gap) (hne : gap ≠ []) :
    mnemonicAndRest (mnemonic ++ (gap ++ rest)) = (mnemonic, Text.trim rest) := by
  obtain ⟨blank, gap, rfl⟩ := List.exists_cons_of_ne_nil hne
  obtain ⟨hblank, hgap⟩ := Bool.and_eq_true_iff.mp hgap.all_isBlank
  rw [mnemonicAndRest, List.cons_append, Text.splitFirst?_append hmnemonic hblank]
  exact congrArg (Prod.mk mnemonic) (Text.trim_append_left hgap)

/-- A spelling of an instruction is encoded as the instruction is, whatever the symbols and the
address. -/
theorem encodeStatement_spelled (hencode : op.encode given = .ok w) (h : op.Spelled given text) :
    encodeStatement symbols pc (Text.trim text) = .ok w ∧ Text.trim text ≠ [] := by
  obtain ⟨lead, mnemonic, gap, texts, pieces, rfl, hlead, hmnemonic, hgap, hne, hargs, hpieces⟩ := h
  have hencodable := Operation.encodable_of_encode hencode
  have hnumeric := isNumeric_of_lower op.bare_mnemonic hmnemonic.symm
  have hclear : ∀ c ∈ mnemonic, Text.isBlank c = false :=
    fun c hc => Numeral.isBlank_of_isNumeric (hnumeric c hc)
  have htexts := operandTexts_of_amid (spelledArguments_ne_nil hencodable hargs) hargs.whole hpieces
  rw [Text.trim_append_left hlead.all_isBlank]
  refine encodeStatement_trim (encodeStatement_eq_ok_iff.mpr ⟨op, given, ?_, ?_, hencode⟩)
  · rw [mnemonicAndRest_of_gap hclear hgap hne, Operation.ofMnemonic?_of_lower hmnemonic]
  · rw [mnemonicAndRest_of_gap hclear hgap hne, htexts, operands_of_spelled hencodable hargs]

end Statement

theorem operands_ne_nil (i : Instruction) : i.operands ≠ [] := by
  unfold Instruction.operands
  split <;> exact List.cons_ne_nil _ _

theorem encodeStatement_text {i : Instruction} (h : i.encode = .ok w) :
    encodeStatement symbols pc i.text.toList = .ok w := by
  have hspelled := Operation.spelled_written (Operation.encodable_of_encode h)
  have htrim : Text.trim i.text.toList = i.text.toList :=
    Text.trim_of_tight (i.op.tight_written (operands_ne_nil i)).1
  rw [← htrim]
  exact (encodeStatement_spelled h hspelled).1

end Assembly

end RiscvBoard
