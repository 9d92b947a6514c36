import RiscvBoard.Instruction.Decoding
import RiscvBoard.Proofs.Text.Numeral

/-!
# The characters of written instructions

Mnemonics, register names and numbers are made of bare characters, which mean
nothing to the grammar of a line. All other characters of an instruction are the
blanks, commas and parentheses that `Operation.written` puts between them.
-/

namespace RiscvBoard

def isBare (c : Char) : Bool := c.isAlphanum || c == '-'

def isWritten (c : Char) : Bool := isBare c || [' ', ',', '(', ')'].contains c

section Characters

variable {c : Char}

theorem isBare_of_isDigit (h : c.isDigit = true) : isBare c = true := by
  simp only [isBare, Char.isAlphanum, h, Bool.or_true, Bool.true_or]

theorem isBlank_of_isBare (h : isBare c = true) : Text.isBlank c = false := by
  obtain h | h := Bool.or_eq_true_iff.mp h
  · exact Text.isBlank_of_isAlphanum h
  · cases beq_iff_eq.mp h
    decide

theorem isWritten_of_isBare (h : isBare c = true) : isWritten c = true := by
  rw [isWritten, h, Bool.true_or]

theorem ne_of_isWritten {other : Char} (h : isWritten c = true) (ho : isWritten other = false) :
    (c == other) = false :=
  beq_eq_false_iff_ne.mpr fun he => by rw [he, ho] at h; cases h

end Characters

-- ---------------------------------------------------------------------------
-- Mnemonics and operands
-- ---------------------------------------------------------------------------

def Bare (text : String) : Prop := text.toList ≠ [] ∧ ∀ c ∈ text.toList, isBare c = true

theorem Bare.tight {text : String} (h : Bare text) : Text.Tight text.toList :=
  Text.tight_of_forall fun c hc => isBlank_of_isBare (h.2 c hc)

theorem Operation.bare_mnemonic (op : Operation) : Bare op.mnemonic := by
  have hall : ∀ op ∈ all, op.mnemonic.toList ≠ [] ∧ op.mnemonic.toList.all isBare = true := by
    decide +kernel
  exact ⟨(hall op op.mem_all).1, List.all_eq_true.mp (hall op op.mem_all).2⟩

theorem Register.bare_name (number : Nat) : Bare (Register.name number) := by
  have hall : ∀ n : Fin 32, (names.get n).toList ≠ [] ∧ (names.get n).toList.all isBare = true := by
    decide +kernel
  obtain ⟨hne, hbare⟩ := hall ⟨number % 32, Nat.mod_lt _ (by decide)⟩
  exact ⟨hne, List.all_eq_true.mp hbare⟩

theorem bare_toString (value : Int) : Bare (toString value) := by
  refine ⟨Numeral.toString_ne_nil value, fun c hc => ?_⟩
  obtain h | rfl := Numeral.isDigit_or_eq_of_mem_toString hc
  · exact isBare_of_isDigit h
  · decide

theorem Operand.bare_text (operand : Operand) : Bare operand.text := by
  cases operand with
  | register number => exact Register.bare_name number
  | immediate value => exact bare_toString value

-- ---------------------------------------------------------------------------
-- Arguments
-- ---------------------------------------------------------------------------

/-- The texts between the commas of a written instruction. An address is one of them. -/
def Operation.arguments (op : Operation) (operands : List Operand) : List String :=
  match op.format, operands with
  | .load, [r, displacement, base] | .s, [r, displacement, base] =>
    [r.text, displacement.displaced base]
  | .i, [r, base, displacement] =>
    if op = .jalr then [r.text, displacement.displaced base] else operands.map Operand.text
  | _, _ => operands.map Operand.text

theorem Operand.toList_displaced (displacement base : Operand) :
    (displacement.displaced base).toList =
      displacement.text.toList ++ '(' :: (base.text.toList ++ [')']) := by
  simp only [displaced, String.toList_append, List.append_assoc]
  rfl

def isArgument (c : Char) : Bool := isBare c || c == '(' || c == ')'

theorem Operand.isArgument_of_mem_text {operand : Operand} {c : Char}
    (h : c ∈ operand.text.toList) : isArgument c = true := by
  simp only [isArgument, operand.bare_text.2 c h, Bool.true_or]

theorem Operand.isArgument_of_mem_displaced {displacement base : Operand} {c : Char}
    (h : c ∈ (displacement.displaced base).toList) : isArgument c = true := by
  simp only [toList_displaced, List.mem_append, List.mem_cons, List.not_mem_nil, or_false] at h
  obtain h | rfl | h | rfl := h
  · exact isArgument_of_mem_text h
  · decide
  · exact isArgument_of_mem_text h
  · decide

section Arguments

variable {op : Operation} {operands : List Operand} {argument : String}

theorem Operation.mem_arguments (h : argument ∈ op.arguments operands) :
    (∃ operand : Operand, argument = operand.text) ∨
      ∃ displacement base : Operand, argument = displacement.displaced base := by
  have hlisted : argument ∈ operands.map Operand.text →
      ∃ operand : Operand, argument = operand.text := by
    intro h
    obtain ⟨operand, -, rfl⟩ := List.mem_map.mp h
    exact ⟨operand, rfl⟩
  have haddress : ∀ r displacement base : Operand, argument ∈
      [r.text, displacement.displaced base] →
      (∃ operand : Operand, argument = operand.text) ∨
        ∃ displacement base : Operand, argument = displacement.displaced base := by
    intro r displacement base h
    obtain rfl | h := List.mem_cons.mp h
    · exact .inl ⟨r, rfl⟩
    · exact .inr ⟨displacement, base, List.mem_singleton.mp h⟩
  unfold arguments at h
  split at h
  · exact haddress _ _ _ h
  · exact haddress _ _ _ h
  · split at h
    · exact haddress _ _ _ h
    · exact .inl (hlisted h)
  · exact .inl (hlisted h)

theorem Operation.isArgument_of_mem (h : argument ∈ op.arguments operands) {c : Char}
    (hc : c ∈ argument.toList) : isArgument c = true := by
  obtain ⟨operand, rfl⟩ | ⟨displacement, base, rfl⟩ := mem_arguments h
  · exact Operand.isArgument_of_mem_text hc
  · exact Operand.isArgument_of_mem_displaced hc

theorem Operation.argument_ne_nil (h : argument ∈ op.arguments operands) :
    argument.toList ≠ [] := by
  obtain ⟨operand, rfl⟩ | ⟨displacement, base, rfl⟩ := mem_arguments h
  · exact operand.bare_text.1
  · rw [Operand.toList_displaced]
    exact List.append_ne_nil_of_right_ne_nil _ (List.cons_ne_nil _ _)

theorem Operation.arguments_ne_nil (h : operands ≠ []) : op.arguments operands ≠ [] := by
  unfold arguments
  split
  · exact List.cons_ne_nil _ _
  · exact List.cons_ne_nil _ _
  · split
    · exact List.cons_ne_nil _ _
    · exact List.cons_ne_nil _ _
  · exact fun hn => h (List.map_eq_nil_iff.mp hn)

end Arguments

theorem isBlank_of_isArgument {c : Char} (h : isArgument c = true) : Text.isBlank c = false := by
  simp only [isArgument, Bool.or_eq_true, beq_iff_eq] at h
  obtain (h | rfl) | rfl := h
  · exact isBlank_of_isBare h
  · decide
  · decide

theorem isWritten_of_isArgument {c : Char} (h : isArgument c = true) : isWritten c = true := by
  simp only [isArgument, Bool.or_eq_true, beq_iff_eq] at h
  obtain (h | rfl) | rfl := h
  · exact isWritten_of_isBare h
  · decide
  · decide

theorem Operation.written_eq (op : Operation) {operands : List Operand} (h : operands ≠ []) :
    op.written operands = op.mnemonic ++ " " ++ ", ".intercalate (op.arguments operands) := by
  have hlisted : op.listed operands =
      op.mnemonic ++ " " ++ ", ".intercalate (operands.map Operand.text) := by
    cases operands with
    | nil => exact absurd rfl h
    | cons operand rest => rfl
  have haddress : ∀ r displacement base : Operand,
      op.mnemonic ++ " " ++ r.text ++ ", " ++ displacement.displaced base =
        op.mnemonic ++ " " ++ ", ".intercalate [r.text, displacement.displaced base] := by
    intro r displacement base
    rw [String.intercalate_cons_cons, String.intercalate_singleton]
    simp only [String.append_assoc]
  fun_cases Operation.written op operands with
  | case1 r displacement base hf => simp only [arguments, hf, haddress]
  | case2 r displacement base hf => simp only [arguments, hf, haddress]
  | case3 r base displacement hf hop => simp only [arguments, hf, if_pos hop, haddress]
  | case4 r base displacement hf hop => simp only [arguments, hf, if_neg hop, hlisted]
  | case5 => simp only [arguments, hlisted]

theorem Operation.toList_written (op : Operation) {operands : List Operand} (h : operands ≠ []) :
    (op.written operands).toList = op.mnemonic.toList ++
      ' ' :: [',', ' '].intercalate ((op.arguments operands).map String.toList) := by
  rw [op.written_eq h]
  simp only [String.toList_append, String.toList_intercalate, List.append_assoc]
  rfl

theorem Operation.tight_arguments (op : Operation) {operands : List Operand} (h : operands ≠ []) :
    Text.Tight ([',', ' '].intercalate ((op.arguments operands).map String.toList)) ∧
      [',', ' '].intercalate ((op.arguments operands).map String.toList) ≠ [] := by
  refine Text.tight_intercalate _ (fun hn => ?_) fun text ht => ?_
  · exact op.arguments_ne_nil h (List.map_eq_nil_iff.mp hn)
  · obtain ⟨argument, ha, rfl⟩ := List.mem_map.mp ht
    exact ⟨Text.tight_of_forall fun c hc => isBlank_of_isArgument (op.isArgument_of_mem ha hc),
      op.argument_ne_nil ha⟩

theorem Operation.isWritten_of_mem_written {op : Operation} {operands : List Operand}
    (h : operands ≠ []) {c : Char} (hc : c ∈ (op.written operands).toList) :
    isWritten c = true := by
  rw [op.toList_written h] at hc
  obtain hc | hc := List.mem_append.mp hc
  · exact isWritten_of_isBare (op.bare_mnemonic.2 c hc)
  obtain rfl | hc := List.mem_cons.mp hc
  · decide
  obtain hc | ⟨text, ht, hc⟩ := Text.mem_of_mem_intercalate hc
  · exact List.all_eq_true.mp (by decide : [',', ' '].all isWritten = true) c hc
  · obtain ⟨argument, ha, rfl⟩ := List.mem_map.mp ht
    exact isWritten_of_isArgument (op.isArgument_of_mem ha hc)

theorem Operation.tight_written (op : Operation) {operands : List Operand} (h : operands ≠ []) :
    Text.Tight (op.written operands).toList ∧ (op.written operands).toList ≠ [] := by
  obtain ⟨ht, hn⟩ := op.tight_arguments h
  rw [op.toList_written h]
  exact ⟨Text.tight_append [' '] op.bare_mnemonic.tight ht op.bare_mnemonic.1 hn,
    List.append_ne_nil_of_left_ne_nil op.bare_mnemonic.1 _⟩

end RiscvBoard
