import RiscvBoard.Proofs.Assembly.Errors
import RiscvBoard.Proofs.Assembly.Listing
import RiscvBoard.Proofs.Assembly.Place
import RiscvBoard.Proofs.Assembly.Target

/-!
# Sources of spelled instructions

A line that spells an instruction says nothing else, so a source of such lines is
assembled to the words of their instructions, and one of them has the same word
in every program and at every origin.
-/

namespace RiscvBoard.Assembly

variable {w : Word} {text : List Char} {texts : List (List Char)}

/-- The text is a spelling of an instruction with this word. -/
def Spells (text : List Char) (w : Word) : Prop :=
  ∃ (op : Operation) (operands : List Operand), op.encode operands = .ok w ∧
    op.Spelled operands text

theorem encodeStatement_of_spells (symbols : Symbols) (pc : Word) (h : Spells text w) :
    encodeStatement symbols pc (Text.trim text) = .ok w ∧ Text.trim text ≠ [] := by
  obtain ⟨op, given, hencode, hspelled⟩ := h
  exact encodeStatement_spelled hencode hspelled

theorem not_mem_of_spells (h : Spells text w) : '\n' ∉ text := by
  obtain ⟨op, given, -, hspelled⟩ := h
  intro hc
  rcases hspelled.isPiece _ hc with hpiece | hcomma
  · exact absurd hpiece (by decide)
  · exact absurd hcomma (by decide)

theorem read_of_spells (h : Spells text w) :
    labelOn? text = none ∧ instructionOn? text = some (Text.trim text) := by
  obtain ⟨hencode, hne⟩ := encodeStatement_of_spells {} 0 h
  rw [← present?_of_ne_nil hne]
  exact read_of_isSource (isSource_of_trim (isSource_of_encodeStatement hencode).1)

theorem onLines_spells {words : List Word} (h : List.Forall₂ Spells texts words) (symbols : Symbols)
    (addr : Nat → Word) (first : Nat) :
    onLines (fun text k => (instructionOn? text).map fun statement =>
      (k + first, encodeStatement symbols (addr k) statement)) texts =
        (words.zipIdx first).map fun (w, number) => (number, .ok w) := by
  induction h generalizing addr first with
  | nil => rfl
  | cons hspells _ ih =>
    have hnext := ih (fun k => addr (k + 1)) (first + 1)
    rw [onLines_cons, (read_of_spells hspells).2, List.zipIdx_cons, List.map_cons, ← hnext]
    simp only [Option.map_some, (encodeStatement_of_spells symbols _ hspells).1, Nat.zero_add,
      Nat.add_assoc, Nat.add_comm 1]

theorem assemble_spells {source : String} {words : List Word} (origin : Word)
    (h : List.Forall₂ Spells (Text.lines source.toList) words) :
    assemble origin source =
      .ok { words, lineMap := List.range' 1 words.length, symbols := {} } := by
  have hlabels : ∀ line ∈ placed origin (sourceLines source), line.2.label = none := by
    have hlabel : ∀ text ∈ Text.lines source.toList, labelOn? text = none :=
      forall_mem_of_forall₂ (fun _ _ hspells => (read_of_spells hspells).1) h.flip
    intro entry hentry
    rw [placed_eq_onLines] at hentry
    obtain ⟨k, text, htext, hplaced⟩ := mem_onLines.mp hentry
    obtain ⟨line, hread, rfl⟩ := Option.map_eq_some_iff.mp hplaced
    have hnone := read?_label (k + 1) text
    rwa [hread, hlabel text (List.mem_of_getElem? htext)] at hnone
  have hresults :=
    fun symbols => onLines_spells h symbols (addressAt origin (Text.lines source.toList)) 1
  have hwords : ((words.zipIdx 1).map fun (w, n) => (n, Except.ok (ε := Error) w)).filterMap
      (·.2.toOption) =
      words := by
    rw [List.filterMap_map]
    exact (congrFun List.filterMap_eq_map (words.zipIdx 1)).trans (List.zipIdx_map_fst 1 words)
  have hnumbers : ((words.zipIdx 1).map fun (w, n) => (n, Except.ok (ε := Error) w)).map (·.1) =
      List.range' 1 words.length := by
    rw [List.map_map, ← List.zipIdx_map_snd]
    rfl
  have herrors : encodingErrors ((words.zipIdx 1).map fun (w, n) => (n, Except.ok w)) = [] := by
    rw [encodingErrors, List.filterMap_map]
    exact List.filterMap_eq_nil_iff.mpr fun _ _ => rfl
  simp only [assemble, define_of_no_labels hlabels, encoded_eq_results, results, hresults, hwords,
    hnumbers, herrors]
  rfl

/-- Every spelling of an instruction that can be encoded is assembled to its word: alone at every
origin, and wherever it is a line of a program. -/
theorem assemble_spelled {op : Operation} {operands : List Operand} {line : String}
    (hencode : op.encode operands = .ok w) (h : op.Spelled operands line.toList) :
    (∀ origin, assemble origin line = .ok { words := [w], lineMap := [1], symbols := {} }) ∧
    ∀ (origin : Word) (source : String) (program : Program) (k : Nat), assemble origin source =
      .ok program → (Text.lines source.toList)[k]? = some line.toList →
      ∃ i : Nat, program.lineMap[i]? = some (k + 1) ∧ program.words[i]? = some w := by
  have hspells : Spells line.toList w := ⟨op, operands, hencode, h⟩
  refine ⟨fun origin => ?_, fun origin source program k hprogram htext => ?_⟩
  · have hlines : Text.lines line.toList = [line.toList] := by
      refine Text.lines_of_not_mem (not_mem_of_spells hspells) fun hempty => ?_
      refine (encodeStatement_of_spells {} 0 hspells).2 ?_
      rw [hempty]
      rfl
    have hall : List.Forall₂ Spells (Text.lines line.toList) [w] := by
      rw [hlines]
      exact .cons hspells .nil
    exact assemble_spells origin hall
  · obtain ⟨i, other, hline, hword, hencoded⟩ :=
      word_of_line hprogram htext (read_of_spells hspells).2
    rw [(encodeStatement_of_spells _ _ hspells).1] at hencoded
    cases hencoded
    exact ⟨i, hline, hword⟩

def variedLoad : String := "\tLW\tA0 , -0x0010\t( Fp ) "

theorem assemble_spelled_variedLoad :
    Operation.lw.encode [.register 10, .immediate (-16), .register 8] = .ok 0xFF042503 ∧
    Operation.lw.Spelled [.register 10, .immediate (-16), .register 8] variedLoad.toList ∧
    ∀ origin, assemble origin variedLoad =
      .ok { words := [0xFF042503], lineMap := [1], symbols := {} } := by
  have hencode : Operation.lw.encode [.register 10, .immediate (-16), .register 8] =
      .ok 0xFF042503 := by decide
  have hr : (Operand.register 10).Spelled ['A', '0'] := .register (.name (by decide))
  have hdisplacement : (Operand.immediate (-16)).Spelled "-0x0010".toList :=
    .immediate (.minus (.hex (.inl rfl) ⟨4, by decide, by decide, by decide⟩))
  have hbase : (Operand.register 8).Spelled ['F', 'p'] := .register (.frame (by decide))
  have haddress : (Operand.immediate (-16)).SpelledAddress (.register 8)
      ("-0x0010".toList ++ (['\t'] ++ '(' :: (" Fp ".toList ++ [')']))) :=
    .displaced hdisplacement (by decide) hbase ⟨[' '], [' '], by decide, by decide, by decide⟩
  have hspelled :
      Operation.lw.Spelled [.register 10, .immediate (-16), .register 8] variedLoad.toList :=
    ⟨['\t'], ['L', 'W'], ['\t'], _,
      [['A', '0', ' '], " -0x0010\t( Fp ) ".toList], by decide, by decide, by decide,
      by decide, by decide, .access (.inl rfl) hr haddress,
      .cons ⟨[], [' '], rfl, by decide, by decide⟩
        (.cons ⟨[' '], [' '], by decide, by decide, by decide⟩ .nil)⟩
  exact ⟨hencode, hspelled, (assemble_spelled hencode hspelled).1⟩

end RiscvBoard.Assembly
