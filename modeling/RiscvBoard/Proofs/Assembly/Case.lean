import RiscvBoard.Proofs.Assembly.Change

/-!
# Either case of letters

Mnemonics, registers, the marks and digits of numbers and labels may be written
in either case of letters. Two sources that differ in nothing else give the same
program, or the same errors on the same lines; only the texts that the errors
show are in the case of their source.
-/

namespace RiscvBoard.Assembly

def Change.lowerCase : Change := { char := Char.toLower }

section

variable {f : Char → Char} (hf : Text.KeepsLetters f)
include hf

theorem comment_map_iff {text : List Char} : Comment (text.map f) ↔ Comment text := by
  constructor
  · intro h
    generalize hmap : text.map f = mapped at h
    cases h with
    | none =>
      rw [List.map_eq_nil_iff.mp hmap]
      exact .none
    | hash rest =>
      obtain ⟨hash, others, rfl, hhash, -⟩ := List.map_eq_cons_iff.mp hmap
      rw [(hf.eq_iff (by decide)).mp hhash]
      exact .hash others
    | slashes rest =>
      obtain ⟨first, others, rfl, hfirst, hothers⟩ := List.map_eq_cons_iff.mp hmap
      obtain ⟨second, comment, rfl, hsecond, -⟩ := List.map_eq_cons_iff.mp hothers
      rw [(hf.eq_iff (by decide)).mp hfirst, (hf.eq_iff (by decide)).mp hsecond]
      exact .slashes comment
  · intro h
    cases h with
    | none => exact .none
    | hash rest =>
      rw [List.map_cons, hf.sign (by decide)]
      exact .hash _
    | slashes rest =>
      rw [List.map_cons, List.map_cons, hf.sign (by decide)]
      exact .slashes _

theorem uncommented_map (text : List Char) :
    uncommented (text.map f) = (uncommented text).map f := by
  induction text with
  | nil => rfl
  | cons c text ih =>
    by_cases hc : Comment (c :: text)
    · rw [uncommented_of_comment hc, uncommented_of_comment ((comment_map_iff hf).mpr hc),
        List.map_nil]
    · have hmap : ¬Comment (f c :: text.map f) := fun h => hc ((comment_map_iff hf).mp h)
      rw [List.map_cons, uncommented_cons hmap, uncommented_cons hc, ih, List.map_cons]

theorem read?_map (number : Nat) (text : List Char) :
    Line.read? number (text.map f) =
      (Line.read? number text).map ({ char := f : Change }).line := by
  have hname : ∀ text, isName (text.map f) = isName text := isName_change (c := { char := f }) hf
  have hpresent : ∀ text, Line.present? (text.map f) = (Line.present? text).map (List.map f) := by
    intro text
    cases text <;> rfl
  have hsplit := Text.splitFirst?_map (p := (· == ':')) (hf.beq (by decide : ':'.isAlpha = false))
  unfold Line.read?
  simp only [uncommented_map hf, Text.trim_map hf, List.isEmpty_map, hsplit]
  split
  · rfl
  · cases Text.splitFirst? (· == ':') (Text.trim (uncommented text)) with
    | none => rfl
    | some parts =>
      simp only [Option.map_some, Prod.map, Text.trim_map hf, hname, hpresent]
      split <;> rfl

end

theorem keeps_lowerCase (lines : List (Word × Line)) : Change.lowerCase.Keeps lines where
  letters := Text.keepsLetters_toLower
  order _ _ := Iff.rfl
  step _ := rfl
  distance _ _ _ _ := rfl

theorem sourceLines_lower (source : String) :
    sourceLines (String.ofList (Text.lower source.toList)) =
      (sourceLines source).map Change.lowerCase.line := by
  unfold sourceLines Text.lower
  rw [String.toList_ofList, Text.lines_map Text.keepsLetters_toLower, List.zipIdx_map,
    List.filterMap_map, List.map_filterMap]
  exact congrArg (List.filterMap · _)
    (funext fun (text, number) => read?_map Text.keepsLetters_toLower number text)

theorem program_lowerCase (program : Program) : Change.lowerCase.program program = program := by
  rw [Change.program, Change.symbols_of_id rfl]
  simp only [Change.lowerCase, List.map_id]

/-- Sources that differ only in the case of letters assemble to one program, or to errors of the
same kinds on the same lines in the same order. -/
theorem assemble_of_lower_eq {origin : Word} {source other : String}
    (h : Text.lower source.toList = Text.lower other.toList) :
    (∃ program, assemble origin source = .ok program ∧ assemble origin other = .ok program) ∨
      ∃ errors others, assemble origin source = .error errors ∧
        assemble origin other = .error others ∧
        errors.map Change.lowerCase.lineError = others.map Change.lowerCase.lineError := by
  have hlower : ∀ source, assemble origin (String.ofList (Text.lower source.toList)) =
      Change.lowerCase.outcome (assemble origin source) :=
    fun source => assemble_change (c := .lowerCase) (sourceLines_lower source) (keeps_lowerCase _)
  have hsame : Change.lowerCase.outcome (assemble origin source) =
      Change.lowerCase.outcome (assemble origin other) := by
    rw [← hlower, ← hlower, h]
  cases hsource : assemble origin source with
  | ok program =>
    cases hother : assemble origin other with
    | ok other =>
      rw [hsource, hother] at hsame
      simp only [Change.outcome, program_lowerCase] at hsame
      exact .inl ⟨program, rfl, hsame.symm⟩
    | error others =>
      rw [hsource, hother] at hsame
      cases hsame
  | error errors =>
    cases hother : assemble origin other with
    | ok other =>
      rw [hsource, hother] at hsame
      cases hsame
    | error others =>
      rw [hsource, hother] at hsame
      exact .inr ⟨errors, others, rfl, rfl, Except.error.inj hsame⟩

theorem assemble_of_lower_eq_loop :
    Text.lower "Loop: ADDI FP, X8, 0xAB\nBnE a0, A1, LOOP".toList =
        Text.lower "loop: addi fp, x8, 0XaB\nbne A0, a1, loop".toList ∧
      ∃ program, assemble 0x80000000 "Loop: ADDI FP, X8, 0xAB\nBnE a0, A1, LOOP" = .ok program ∧
        assemble 0x80000000 "loop: addi fp, x8, 0XaB\nbne A0, a1, loop" = .ok program := by
  have hlower : Text.lower "Loop: ADDI FP, X8, 0xAB\nBnE a0, A1, LOOP".toList =
    Text.lower "loop: addi fp, x8, 0XaB\nbne A0, a1, loop".toList := by decide
  refine ⟨hlower, (assemble_of_lower_eq hlower).resolve_right ?_⟩
  rintro ⟨errors, _, hfails, -⟩
  have hprogram : (assemble 0x80000000 "Loop: ADDI FP, X8, 0xAB\nBnE a0, A1, LOOP").isOk = true :=
    rfl
  rw [hfails] at hprogram
  cases hprogram

end RiscvBoard.Assembly
