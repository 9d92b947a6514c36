import RiscvBoard.Assembly.Program

/-!
# Two passes

`assemble` places the lines once, for the labels and for the words. An assembler
that reads its source twice counts the addresses anew in each pass: the first
pass enters the labels, and the second one looks them up and writes the words.
Its programs and errors are the same, so the two counts agree at every line.
-/

namespace RiscvBoard.Assembly

-- ---------------------------------------------------------------------------
-- The passes
-- ---------------------------------------------------------------------------

/-- How far the first pass is: the address of the next instruction, the labels and the
complaints. -/
structure Labelling where
  addr : Word
  symbols : Symbols := {}
  errors : List LineError := []

def Labelling.read (pass : Labelling) (line : Line) : Labelling :=
  let addr := if line.instruction.isSome then pass.addr + 4 else pass.addr
  match line.label with
  | none => { pass with addr }
  | some name =>
    match pass.symbols.insert name pass.addr with
    | .ok symbols => { pass with addr, symbols }
    | .error first =>
      { pass with
        addr, errors := pass.errors ++ [⟨line.number, .duplicateLabel (String.ofList name) first⟩] }

structure Emission where
  addr : Word
  words : List Word := []
  lineMap : List Nat := []
  errors : List LineError

def Emission.read (symbols : Symbols) (pass : Emission) (line : Line) : Emission :=
  match line.instruction with
  | none => pass
  | some text =>
    let addr := pass.addr + 4
    match encodeStatement symbols pass.addr text with
    | .ok w =>
      { pass with addr, words := pass.words ++ [w], lineMap := pass.lineMap ++ [line.number] }
    | .error error => { pass with addr, errors := pass.errors ++ [⟨line.number, error⟩] }

def assembleTwice (origin : Word) (source : String) : Except (List LineError) Program :=
  let first : Labelling := (sourceLines source).foldl Labelling.read { addr := origin }
  let second : Emission := (sourceLines source).foldl (Emission.read first.symbols)
    { addr := origin, errors := first.errors }
  if second.errors.isEmpty then
    .ok { words := second.words, lineMap := second.lineMap, symbols := first.symbols }
  else .error (second.errors.mergeSort fun a b => a.line ≤ b.line)

-- ---------------------------------------------------------------------------
-- What they find
-- ---------------------------------------------------------------------------

theorem foldl_labelling (pass : Labelling) (lines : List Line) :
    (lines.foldl Labelling.read pass).symbols = (define pass.symbols (placed pass.addr lines)).1 ∧
      (lines.foldl Labelling.read pass).errors =
        pass.errors ++ (define pass.symbols (placed pass.addr lines)).2 := by
  induction lines generalizing pass with
  | nil => exact ⟨rfl, (List.append_nil _).symm⟩
  | cons line lines ih =>
    rw [List.foldl_cons, Labelling.read, placed, define]
    cases line.label with
    | none => exact ih _
    | some name =>
      dsimp only
      cases pass.symbols.insert name pass.addr with
      | ok symbols => exact ih { pass with
          addr := if line.instruction.isSome then pass.addr + 4 else pass.addr, symbols }
      | error first =>
        obtain ⟨hsymbols, herrors⟩ := ih { pass with
          addr := if line.instruction.isSome then pass.addr + 4 else pass.addr
          errors := pass.errors ++ [⟨line.number, .duplicateLabel (String.ofList name) first⟩] }
        exact ⟨hsymbols, herrors.trans (List.append_assoc ..)⟩

theorem encoded_cons (symbols : Symbols) (addr : Word) (line : Line) (rest : List (Word × Line)) :
    encoded symbols ((addr, line) :: rest) = match line.instruction with
      | none => encoded symbols rest
      | some text => (line.number, encodeStatement symbols addr text) :: encoded symbols rest := by
  rw [encoded, List.filterMap_cons]
  dsimp only
  cases line.instruction with
  | none => rfl
  | some text => rfl

theorem foldl_emission (symbols : Symbols) (pass : Emission) (lines : List Line) :
    (lines.foldl (Emission.read symbols) pass).words =
        pass.words ++ (encoded symbols (placed pass.addr lines)).filterMap (·.2.toOption) ∧
      (lines.foldl (Emission.read symbols) pass).lineMap = pass.lineMap ++
        ((encoded symbols (placed pass.addr lines)).filter (·.2.isOk)).map (·.1) ∧
      (lines.foldl (Emission.read symbols) pass).errors =
        pass.errors ++ encodingErrors (encoded symbols (placed pass.addr lines)) := by
  induction lines generalizing pass with
  | nil => exact ⟨(List.append_nil _).symm, (List.append_nil _).symm, (List.append_nil _).symm⟩
  | cons line lines ih =>
    rw [List.foldl_cons, Emission.read, placed, encoded_cons]
    cases line.instruction with
    | none => exact ih pass
    | some text =>
      dsimp only
      cases encodeStatement symbols pass.addr text with
      | ok w =>
        obtain ⟨hwords, hlines, herrors⟩ := ih { pass with
          addr := pass.addr + 4, words := pass.words ++ [w],
          lineMap := pass.lineMap ++ [line.number] }
        exact ⟨hwords.trans (List.append_assoc ..), hlines.trans (List.append_assoc ..), herrors⟩
      | error error =>
        obtain ⟨hwords, hlines, herrors⟩ := ih { pass with
          addr := pass.addr + 4, errors := pass.errors ++ [⟨line.number, error⟩] }
        exact ⟨hwords, hlines, herrors.trans (List.append_assoc ..)⟩

theorem isOk_of_encodingErrors {results : List (Nat × Except Error Word)}
    (h : encodingErrors results = []) : ∀ result ∈ results, result.2.isOk = true := by
  rintro ⟨number, result⟩ hmem
  have hnone := List.filterMap_eq_nil_iff.mp h _ hmem
  cases result with
  | ok w => rfl
  | error error => cases hnone

theorem assembleTwice_eq (origin : Word) (source : String) :
    assembleTwice origin source = assemble origin source := by
  obtain ⟨hsymbols, hrepeated⟩ := foldl_labelling { addr := origin } (sourceLines source)
  obtain ⟨hwords, hlines, herrors⟩ :=
    foldl_emission (define {} (placed origin (sourceLines source))).1
    { addr := origin, errors := (define {} (placed origin (sourceLines source))).2 }
      (sourceLines source)
  unfold assembleTwice assemble
  simp only [hsymbols, hrepeated, List.nil_append, herrors]
  split
  · rename_i hempty
    obtain ⟨-, hencoded⟩ := List.append_eq_nil_iff.mp (List.isEmpty_iff.mp hempty)
    have hall := List.filter_eq_self.mpr (isOk_of_encodingErrors hencoded)
    simp only [hwords, hlines, hall, List.nil_append]
  · rfl

end RiscvBoard.Assembly
