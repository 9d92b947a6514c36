import RiscvBoard.Assembly.Statement
import RiscvBoard.Text.BitString

/-!
# Assembling a source

Every line is placed once. The labels of the placed lines make the table of
symbols, and with it each instruction becomes a word at its own address. All
errors of a source are reported together, in the order of the lines; a source
with an error gives no program.
-/

namespace RiscvBoard.Assembly

structure Program where
  words : List Word
  lineMap : List Nat
  symbols : Symbols
  deriving DecidableEq, Repr

/-- Enters the labels into a table. A name that is there already keeps its address, and its line is
reported. -/
def define (symbols : Symbols) : List (Word × Line) → Symbols × List LineError
  | [] => (symbols, [])
  | (addr, line) :: rest =>
    match line.label with
    | none => define symbols rest
    | some name =>
      match symbols.insert name addr with
      | .ok symbols => define symbols rest
      | .error first =>
        let (symbols, errors) := define symbols rest
        (symbols, ⟨line.number, .duplicateLabel (String.ofList name) first⟩ :: errors)

def collectSymbols (origin : Word) (source : String) : Symbols × List LineError :=
  define {} (placed origin (sourceLines source))

def encoded (symbols : Symbols) (lines : List (Word × Line)) : List (Nat × Except Error Word) :=
  lines.filterMap fun (addr, line) =>
    line.instruction.map fun text => (line.number, encodeStatement symbols addr text)

def encodingErrors (results : List (Nat × Except Error Word)) : List LineError :=
  results.filterMap fun (line, result) =>
    match result with
    | .ok _ => none
    | .error error => some ⟨line, error⟩

/-- Assembles a source whose first instruction has the address `origin`. On a line with two errors
the one about its label comes first. -/
def assemble (origin : Word) (source : String) : Except (List LineError) Program :=
  let lines := placed origin (sourceLines source)
  let (symbols, repeated) := define {} lines
  let results := encoded symbols lines
  let errors := repeated ++ encodingErrors results
  if errors.isEmpty then
    .ok { words := results.filterMap (·.2.toOption), lineMap := results.map (·.1), symbols }
  else .error (errors.mergeSort fun a b => a.line ≤ b.line)

end RiscvBoard.Assembly
