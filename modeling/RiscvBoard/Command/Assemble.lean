import RiscvBoard.Command.Arguments
import RiscvBoard.Command.Files
import RiscvBoard.Json.Value

/-!
# Assembling

Writes the words of a source file in one of the word formats and, if asked for,
a map with the source line of each word and the addresses of the labels. If the
source has errors, all of them are printed and nothing is written.
-/

namespace RiscvBoard.Command.Assemble

structure Options where
  input : String
  output : String
  emit : Image.WordFormat := .bits
  start : Word := 0
  map : Option String := none

def specs : List OptionSpec :=
  [{ name := "input", letter := some 'i' }, { name := "output", letter := some 'o' },
    { name := "emit", letter := some 'e' }, { name := "start" }, { name := "map" }]

def wordFormat? : String → Option Image.WordFormat
  | "bin" => some .bits
  | "hex" => some .hex
  | "raw" => some .raw
  | _ => none

def start? (text : String) : Option Word := do
  let n ← Numeral.long? 10 text.toList
  if 0 ≤ n ∧ n < 0x100000000 then some (BitVec.ofInt 32 n) else none

def options? (words : List String) : Option Options := do
  let args ← Arguments.parse? specs words
  let [] := args.positionals | none
  return {
    input := ← args.required? Arguments.path? "input"
    output := ← args.required? Arguments.path? "output"
    emit := (← args.optional? wordFormat? "emit").getD .bits
    start := (← args.optional? start? "start").getD 0
    map := ← args.optional? Arguments.path? "map" }

def mapJson (start : Word) (program : Assembly.Program) : Json :=
  .record [("start", .natural start.toNat),
    ("line_map", .array (program.lineMap.map Json.natural)),
    ("symbols", .array (program.symbols.sorted.map fun (name, addr) =>
      .array [.string (some (String.ofList name)), .natural addr.toNat]))]

def complaint (path : String) (errors : List Assembly.LineError) : Result :=
  let lines := String.join (errors.map fun e => path ++ ":" ++ e.message ++ "\n")
  let failure := Result.failed (toString errors.length ++ " error(s), no output written") ""
  { failure with err := lines ++ failure.err }

variable {m : Type → Type} [Monad m] [Files m]

def execute (options : Options) : ExceptT String m Result := do
  let source ← readText options.input
  match Assembly.assemble options.start source with
  | .error errors => return complaint options.input errors
  | .ok program =>
    writeFile options.output (options.emit.render program.words)
    if let some path := options.map then
      writeFile path (mapJson options.start program).pretty.toUTF8
    return {
      out := toString program.words.length ++ " words written to " ++ options.output ++ "\n" }

def command (words : List String) : m Result :=
  match options? words with
  | none => return .usage
  | some options => return .ofExcept (← (execute options).run)

end RiscvBoard.Command.Assemble
