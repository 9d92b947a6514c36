import RiscvBoard.Command.Arguments
import RiscvBoard.Command.Files
import RiscvBoard.Listing

/-!
# Disassembling

Prints the words of a program file, or of the command line, as instructions.
-/

namespace RiscvBoard.Command.Disassemble

def readWord (text : List Char) : Except Numeral.Fault Word :=
  match BitString.word? (Text.trim text) with
  | some word => .ok word
  | none => Numeral.word text

def badWord (text : String) : String := "bad word '" ++ text ++ "'"

inductive Options
  | file (path : String) (format : Option Image.Format) (base : Word) (style : Listing.Style)
    (out : Option String)
  | words (texts : List String)

def fileSpecs : List OptionSpec :=
  [{ name := "format" }, { name := "base" }, { name := "output" },
    { name := "plain", takesValue := false }, { name := "out" }]

def word? (text : String) : Option Word := (Numeral.word text.toList).toOption

def json? : String → Option Bool
  | "text" => some false
  | "json" => some true
  | _ => none

def fileOptions? (words : List String) : Option Options := do
  let args ← Arguments.parse? fileSpecs words
  let [path] := args.positionals | none
  let path ← Arguments.path? path
  let format ← args.optional? formatNamed? "format"
  let base ← args.optional? word? "base"
  let json ← args.optional? json? "output"
  let out ← args.optional? Arguments.path? "out"
  let style := if json.getD false then .json else if args.has "plain" then .plain else .addressed
  return .file path format (base.getD 0) style out

def wordOptions? (words : List String) : Option Options := do
  let args ← Arguments.parse? [] words
  if args.positionals.isEmpty then none else some (.words args.positionals)

def options? : List String → Option Options
  | "file" :: words => fileOptions? words
  | "word" :: words => wordOptions? words
  | _ => none

def disassembleAll (out : String) : List String → Result
  | [] => { out }
  | text :: rest =>
    match readWord text.toList with
    | .ok word => disassembleAll (out ++ disassemble word ++ "\n") rest
    | .error _ => .failed (badWord text) out

variable {m : Type → Type} [Monad m] [Files m]

def execute : Options → ExceptT String m Result
  | .words texts => return disassembleAll "" texts
  | .file path format base style out => do
    let image ← readImage path format
    let text := Listing.render style (Listing.rows base image.words)
    match out with
    | some path => writeFile path text.toUTF8; return {}
    | none => return { out := text }

def command (words : List String) : m Result :=
  match options? words with
  | none => return .usage
  | some options => return .ofExcept (← (execute options).run)

end RiscvBoard.Command.Disassemble
