import RiscvBoard.Text.Numeral

/-!
# Command-line arguments

A command declares its options; `Arguments.parse?` sorts the words of a command
line into options with their values and positional arguments. An option is
written `--name value`, `--name=value`, or with one letter `-nvalue`, `-n=value`
or `-n value`; two dashes alone end the options. A word that begins with a dash
is never the value of the option before it, except for a dash alone. An option
that is not declared, lacks its value or comes twice without being repeatable
makes the command line wrong, and so does a value after a flag.
-/

namespace RiscvBoard.Command

structure OptionSpec where
  name : String
  letter : Option Char := none
  takesValue : Bool := true
  repeatable : Bool := false
  deriving DecidableEq, Repr

structure Arguments where
  /-- Names and values in the order of the command line; a flag has the empty value. -/
  options : List (String × String) := []
  positionals : List String := []
  deriving DecidableEq, Repr

namespace Arguments

def values (args : Arguments) (name : String) : List String :=
  (args.options.filter (·.1 == name)).map (·.2)

def value? (args : Arguments) (name : String) : Option String := (args.values name).head?

def has (args : Arguments) (name : String) : Bool := (args.value? name).isSome

/-- What a word of the command line is. -/
inductive Item
  | positional (text : String)
  | endOfOptions
  | option (spec : OptionSpec) (value : Option String)
  deriving DecidableEq, Repr

def item? (specs : List OptionSpec) (word : List Char) : Option Item :=
  match word with
  | ['-', '-'] => some .endOfOptions
  | '-' :: '-' :: text =>
    let name := String.ofList (Text.before (· == '=') text)
    let value := (Text.splitFirst? (· == '=') text).map fun (_, value) => String.ofList value
    (specs.find? (·.name == name)).map fun spec => .option spec value
  | '-' :: letter :: text =>
    let value := match text with
      | [] => none
      | '=' :: value => some (String.ofList value)
      | value => some (String.ofList value)
    (specs.find? (·.letter == some letter)).map fun spec => .option spec value
  | word => some (.positional (String.ofList word))

def isValue (word : String) : Bool :=
  match word.toList with
  | '-' :: _ :: _ => false
  | _ => true

/-- Sorts words; those read so far are in `args`, the latest first. -/
def collect (specs : List OptionSpec) (args : Arguments) : List String → Option Arguments
  | [] => some args
  | word :: rest => do
    match ← item? specs word.toList with
    | .endOfOptions => return { args with positionals := rest.reverse ++ args.positionals }
    | .positional text => collect specs { args with positionals := text :: args.positionals } rest
    | .option spec (some value) =>
      if spec.takesValue then
        collect specs { args with options := (spec.name, value) :: args.options } rest
      else none
    | .option spec none =>
      if !spec.takesValue then
        collect specs { args with options := (spec.name, "") :: args.options } rest
      else match rest with
        | value :: rest =>
          if isValue value then
            collect specs { args with options := (spec.name, value) :: args.options } rest
          else none
        | [] => none

def isUnrepeated (specs : List OptionSpec) (args : Arguments) : Bool :=
  specs.all fun spec => spec.repeatable || (args.values spec.name).length ≤ 1

def parse? (specs : List OptionSpec) (words : List String) : Option Arguments := do
  let args ← collect specs {} words
  if isUnrepeated specs args then
    some { options := args.options.reverse, positionals := args.positionals.reverse }
  else none

/-- A value that `read` understands, or nothing if the option is absent. The outer level is missing
if the value is wrong. -/
def optional? (read : String → Option α) (args : Arguments) (name : String) : Option (Option α) :=
  match args.value? name with
  | none => some none
  | some text => (read text).map some

def required? (read : String → Option α) (args : Arguments) (name : String) : Option α := do
  read (← args.value? name)

def path? (text : String) : Option String := if text.isEmpty then none else some text

end Arguments

end RiscvBoard.Command
