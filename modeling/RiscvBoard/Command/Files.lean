import RiscvBoard.Image.Format

/-!
# Files of a command

A command reads and writes files by name. `Directory` is a store of files in
memory that commands can run on; a name with a directory in front is not in it.
-/

namespace RiscvBoard.Command

class Files (m : Type → Type) where
  read? : String → m (Option ByteArray)
  /-- Says whether the file could be written. -/
  write : String → ByteArray → m Bool

structure Result where
  code : Nat := 0
  out : String := ""
  err : String := ""
  deriving DecidableEq, Repr

namespace Result

def failed (message : String) (out : String) : Result :=
  { code := 1, out, err := "Error: " ++ message ++ "\n" }

def usage : Result := { code := 2, err := "error: invalid arguments\n" }

def ofExcept : Except String Result → Result
  | .ok result => result
  | .error message => failed message ""

end Result

section

variable {m : Type → Type} [Monad m] [Files m]

def readFile (path : String) : ExceptT String m ByteArray := do
  match ← (Files.read? path : m _) with
  | some bytes => return bytes
  | none => throw ("reading " ++ path)

def readText (path : String) : ExceptT String m String := do
  match String.fromUTF8? (← readFile path) with
  | some text => return text
  | none => throw ("reading " ++ path)

def writeFile (path : String) (bytes : ByteArray) : ExceptT String m Unit := do
  unless ← (Files.write path bytes : m _) do throw ("writing " ++ path)

end

def fileName (path : String) : List Char :=
  ((Text.pieces (· == '/') path.toList).filter fun part =>
    part ≠ [] ∧ part ≠ ['.']).getLast?.getD []

/-- What follows the last dot of a file name, unless the name has no other dot than one in front. -/
def extension? (path : String) : Option String :=
  match fileName path with
  | ['.', '.'] => none
  | name =>
    let reversed := name.reverse
    match reversed.dropWhile (· ≠ '.') with
    | _ :: _ :: _ => some (String.ofList (reversed.takeWhile (· ≠ '.')).reverse)
    | _ => none

def readImage {m : Type → Type} [Monad m] [Files m] (path : String) (format : Option Image.Format) :
    ExceptT String m Image := do
  let bytes ← readFile path
  match Image.load (format.getD (Image.detect (extension? path) bytes)) bytes with
  | .ok image => return image
  | .error e => throw e.message

def formatNamed? : String → Option Image.Format
  | "asm" => some .assembly
  | "bin" => some (.words .bits)
  | "hex" => some (.words .hex)
  | "raw" => some (.words .raw)
  | _ => none

structure Directory where
  files : List (String × ByteArray) := []

namespace Directory

/-- The name of a file in this directory, if a path leads to one. In front there may be the
directory itself, as in `./name`. -/
def local? (path : String) : Option String :=
  let parts := match Text.pieces (· == '/') path.toList with
    | ['.'] :: rest => rest.dropWhile fun part => part = [] ∨ part = ['.']
    | parts => parts
  match parts with
  | [name] =>
    if name = [] ∨ name = ['.'] ∨ name = ['.', '.'] then none else some (String.ofList name)
  | _ => none

def read? (dir : Directory) (path : String) : Option ByteArray := do
  dir.files.lookup (← local? path)

def write? (dir : Directory) (path : String) (bytes : ByteArray) : Option Directory := do
  let name ← local? path
  return ⟨(name, bytes) :: dir.files.filter (·.1 != name)⟩

instance : Files (StateM Directory) where
  read? path := do return (← get).read? path
  write path bytes := do
    match (← get).write? path bytes with
    | some dir => set dir; return true
    | none => return false

end Directory

end RiscvBoard.Command
