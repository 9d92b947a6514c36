import RiscvBoard.Json.Parse
import RiscvBoard.Simulator.Basic

/-!
# Settings in JSON

Each group of settings is an object with the names of its settings, or an array
with the settings in their order. What is missing has its default. An object may
have other members too, but no setting twice; an array may only be too short.
-/

namespace RiscvBoard

namespace Json

/-- The members with these names, or the items in their order. -/
def settings? (names : List String) : Json → Option (List (Option Json))
  | .array items =>
    if items.length ≤ names.length then some (names.zipIdx.map fun (_, i) => items[i]?) else none
  | .object members =>
    let named (name : String) := members.filter fun (key, _) => key == some name
    if members.all (fun (key, _) => key.isSome) &&
      names.all (fun name => (named name).length ≤ 1) then
      some (names.map fun name => (named name).head?.map (·.2))
    else none
  | _ => none

def setting? (read : Json → Option α) (default : α) : Option Json → Option α
  | none => some default
  | some value => read value

def bool? : Json → Option Bool
  | .bool b => some b
  | _ => none

def size? : Json → Option Nat
  | .natural n => if n < 0x10000000000000000 then some n else none
  | _ => none

end Json

open Json

def Hart.Config.ofJson? (value : Json) : Option Hart.Config := do
  match ← settings? ["m_extension", "halt_on_zero"] value with
  | [mExtension, haltOnZero] =>
    let default : Hart.Config := {}
    return {
      mExtension := ← setting? bool? default.mExtension mExtension
      haltOnZero := ← setting? bool? default.haltOnZero haltOnZero }
  | _ => none

def Board.Config.ofJson? (value : Json) : Option Board.Config := do
  match ← settings? ["rom_size", "ram_size", "rom_writable"] value with
  | [romSize, ramSize, romWritable] =>
    let default : Board.Config := {}
    return {
      romSize := ← setting? size? default.romSize romSize
      ramSize := ← setting? size? default.ramSize ramSize
      romWritable := ← setting? bool? default.romWritable romWritable }
  | _ => none

def Simulator.Config.ofJson? (value : Json) : Option Simulator.Config := do
  match ← settings? ["cpu", "soc", "max_steps"] value with
  | [hart, board, maxSteps] =>
    let default : Simulator.Config := {}
    return {
      hart := ← setting? Hart.Config.ofJson? default.hart hart
      board := ← setting? Board.Config.ofJson? default.board board
      maxSteps := ← setting? size? default.maxSteps maxSteps }
  | _ => none

def Simulator.Config.parse? (text : List Char) : Option Simulator.Config := do
  ofJson? (← Json.parse? text)

end RiscvBoard
