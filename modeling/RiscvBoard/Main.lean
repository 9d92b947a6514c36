import RiscvBoard.Command.Assemble
import RiscvBoard.Command.Disassemble
import RiscvBoard.Command.Run

/-!
# The command line

`run`, `disasm` and `asm` on real files.
-/

namespace RiscvBoard.Command

instance : Files IO where
  read? path := do
    try return some (← IO.FS.readBinFile path)
    catch _ => return none
  write path bytes := do
    try
      IO.FS.writeBinFile path bytes
      return true
    catch _ => return false

def dispatch : List String → IO Result
  | "run" :: words => Run.command words
  | "disasm" :: words => Disassemble.command words
  | "asm" :: words => Assemble.command words
  | _ => return { code := 2, err := "usage: riscv-board (run | disasm | asm) ARGUMENTS\n" }

end RiscvBoard.Command

def main (words : List String) : IO UInt32 := do
  let result ← RiscvBoard.Command.dispatch words
  IO.print result.out
  IO.eprint result.err
  return result.code.toUInt32
