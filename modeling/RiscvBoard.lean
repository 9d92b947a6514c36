import RiscvBoard.Memory
import RiscvBoard.Main
import RiscvBoard.Proofs.Instruction.Decoding
import RiscvBoard.Proofs.Instruction.RoundTrip
import RiscvBoard.Proofs.Instruction.Acceptance
import RiscvBoard.Proofs.Text.Blank
import RiscvBoard.Proofs.Instruction.Written
import RiscvBoard.Proofs.Assembly.Statement
import RiscvBoard.Proofs.Assembly.Listing
import RiscvBoard.Proofs.Hart.Step
import RiscvBoard.Proofs.Hart.Atomic
import RiscvBoard.Proofs.Bytes
import RiscvBoard.Proofs.Device.Registers
import RiscvBoard.Proofs.Board.Address
import RiscvBoard.Proofs.Board.Access
import RiscvBoard.Proofs.Hart.Manual
import RiscvBoard.Proofs.Hart.Arithmetic
import RiscvBoard.Proofs.Hart.Refinement
import RiscvBoard.Proofs.Work
import RiscvBoard.Proofs.Memory.Access
import RiscvBoard.Proofs.Board.Parts
import RiscvBoard.Proofs.Board.Laws
import RiscvBoard.Proofs.Board.Load
import RiscvBoard.Proofs.Memory.History
import RiscvBoard.Proofs.Board.AddressMap
import RiscvBoard.Proofs.Assembly.Layout
import RiscvBoard.Proofs.Assembly.Target
import RiscvBoard.Proofs.Simulator.History
import RiscvBoard.Proofs.Simulator.Assembled
import RiscvBoard.Proofs.Image.Grammar
import RiscvBoard.Proofs.Image.Format
import RiscvBoard.Proofs.Image.Detection
import RiscvBoard.Proofs.Device.Queue
import RiscvBoard.Proofs.Board.Events
import RiscvBoard.Proofs.Simulator.Events
import RiscvBoard.Proofs.Simulator.Stream
import RiscvBoard.Proofs.Simulator.Status
import RiscvBoard.Proofs.Hart.Alignment
import RiscvBoard.Proofs.Simulator.Alignment
import RiscvBoard.Proofs.Board.Flat
import RiscvBoard.Proofs.Simulator.Run
import RiscvBoard.Proofs.Assembly.Case
import RiscvBoard.Proofs.Assembly.Insertions
import RiscvBoard.Proofs.Assembly.Isolation
import RiscvBoard.Proofs.Assembly.Origin
import RiscvBoard.Proofs.Assembly.Spacing
import RiscvBoard.Proofs.Assembly.Spelling
import RiscvBoard.Proofs.Simulator.Counting
import RiscvBoard.Proofs.Simulator.Host
import RiscvBoard.Proofs.Instruction.Layout
import RiscvBoard.Proofs.Instruction.Table
import RiscvBoard.Proofs.Hart.Multiplication
import RiscvBoard.Proofs.Simulator.Straight
import RiscvBoard.Proofs.Image.Hexadecimal
import RiscvBoard.Proofs.Image.Comments
import RiscvBoard.Proofs.Image.Raw
import RiscvBoard.Proofs.Signed
import RiscvBoard.Proofs.Board.Dump
import RiscvBoard.Proofs.Assembly.Distance
import RiscvBoard.Proofs.Image.Bits
import RiscvBoard.Proofs.Register
import RiscvBoard.Proofs.Command.Word
