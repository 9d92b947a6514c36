import RiscvBoard.Memory
import RiscvBoard.Proofs.Board.Access
import RiscvBoard.Proofs.Hart.Extension

/-!
# The ROM as plain memory

A program that stays in the ROM cannot tell a board from plain memory that begins
at address zero. Plain memory compares both ends of an access with its own, and
the board looks for a region; where the memory has all bytes of an access, the
board has them in its ROM.
-/

namespace RiscvBoard

namespace Board

def withRom (board : Board) (cells : Cells) (h : cells.size ≤ Region.maxMemory) : Board :=
  { board with rom := cells, romWritable := true, rom_le := h }

/-- A board with the bytes of a plain memory in its ROM, that is like another board apart from
them. -/
def IsFlat (board : Board) (memory : Memory) (flat : Board) : Prop :=
  memory.base = 0 ∧ ∃ h, flat = board.withRom memory.cells h

variable {board flat : Board} {memory : Memory} {addr : Word} {width : Width}

theorem IsFlat.route (h : board.IsFlat memory flat) (hfits : memory.fault? addr width = none) :
    flat.route addr width = .ok (.rom, memory.offset addr) := by
  obtain ⟨hbase, -, rfl⟩ := h
  have hoffset : memory.offset addr = addr.toNat := by
    rw [Memory.offset, hbase]
    rfl
  refine route_eq_ok_iff.mpr ⟨?_, Memory.offset_add_le hfits, fun hdevice => by cases hdevice⟩
  rw [hoffset]
  exact (Nat.zero_add addr.toNat).symm

theorem IsFlat.isWritable (h : board.IsFlat memory flat) (off : Nat) :
    flat.isWritable .rom off = true := by
  obtain ⟨-, -, rfl⟩ := h
  rfl

theorem extends_isFlat (board : Board) : Bus.Extends board.IsFlat where
  read {memory flat addr width raw} h hread := by
    simp only [Bus.read] at hread
    split at hread <;> cases hread
    rename_i hfits
    rw [read_eq, h.route hfits]
    obtain ⟨-, -, rfl⟩ := h
    rfl
  takes {memory flat addr width} h hfits :=
    refusal?_eq_none_iff.mpr ⟨.rom, memory.offset addr, h.route hfits, h.isWritable _⟩
  store {memory flat addr width} h hfits value := by
    rw [store_of_route (h.route hfits)]
    obtain ⟨hbase, hsize, rfl⟩ := h
    refine ⟨hbase, ?_, rfl⟩
    change (memory.cells.store _ value width).size ≤ _
    rwa [Cells.size_store]

/-- However long a program runs in plain memory without a trap, it runs the same way from the ROM of
a board. The ROM ends up as the memory does, and nothing else on the board has changed. -/
theorem steps_withRom {cells : Cells} (hsize : cells.size ≤ Region.maxMemory) (board : Board)
    (hart : Hart) (count : Nat)
    (hok : ∀ trap, .trapped trap ∉ (hart.steps (⟨0, cells⟩ : Memory) count).1) :
    let flat := hart.steps (⟨0, cells⟩ : Memory) count
    let mapped := hart.steps (board.withRom cells hsize) count
    mapped.1 = flat.1 ∧ mapped.2.1 = flat.2.1 ∧
      ∃ h, mapped.2.2 = board.withRom flat.2.2.cells h := by
  obtain ⟨houtcomes, hleft, -, hboard⟩ :=
    Hart.steps_of_extends (extends_isFlat board) ⟨rfl, hsize, rfl⟩ hok
  exact ⟨houtcomes, hleft, hboard⟩

def selfErasing : Cells := (bytesOfWords [0x00002423, 0x00108093, 0xFF9FF06F]).toArray

theorem steps_withRom_selfErasing :
    let board : Board := .ofConfig { romSize := 4, ramSize := 16 }
    selfErasing.size ≤ Region.maxMemory ∧
      (∀ trap, .trapped trap ∉ (({} : Hart).steps (⟨0, selfErasing⟩ : Memory) 4).1) ∧
      ∃ hsize hleft, let mapped := ({} : Hart).steps (board.withRom selfErasing hsize) 4
        mapped.1 = [.executed, .executed, .halted, .halted] ∧
          mapped.2.2 = board.withRom (bytesOfWords [0x00002423, 0x00108093, 0]).toArray hleft := by
  intro board
  have hsize : selfErasing.size ≤ Region.maxMemory := by decide +kernel
  have houtcomes : (({} : Hart).steps (⟨0, selfErasing⟩ : Memory) 4).1 =
      [.executed, .executed, .halted, .halted] := by decide +kernel
  have hcells : (({} : Hart).steps (⟨0, selfErasing⟩ : Memory) 4).2.2.cells =
      (bytesOfWords [0x00002423, 0x00108093, 0]).toArray := by decide +kernel
  have hok : ∀ trap, .trapped trap ∉ (({} : Hart).steps (⟨0, selfErasing⟩ : Memory) 4).1 := by
    rw [houtcomes]
    intro trap h
    simp only [List.mem_cons, reduceCtorEq, List.not_mem_nil, or_self] at h
  obtain ⟨hsame, -, hleft, hboard⟩ := steps_withRom hsize board {} 4 hok
  simp only [hcells] at hboard
  exact ⟨hsize, hok, hsize, hcells ▸ hleft, hsame.trans houtcomes, hboard⟩

end Board

end RiscvBoard
