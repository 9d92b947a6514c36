import Mathlib.Data.List.Forall2
import RiscvBoard.Proofs.Assembly.Errors

/-!
# The origin of a program

Branches and jumps hold distances, so a program can be assembled for any origin
from which it does not reach past the last address. Its words stay the same, and
every address in its labels and errors moves with the origin.
-/

namespace RiscvBoard.Assembly

def Change.shift (distance : Word) : Change := { addr := (· + distance) }

theorem Change.addr_shift (distance addr : Word) :
    (shift distance).addr addr = addr + distance := rfl

theorem Change.addr_shift_sub (origin moved : Word) :
    (shift (moved - origin)).addr origin = moved := by
  rw [addr_shift, BitVec.add_comm, BitVec.sub_add_cancel]

def Moves (distance : Int) (addr addr' : Word) : Prop := (addr'.toNat : Int) - addr.toNat = distance

/-- The same error; the first address of a label that comes twice is moved. -/
inductive Error.Moved (distance : Int) : Error → Error → Prop
  | label {name : String} {first first' : Word} (h : Moves distance first first') :
      Moved distance (.duplicateLabel name first) (.duplicateLabel name first')
  | same {error : Error} (h : error.aboutLabel = false) : Moved distance error error

def LineError.Moved (distance : Int) (a b : LineError) : Prop :=
  b.line = a.line ∧ a.error.Moved distance b.error

-- ---------------------------------------------------------------------------
-- Addresses
-- ---------------------------------------------------------------------------

section Addresses

variable {origin moved addr : Word} {texts : List (List Char)} {k : Nat}

theorem addr_shift_addressAt (origin distance : Word) (texts : List (List Char)) (k : Nat) :
    (Change.shift distance).addr (addressAt origin texts k) =
      addressAt ((Change.shift distance).addr origin) texts k := by
  simp only [Change.addr_shift, addressAt, BitVec.add_assoc, BitVec.add_comm distance]

/-- Addresses do not wrap around if the last one does not. -/
theorem toNat_addressAt (h : origin.toNat + 4 * texts.countP hasInstruction < 2 ^ 32) (k : Nat) :
    (addressAt origin texts k).toNat = origin.toNat + 4 * (texts.take k).countP hasInstruction := by
  have hle : (texts.take k).countP hasInstruction ≤ texts.countP hasInstruction :=
    (List.take_sublist k texts).countP_le
  rw [addressAt, BitVec.toNat_add, BitVec.toNat_ofNat]
  omega

theorem moves_addressAt (horigin : origin.toNat + 4 * texts.countP hasInstruction < 2 ^ 32)
    (hmoved : moved.toNat + 4 * texts.countP hasInstruction < 2 ^ 32) (k : Nat) :
    Moves (moved.toNat - origin.toNat) (addressAt origin texts k)
      ((Change.shift (moved - origin)).addr (addressAt origin texts k)) := by
  rw [addr_shift_addressAt, Change.addr_shift_sub, Moves, toNat_addressAt horigin,
    toNat_addressAt hmoved]
  omega

end Addresses

-- ---------------------------------------------------------------------------
-- Another origin
-- ---------------------------------------------------------------------------

section Origin

variable {origin moved : Word} {source : String} {program : Program}

theorem error_shift {error : Error} (distance : Word) (h : error.aboutLabel = false) :
    (Change.shift distance).error error = error := by
  refine Change.error_of_id rfl fun name first hlabel => ?_
  rw [hlabel] at h
  cases h

theorem exists_addressAt_of_mem_placed {entry : Word × Line}
    (h : entry ∈ placed origin (sourceLines source)) :
    ∃ k, entry.1 = addressAt origin (Text.lines source.toList) k := by
  rw [placed_eq_onLines] at h
  obtain ⟨k, text, -, hplaced⟩ := mem_onLines.mp h
  obtain ⟨line, -, rfl⟩ := Option.map_eq_some_iff.mp hplaced
  exact ⟨k, rfl⟩

variable (horigin : origin.toNat + 4 * (Text.lines source.toList).countP hasInstruction < 2 ^ 32)
  (hmoved : moved.toNat + 4 * (Text.lines source.toList).countP hasInstruction < 2 ^ 32)
include horigin hmoved

theorem keeps_shift :
    (Change.shift (moved - origin)).Keeps (placed origin (sourceLines source)) where
  letters := Text.keepsLetters_id
  order _ _ := Iff.rfl
  step addr := by
    simp only [Change.addr_shift, BitVec.add_assoc, BitVec.add_comm 4]
  distance a ha b hb := by
    obtain ⟨j, hj⟩ := exists_addressAt_of_mem_placed ha
    obtain ⟨k, hk⟩ := exists_addressAt_of_mem_placed hb
    have hfirst := moves_addressAt horigin hmoved j
    have hsecond := moves_addressAt horigin hmoved k
    rw [Moves, ← hj] at hfirst
    rw [Moves, ← hk] at hsecond
    omega

theorem moved_of_mem {e : LineError} (he : e ∈ reported (assemble origin source)) :
    e.Moved (moved.toNat - origin.toNat) ((Change.shift (moved - origin)).lineError e) := by
  refine ⟨rfl, ?_⟩
  rw [mem_reported, mem_complaints] at he
  rcases he with ⟨k, label, first, ⟨-, j, -, -, rfl⟩, rfl⟩ | ⟨k, error, hfails, rfl⟩
  · rw [Change.lineError, Change.error, Change.string_ofList]
    simp only [Change.shift, List.map_id_fun, id_eq]
    exact .label (moves_addressAt horigin hmoved j)
  · rw [Change.lineError, error_shift _ (aboutLabel_of_fails hfails)]
    exact .same (aboutLabel_of_fails hfails)

theorem moves_of_mem_entries (h : assemble origin source = .ok program) {entry : List Char × Word}
    (hentry : entry ∈ program.symbols.entries) :
    Moves (moved.toNat - origin.toNat) entry.2 ((Change.shift (moved - origin)).addr entry.2) := by
  obtain ⟨hentries, -⟩ := define_eq (assemble_eq_ok h).1
  rw [hentries, labelled_eq_labels, List.append_nil, List.mem_reverse] at hentry
  obtain ⟨k, -, -, -, -, -, haddr⟩ := mem_labels.mp hentry
  rw [haddr]
  exact moves_addressAt horigin hmoved k

end Origin

/-- For another origin a source has the same words on the same lines, or the same errors. Every
address moves as far as the origin does. -/
theorem assemble_origin {origin moved : Word} {source : String}
    (horigin : origin.toNat + 4 * (Text.lines source.toList).countP hasInstruction < 2 ^ 32)
    (hmoved : moved.toNat + 4 * (Text.lines source.toList).countP hasInstruction < 2 ^ 32) :
    (∃ program other, assemble origin source = .ok program ∧ assemble moved source = .ok other ∧
        other.words = program.words ∧ other.lineMap = program.lineMap ∧
        List.Forall₂ (fun a b => b.1 = a.1 ∧ Moves (moved.toNat - origin.toNat) a.2 b.2)
          program.symbols.entries other.symbols.entries) ∨
      ∃ errors others, assemble origin source = .error errors ∧
        assemble moved source = .error others ∧
        List.Forall₂ (LineError.Moved (moved.toNat - origin.toNat)) errors others := by
  have hlines : sourceLines source =
      (sourceLines source).map (Change.shift (moved - origin)).line := by
    rw [funext (Change.line_of_id rfl)]
    exact (List.map_id _).symm
  have hchange := assemble_change hlines (keeps_shift horigin hmoved)
  rw [Change.addr_shift_sub] at hchange
  cases h : assemble origin source with
  | ok program =>
    rw [h] at hchange
    refine .inl ⟨program, _, rfl, hchange, rfl, List.map_id program.lineMap, ?_⟩
    refine List.forall₂_map_right_iff.mpr (List.forall₂_same.mpr fun entry hentry => ⟨rfl, ?_⟩)
    exact moves_of_mem_entries horigin hmoved h hentry
  | error errors =>
    rw [h] at hchange
    refine .inr ⟨errors, _, rfl, hchange, ?_⟩
    refine List.forall₂_map_right_iff.mpr
      (List.forall₂_same.mpr fun e he => moved_of_mem horigin hmoved ?_)
    rwa [h]

def countdown : String :=
  "start: addi a0, x0, 3\nloop: addi a0, a0, -1\nbne a0, x0, loop\njal x0, start\n"

theorem assemble_origin_countdown :
    (0x80000000 : Word).toNat + 4 * (Text.lines countdown.toList).countP hasInstruction < 2 ^ 32 ∧
    (0x1000 : Word).toNat + 4 * (Text.lines countdown.toList).countP hasInstruction < 2 ^ 32 ∧
    ∃ program other, assemble 0x80000000 countdown = .ok program ∧
      assemble 0x1000 countdown = .ok other ∧
      other.words = program.words ∧ other.lineMap = program.lineMap ∧
      List.Forall₂ (fun a b => b.1 = a.1 ∧
        Moves ((0x1000 : Word).toNat - (0x80000000 : Word).toNat) a.2 b.2)
        program.symbols.entries other.symbols.entries := by
  have hcount : (Text.lines countdown.toList).countP hasInstruction = 4 := by decide +kernel
  have horigin : (0x80000000 : Word).toNat + 4 *
      (Text.lines countdown.toList).countP hasInstruction < 2 ^ 32 := by
    rw [hcount]
    decide
  have hmoved : (0x1000 : Word).toNat + 4 * (Text.lines countdown.toList).countP hasInstruction <
      2 ^ 32 := by
    rw [hcount]
    decide
  refine ⟨horigin, hmoved, (assemble_origin horigin hmoved).resolve_right ?_⟩
  rintro ⟨errors, _, hfails, -⟩
  have hprogram : (assemble 0x80000000 countdown).isOk = true := rfl
  rw [hfails] at hprogram
  cases hprogram

end RiscvBoard.Assembly
