import RiscvBoard.Board.Dump
import RiscvBoard.Proofs.Board.Laws
import RiscvBoard.Proofs.Text.Digits

/-!
# What a dump shows

`rows` says which bytes belong on which line, in numbers that do not wrap. Up to
the last address a dump is these lines and has every byte once. Past the last
address the line that is begun goes on: it is filled up to sixteen bytes or to
the length that was asked for, and what it shows there are the bytes at the
lowest addresses.
-/

namespace RiscvBoard.Board

variable {board : Board} {addr : Word} {first length : Nat}

-- ---------------------------------------------------------------------------
-- Lines
-- ---------------------------------------------------------------------------

/-- A line: the address of the first byte, and the bytes from there on, nothing where none is
mapped. -/
structure Row where
  addr : Nat
  bytes : List (Option Byte)

namespace Row

def cell : Option Byte → List Char
  | some byte => ' ' :: (Nat.toDigits 16 byte.toNat).leftpad 2 '0'
  | none => [' ', '-', '-']

def text (row : Row) : List Char :=
  (Nat.toDigits 16 row.addr).leftpad 8 '0' ++ ':' :: row.bytes.flatMap cell ++ ['\n']

theorem cell_some (byte : Byte) : cell (some byte) = ' ' :: Numeral.fixed 16 2 byte.toNat := by
  have hdigits : Numeral.fixed 16 2 byte.toNat = (Nat.toDigits 16 byte.toNat).leftpad 2 '0' :=
    Numeral.fixed_eq_leftpad (by decide) byte.isLt
  rw [cell, hdigits]

theorem text_eq {row : Row} (h : row.addr < 2 ^ 32) :
    row.text = Numeral.fixed 16 8 row.addr ++ ':' :: row.bytes.flatMap cell ++ ['\n'] := by
  have hdigits : Numeral.fixed 16 8 row.addr = (Nat.toDigits 16 row.addr).leftpad 8 '0' :=
    Numeral.fixed_eq_leftpad (by decide) h
  rw [text, hdigits]

theorem length_cells (bytes : List (Option Byte)) :
    (bytes.flatMap cell).length = 3 * bytes.length := by
  induction bytes with
  | nil => rfl
  | cons byte bytes ih =>
    have hcell : (cell byte).length = 3 := by
      cases byte with
      | none => rfl
      | some byte => rw [cell_some, List.length_cons, Numeral.length_fixed]
    rw [List.flatMap_cons, List.length_append, hcell, ih, List.length_cons]
    omega

theorem length_text {row : Row} (h : row.addr < 2 ^ 32) :
    row.text.length = 10 + 3 * row.bytes.length := by
  simp only [text_eq h, List.length_append, List.length_cons, Numeral.length_fixed, length_cells,
    List.length_nil]
  omega

theorem newline_notMem_fixed (count n : Nat) : '\n' ∉ Numeral.fixed 16 count n := fun h => by
  cases Numeral.isAlphanum_of_mem_fixed (by decide) (by decide) h

theorem newline_notMem_cell (byte : Option Byte) : '\n' ∉ cell byte := by
  cases byte with
  | none => decide
  | some byte =>
    rw [cell_some]
    exact List.not_mem_cons_of_ne_of_not_mem (by decide) (newline_notMem_fixed _ _)

theorem count_text {row : Row} (h : row.addr < 2 ^ 32) : row.text.count '\n' = 1 := by
  have hcells : '\n' ∉ row.bytes.flatMap cell := fun h => by
    obtain ⟨byte, -, hbyte⟩ := List.mem_flatMap.mp h
    exact newline_notMem_cell byte hbyte
  rw [text_eq h, List.count_append, List.count_append, List.count_cons_of_ne (by decide),
    List.count_eq_zero.mpr (newline_notMem_fixed _ _), List.count_eq_zero.mpr hcells]
  rfl

end Row

def bytesFrom (board : Board) (first count : Nat) : List (Option Byte) :=
  (List.range count).map fun i => board.peek? (BitVec.ofNat 32 (first + i))

def row (board : Board) (first count : Nat) : Row := ⟨first, board.bytesFrom first count⟩

def rows (board : Board) (first length : Nat) : List Row :=
  (List.range ((length + 15) / 16)).map fun r =>
    board.row (first + 16 * r) (min 16 (length - 16 * r))

theorem rowText_eq (board : Board) (addr : Word) (count : Nat) :
    board.rowText addr count = (board.row addr.toNat count).text := by
  have hcell : ∀ i, board.cellText (addr + BitVec.ofNat 32 i) =
      Row.cell (board.peek? (BitVec.ofNat 32 (addr.toNat + i))) := by
    intro i
    rw [BitVec.ofNat_add, BitVec.ofNat_toNat, BitVec.setWidth_eq, cellText]
    cases board.peek? (addr + BitVec.ofNat 32 i) with
    | none => rfl
    | some byte => exact (Row.cell_some byte).symm
  rw [Row.text_eq addr.isLt, rowText]
  simp only [row, bytesFrom, List.flatMap_map, hcell]

-- ---------------------------------------------------------------------------
-- Every byte once
-- ---------------------------------------------------------------------------

theorem flatMap_chunks {α : Type} (f : Nat → α) (length count : Nat) :
    (List.range count).flatMap (fun r => (List.range (min 16 (length - 16 * r))).map fun i =>
      f (16 * r + i)) = (List.range (min length (16 * count))).map f := by
  induction count with
  | zero => simp
  | succ count ih =>
    have hsplit : min length (16 * (count + 1)) =
        min length (16 * count) + min 16 (length - 16 * count) := by omega
    rw [List.range_succ, List.flatMap_append, ih, hsplit, List.range_add, List.map_append,
      List.flatMap_singleton, List.map_map]
    refine congrArg _ (List.map_congr_left fun i hi => congrArg f ?_)
    have hin := List.mem_range.mp hi
    show 16 * count + i = min length (16 * count) + i
    omega

theorem length_rows (board : Board) (first length : Nat) :
    (board.rows first length).length = (length + 15) / 16 := by
  rw [rows, List.length_map, List.length_range]

theorem bytes_rows (board : Board) (first length : Nat) :
    (board.rows first length).flatMap Row.bytes = board.bytesFrom first length := by
  have hall : min length (16 * ((length + 15) / 16)) = length := by omega
  have hchunks :=
    flatMap_chunks (fun i => board.peek? (BitVec.ofNat 32 (first + i))) length ((length + 15) / 16)
  rw [hall] at hchunks
  simpa only [rows, row, bytesFrom, List.flatMap_map, Nat.add_assoc] using hchunks

theorem length_bytesFrom (board : Board) (first count : Nat) :
    (board.bytesFrom first count).length = count := by
  rw [bytesFrom, List.length_map, List.length_range]

theorem bytesFrom_add (board : Board) (first length count : Nat) :
    board.bytesFrom first (length + count) =
      board.bytesFrom first length ++ board.bytesFrom (first + length) count := by
  rw [bytesFrom, List.range_add, List.map_append, List.map_map]
  simp only [bytesFrom, Function.comp_def, Nat.add_assoc]

theorem bytesFrom_wrap (board : Board) (count : Nat) :
    board.bytesFrom (2 ^ 32) count = board.bytesFrom 0 count := by
  refine List.map_congr_left fun i _ => congrArg board.peek? ?_
  apply BitVec.eq_of_toNat_eq
  simp

/-- The bytes on the lines that begin up to the last address. -/
def room (first : Nat) : Nat := (2 ^ 32 - first + 15) / 16 * 16

theorem min_room_of_le (h : first + length ≤ 2 ^ 32) : min length (room first) = length := by
  simp only [room]
  omega

/-- The last address is the last one of a multiple of sixteen, so a line has room behind it for as
many bytes as its first address is off such a multiple. -/
theorem min_room_of_lt (hfirst : first < 2 ^ 32) (h : 2 ^ 32 < first + length) :
    min length (room first) = 2 ^ 32 - first + min (length - (2 ^ 32 - first)) (first % 16) := by
  simp only [room]
  omega

theorem addr_lt_of_mem_rows {row : Row} (h : row ∈ board.rows first length)
    (hroom : length ≤ room first) : row.addr < 2 ^ 32 := by
  obtain ⟨r, hr, rfl⟩ := List.mem_map.mp h
  have hin := List.mem_range.mp hr
  simp only [room] at hroom
  show first + 16 * r < 2 ^ 32
  omega

theorem length_flatMap_text {rows : List Row} (h : ∀ row ∈ rows, row.addr < 2 ^ 32) :
    (rows.flatMap Row.text).length = 10 * rows.length + 3 * (rows.flatMap Row.bytes).length := by
  induction rows with
  | nil => rfl
  | cons row rows ih =>
    obtain ⟨hrow, hrows⟩ := List.forall_mem_cons.mp h
    simp only [List.flatMap_cons, List.length_append, Row.length_text hrow, ih hrows,
      List.length_cons]
    omega

theorem count_flatMap_text {rows : List Row} (h : ∀ row ∈ rows, row.addr < 2 ^ 32) :
    (rows.flatMap Row.text).count '\n' = rows.length := by
  induction rows with
  | nil => rfl
  | cons row rows ih =>
    obtain ⟨hrow, hrows⟩ := List.forall_mem_cons.mp h
    rw [List.flatMap_cons, List.count_append, Row.count_text hrow, ih hrows, List.length_cons,
      Nat.add_comm]

-- ---------------------------------------------------------------------------
-- The loop
-- ---------------------------------------------------------------------------

/-- What the loop adds from the address `row` on. The lines begin before `stop` and at 32-bit
addresses, the bytes on them are counted up to `stop` alone. -/
theorem toList_dumpFrom (board : Board) (stop : Nat) (shown : String) (row : Word) :
    (board.dumpFrom stop shown row).toList = shown.toList ++
      (List.range ((min stop (2 ^ 32) - row.toNat + 15) / 16)).flatMap fun r =>
        (board.row (row.toNat + 16 * r) (min 16 (stop - (row.toNat + 16 * r)))).text := by
  fun_induction dumpFrom board stop shown row with
  | case1 shown row hstop line hnext ih =>
    have hrow : (row + 16).toNat = row.toNat + 16 := by bv_omega
    have hcount : (min stop (2 ^ 32) - row.toNat + 15) / 16 =
        (min stop (2 ^ 32) - (row.toNat + 16) + 15) / 16 + 1 := by
      omega
    rw [ih, hrow, hcount, List.range_succ_eq_map, List.flatMap_cons, List.flatMap_map]
    have hnumber : ∀ r, row.toNat + 16 + 16 * r = row.toNat + 16 * (r + 1) := fun r => by omega
    simp only [line, hnumber, rowText_eq, String.toList_append, String.toList_ofList,
      List.append_assoc, Nat.mul_zero, Nat.add_zero]
  | case2 shown row hstop line hnext =>
    have hcount : (min stop (2 ^ 32) - row.toNat + 15) / 16 = 1 := by
      have := row.isLt
      omega
    rw [hcount]
    simp [line, rowText_eq]
  | case3 shown row hstop =>
    have hcount : (min stop (2 ^ 32) - row.toNat + 15) / 16 = 0 := by omega
    rw [hcount]
    simp

theorem toList_dump (board : Board) (addr : Word) (length : Nat) :
    (board.dump addr length).toList =
      (board.rows addr.toNat (min length (room addr.toNat))).flatMap Row.text := by
  have haddr := addr.isLt
  have hcount : (min (addr.toNat + length) (2 ^ 32) - addr.toNat + 15) / 16 =
      (min length (room addr.toNat) + 15) / 16 := by
    simp only [room]
    omega
  rw [dump, toList_dumpFrom, hcount, rows, List.flatMap_map, String.toList_empty, List.nil_append]
  refine congrArg List.flatten (List.map_congr_left fun r hr => ?_)
  have hin := List.mem_range.mp hr
  -- on the last line the room ends where sixteen bytes end
  have hbytes : min 16 (addr.toNat + length - (addr.toNat + 16 * r)) =
      min 16 (min length (room addr.toNat) - 16 * r) := by
    simp only [room] at hin ⊢
    omega
  rw [hbytes]

theorem length_dump (board : Board) (addr : Word) (length : Nat) :
    let shown := min length (room addr.toNat)
    (board.dump addr length).toList.length = 10 * ((shown + 15) / 16) + 3 * shown := by
  intro shown
  have hrows : ∀ row ∈ board.rows addr.toNat shown, row.addr < 2 ^ 32 := fun row hrow =>
    addr_lt_of_mem_rows hrow (Nat.min_le_right ..)
  rw [toList_dump, length_flatMap_text hrows, length_rows, bytes_rows, length_bytesFrom]

-- ---------------------------------------------------------------------------
-- Up to the last address
-- ---------------------------------------------------------------------------

/-- A range that does not go past the last address is shown as it is: sixteen bytes on a line and
the rest on the last one, each address once and in order. -/
theorem dump_rows (board : Board) (h : addr.toNat + length ≤ 2 ^ 32) :
    (board.dump addr length).toList = (board.rows addr.toNat length).flatMap Row.text ∧
      (board.dump addr length).toList.count '\n' = (length + 15) / 16 ∧
      (board.rows addr.toNat length).flatMap Row.bytes = board.bytesFrom addr.toNat length := by
  have hroom : length ≤ room addr.toNat := min_room_of_le h ▸ Nat.min_le_right ..
  have htext := toList_dump board addr length
  rw [min_room_of_le h] at htext
  refine ⟨htext, ?_, bytes_rows ..⟩
  rw [htext, count_flatMap_text fun row hrow => addr_lt_of_mem_rows hrow hroom, length_rows]

/-- Past the end of the ROM nothing is mapped. -/
theorem dump_rows_halfword :
    (0 : Word).toNat + 18 ≤ 2 ^ 32 ∧
      halfword.dump 0 18 =
        "00000000: 34 82 -- -- -- -- -- -- -- -- -- -- -- -- -- --\n00000010: -- --\n" ∧
      (halfword.dump 0 18).toList.count '\n' = 2 := by
  have hend : (0 : Word).toNat + 18 ≤ 2 ^ 32 := by decide
  obtain ⟨htext, hcount, -⟩ := dump_rows halfword hend
  exact ⟨hend, String.toList_inj.mp (htext.trans rfl), hcount⟩

-- ---------------------------------------------------------------------------
-- Past the last address
-- ---------------------------------------------------------------------------

/-- A range that goes past the last address is cut at the end of the line that is begun. The bytes
that are left on that line come from the lowest addresses; there are none exactly if the first
address is a multiple of sixteen. -/
theorem dump_past_top (board : Board) (h : 2 ^ 32 < addr.toNat + length) :
    let left := 2 ^ 32 - addr.toNat
    let behind := min (length - left) (addr.toNat % 16)
    (board.dump addr length).toList = (board.rows addr.toNat (left + behind)).flatMap Row.text ∧
      (board.rows addr.toNat (left + behind)).flatMap Row.bytes =
        board.bytesFrom addr.toNat left ++ board.bytesFrom 0 behind ∧
      (board.dump addr length = board.dump addr left ↔ addr.toNat % 16 = 0) := by
  intro left behind
  have htop : addr.toNat + left = 2 ^ 32 := by omega
  have hshown : min length (room addr.toNat) = left + behind := min_room_of_lt addr.isLt h
  have hleft : min left (room addr.toNat) = left := min_room_of_le (Nat.le_of_eq htop)
  have htext := toList_dump board addr length
  have hcut := toList_dump board addr left
  rw [hshown] at htext
  rw [hleft] at hcut
  refine ⟨htext, ?_, fun heq => ?_, fun hzero => ?_⟩
  · rw [bytes_rows, bytesFrom_add, htop, bytesFrom_wrap]
  · -- each byte behind the last address adds three characters
    have hlong := length_dump board addr length
    have hshort := length_dump board addr left
    simp only [heq, hshown, hleft] at hlong hshort
    omega
  · have hbehind : behind = 0 := by omega
    rw [hbehind, Nat.add_zero, ← hcut] at htext
    exact String.toList_inj.mp htext

theorem dump_past_top_halfword :
    2 ^ 32 < (0xFFFFFFFE : Word).toNat + 3 ∧ halfword.dump 0xFFFFFFFE 3 = "fffffffe: -- -- 34\n" ∧
      halfword.dump 0xFFFFFFFE 3 ≠ halfword.dump 0xFFFFFFFE 2 := by
  have hend : 2 ^ 32 < (0xFFFFFFFE : Word).toNat + 3 := by decide
  obtain ⟨htext, -, hcut⟩ := dump_past_top halfword hend
  exact ⟨hend, String.toList_inj.mp (htext.trans rfl), fun heq => absurd (hcut.mp heq) (by decide)⟩

/-- The bytes of the ROM stand behind the last address as if they followed it. -/
theorem dump_shows_rom :
    2 ^ 32 < (0xFFFFFFF8 : Word).toNat + 16 ∧
      halfword.dump 0xFFFFFFF8 16 = "fffffff8: -- -- -- -- -- -- -- -- 34 82 -- -- -- -- -- --\n" ∧
      halfword.dump 0xFFFFFFF8 16 ≠
        halfword.dump 0xFFFFFFF8 (2 ^ 32 - (0xFFFFFFF8 : Word).toNat) := by
  have hwrapped : halfword.dump 0xFFFFFFF8 16 =
      "fffffff8: -- -- -- -- -- -- -- -- 34 82 -- -- -- -- -- --\n" :=
    String.toList_inj.mp ((toList_dump ..).trans rfl)
  have hcut : halfword.dump 0xFFFFFFF8 (2 ^ 32 - (0xFFFFFFF8 : Word).toNat) =
      "fffffff8: -- -- -- -- -- -- -- --\n" :=
    String.toList_inj.mp ((toList_dump ..).trans rfl)
  refine ⟨by decide, hwrapped, ?_⟩
  rw [hwrapped, hcut]
  decide

end RiscvBoard.Board
