import RiscvBoard.Proofs.Board.Laws

/-!
# Loading the ROM

A program is loaded as a whole or not at all. In place the ROM is cleared and
its whole words are filled one by one, and the loop ends where the words or the
places for them end; a ROM need not consist of whole words. Room is looked for
before the first change, so that no word is dropped and nothing is left of an
earlier program, and a board without room stays as it is.
-/

namespace RiscvBoard

-- ---------------------------------------------------------------------------
-- Words in cells
-- ---------------------------------------------------------------------------

def Cells.putWords (cells : Cells) (off : Nat) : List Word → Cells
  | [] => cells
  | word :: words => putWords (cells.store off word .word) (off + 4) words

theorem Cells.size_putWords (cells : Cells) (off : Nat) (words : List Word) :
    (putWords cells off words).size = cells.size := by
  induction words generalizing cells off with
  | nil => rfl
  | cons word words ih => rw [putWords, ih, size_store]

theorem Cells.get_putWords {cells : Cells} {off : Nat} {words : List Word}
    (h : off + 4 * words.length ≤ cells.size) (j : Nat) :
    get (putWords cells off words) j =
      if off ≤ j ∧ j < off + 4 * words.length
        then (words.getD ((j - off) / 4) 0).byte ((j - off) % 4)
      else get cells j := by
  induction words generalizing cells off with
  | nil =>
    rw [putWords, if_neg]
    intro hj
    exact Nat.not_lt.mpr hj.1 hj.2
  | cons word words ih =>
    rw [List.length_cons] at h ⊢
    have hword : off + Width.word.bytes ≤ cells.size := by
      change off + 4 ≤ cells.size
      omega
    rw [putWords, ih (by rw [size_store]; omega), store, get_storeBytes cells off word _ j hword]
    change (if _ then _ else if off ≤ j ∧ j < off + 4 then _ else _) = _
    by_cases hfirst : off ≤ j ∧ j < off + 4
    · rw [if_neg (by omega), if_pos hfirst, if_pos (by omega), Nat.div_eq_of_lt (by omega),
        Nat.mod_eq_of_lt (by omega)]
      rfl
    · by_cases hlater : off + 4 ≤ j ∧ j < off + 4 + 4 * words.length
      · obtain ⟨k, hk⟩ := Nat.exists_eq_add_of_le hlater.1
        have hleft : j - (off + 4) = k := by omega
        have hright : j - off = 4 + k := by omega
        rw [if_pos hlater, if_pos (by omega), hleft, hright, Nat.add_mod_left,
          Nat.add_div_left k (by decide), List.getD_cons_succ]
      · rw [if_neg hlater, if_neg hfirst, if_neg (by omega)]

-- ---------------------------------------------------------------------------
-- Words in the ROM
-- ---------------------------------------------------------------------------

namespace Board

variable {board after : Board} {words : List Word}

def fillRom (board : Board) (words : List Word) : Board :=
  { board with
    rom := Cells.putWords (.zeros board.rom.size) 0 words
    rom_le := by rw [Cells.size_putWords, Cells.size_zeros]; exact board.rom_le }

theorem loadRom_eq (board : Board) (words : List Word) : board.loadRom words =
    if 4 * words.length ≤ board.rom.size then .ok (board.fillRom words)
    else .error board.rom.size := by
  unfold loadRom
  split
  · rename_i hfits
    refine congrArg Except.ok ?_
    unfold fillRom
    congr 1
    refine Cells.ext_get ?_ fun j => ?_
    · rw [Cells.size_putWords, Cells.size_zeros, Array.size_append, List.size_toArray,
        length_bytesOfWords, Cells.size_zeros, Nat.add_sub_cancel' hfits]
    · have hroom : 0 + 4 * words.length ≤ (Cells.zeros board.rom.size).size := by
        rwa [Cells.size_zeros, Nat.zero_add]
      rw [Cells.get_words, Cells.get_putWords hroom, Nat.zero_add, Nat.sub_zero]
      split
      · rfl
      · rename_i hj
        have hword : words.length ≤ j / 4 := by omega
        rw [List.getD_eq_getElem?_getD, List.getElem?_eq_none hword, Option.getD_none,
          Cells.get_zeros, Word.byte_zero]
  · rfl

/-- The ROM has these words from its start on, and zeros behind them. -/
def HasProgram (board : Board) (words : List Word) : Prop :=
  ∀ j, board.rom.get j = (words.getD (j / 4) 0).byte (j % 4)

theorem hasProgram_loadRom (h : board.loadRom words = .ok after) : after.HasProgram words := by
  unfold loadRom at h
  split at h
  · cases h
    exact Cells.get_words words _
  · cases h

theorem load_of_hasProgram {addr : Word} (h : board.HasProgram words)
    (haligned : addr.toNat % 4 = 0) (hroom : addr.toNat + 4 ≤ board.rom.size) :
    Bus.load board addr .word false = .ok (words.getD (addr.toNat / 4) 0) := by
  have hroute : board.route addr .word = .ok (.rom, addr.toNat) :=
    route_eq_ok_iff.mpr ⟨(Nat.zero_add _).symm, hroom, nofun⟩
  have hword : board.readAt .rom addr.toNat .word = words.getD (addr.toNat / 4) 0 := by
    refine Eq.trans (Word.ofBytes_shift fun i hi => ?_) (Word.ofBytes_byte _)
    change i < 4 at hi
    have hindex : (addr.toNat + i) / 4 = addr.toNat / 4 := by omega
    have hbyte : (addr.toNat + i) % 4 = i := by omega
    rw [h, hindex, hbyte, Nat.zero_add]
  rw [Bus.load, read_eq, hroute]
  refine congrArg Except.ok ?_
  dsimp only
  rw [hword]
  exact BitVec.setWidth_eq _

end Board

-- ---------------------------------------------------------------------------
-- Loading in place
-- ---------------------------------------------------------------------------

def Memory.putWords (place : Nat) : List Word → Work Memory Unit
  | [] => pure ()
  | word :: words => do
    if place < (← get).size / 4 then
      putBytes (4 * place) word 4
      putWords (place + 1) words

def Parts.loadRom (words : List Word) : Work Parts (Except Nat Unit) := do
  let capacity := (← get).rom.size
  if capacity < words.length * 4 then return .error capacity
  onRom do
    modify Memory.clear
    Memory.putWords 0 words
  return .ok ()

theorem Memory.putWords_eq {m : Memory} {place : Nat} {words : List Word}
    (h : 4 * (place + words.length) ≤ m.size) :
    putWords place words m = .ok () { m with cells := m.cells.putWords (4 * place) words } := by
  induction words generalizing m place with
  | nil => rfl
  | cons word words ih =>
    rw [List.length_cons] at h
    have hplace : place < m.size / 4 := by omega
    have hput : putBytes (4 * place) word 4 m =
        .ok () { m with cells := m.cells.storeBytes (4 * place) word 4 } :=
      putBytes_eq word (by omega)
    change (if place < m.size / 4 then do putBytes (4 * place) word 4; putWords (place + 1) words
      else pure () : Work Memory Unit) m = _
    rw [if_pos hplace, Work.bind_of_ok hput, ih]
    · rfl
    · change _ ≤ Array.size (Cells.storeBytes ..)
      rw [Cells.size_storeBytes]
      change _ ≤ m.size
      omega

namespace Board

variable {board after other : Board} {words : List Word}

/-- A load of the parts is the load of the board, and a board without room is left as it was. -/
theorem loadRom_parts (board : Board) (words : List Word) : Parts.loadRom words board.parts =
    match board.loadRom words with
    | .ok after => .ok (.ok ()) after.parts
    | .error capacity => .ok (.error capacity) board.parts := by
  have hcapacity : board.parts.rom.size = board.rom.size := rfl
  change (if board.parts.rom.size < words.length * 4 then _ else _ : Work Parts (Except Nat Unit))
    board.parts = _
  rw [loadRom_eq, hcapacity, Nat.mul_comm]
  by_cases hfits : 4 * words.length ≤ board.rom.size
  · have hroom : 4 * (0 + words.length) ≤ board.parts.rom.clear.size := by
      change _ ≤ (Cells.zeros board.rom.size).size
      rwa [Cells.size_zeros, Nat.zero_add]
    have hrom : Parts.onRom (do modify Memory.clear; Memory.putWords 0 words) board.parts =
        .ok () (board.fillRom words).parts := Work.part_of_ok (Memory.putWords_eq hroom)
    rw [if_pos hfits, if_neg (Nat.not_lt.mpr hfits)]
    exact Work.bind_of_ok hrom
  · rw [if_neg hfits, if_pos (Nat.lt_of_not_le hfits)]
    rfl

-- ---------------------------------------------------------------------------
-- All or nothing
-- ---------------------------------------------------------------------------

/-- What a load leaves: the words, zeros behind them, and the rest of the board as it was. -/
structure Loaded (board : Board) (words : List Word) (after : Board) : Prop where
  word : ∀ i (h : i < words.length), Bus.load after (BitVec.ofNat 32 (4 * i)) .word false =
    .ok words[i]
  rest : ∀ j, 4 * words.length ≤ j → j < board.rom.size → after.rom[j]? = some 0
  size : after.rom.size = board.rom.size
  config : after.config = board.config
  others : after = { board with rom := after.rom, rom_le := after.rom_le }

theorem toNat_place {words : List Word} {i : Nat} (hfits : 4 * words.length ≤ board.rom.size)
    (h : i < words.length) : (BitVec.ofNat 32 (4 * i)).toNat = 4 * i := by
  have hsize := board.rom_le
  rw [Region.maxMemory] at hsize
  rw [BitVec.toNat_ofNat, Nat.mod_eq_of_lt (by omega)]

theorem fits_of_loadRom (h : board.loadRom words = .ok after) :
    4 * words.length ≤ board.rom.size := by
  rw [loadRom_eq] at h
  split at h
  · assumption
  · cases h

theorem HasProgram.get_of_le (h : board.HasProgram words) {j : Nat} (hj : 4 * words.length ≤ j) :
    board.rom.get j = 0 := by
  have hword : words.length ≤ j / 4 := by omega
  rw [h, List.getD_eq_getElem?_getD, List.getElem?_eq_none hword, Option.getD_none, Word.byte_zero]

theorem loaded_of_loadRom (h : board.loadRom words = .ok after) : board.Loaded words after := by
  have hfits := fits_of_loadRom h
  have hprogram := hasProgram_loadRom h
  have hsize : after.rom.size = board.rom.size := congrArg Config.romSize (config_loadRom h)
  refine ⟨fun i hi => ?_, fun j hwords hj => ?_, hsize, config_loadRom h, ?_⟩
  · have hplace := toNat_place hfits hi
    rw [load_of_hasProgram hprogram (by omega) (by omega), hplace,
      Nat.mul_div_cancel_left i (by decide), List.getD_eq_getElem?_getD,
      List.getElem?_eq_getElem hi, Option.getD_some]
  · rw [Cells.getElem?_eq_get (by omega), hprogram.get_of_le hwords]
  · rw [loadRom_eq, if_pos hfits] at h
    cases h
    rfl

theorem Loaded.hasProgram (h : board.Loaded words after)
    (hfits : 4 * words.length ≤ board.rom.size) : after.HasProgram words := by
  have hsize := h.size
  intro j
  by_cases hj : j < 4 * words.length
  · have hi : j / 4 < words.length := by omega
    have hplace := toNat_place hfits hi
    have hindex : 4 * (j / 4) + j % 4 = j := by omega
    obtain ⟨raw, hread, hraw⟩ := map_eq_ok.mp (h.word (j / 4) hi)
    obtain ⟨f, rfl, hbytes⟩ := read_eq_ok hread
    have hshown : after.peek? (BitVec.ofNat 32 (4 * (j / 4)) + BitVec.ofNat 32 (j % 4)) =
        some (after.byteAt .rom (4 * (j / 4) + j % 4)) :=
      peek?_add (hplace.trans (Nat.zero_add _).symm) (by change _ < after.rom.size; omega)
    rw [hbytes (j % 4) (Nat.mod_lt j (by decide)), hindex] at hshown
    have hbyte : (Word.ofBytes f 0 .word).byte (j % 4) = f (0 + j % 4) :=
      Word.byte_ofBytes (Nat.mod_lt j (by decide))
    have hwhole : (Word.ofBytes f 0 .word).extend .word false = Word.ofBytes f 0 .word :=
      BitVec.setWidth_eq _
    rw [List.getD_eq_getElem?_getD, List.getElem?_eq_getElem hi, Option.getD_some, ← hraw, hwhole,
      hbyte, Nat.zero_add]
    exact (Option.some.inj hshown).symm
  · have hword : words.length ≤ j / 4 := by omega
    rw [List.getD_eq_getElem?_getD, List.getElem?_eq_none hword, Option.getD_none, Word.byte_zero]
    by_cases hin : j < board.rom.size
    · have hzero := h.rest j (Nat.le_of_not_lt hj) hin
      rw [Cells.getElem?_eq_get (by omega)] at hzero
      exact Option.some.inj hzero
    · have hnone : after.rom[j]? = none := Array.getElem?_eq_none (by omega)
      rw [Cells.get, Array.getD_eq_getD_getElem?, hnone, Option.getD_none]

theorem Loaded.unique (h : board.Loaded words after) (hother : board.Loaded words other)
    (hfits : 4 * words.length ≤ board.rom.size) : after = other := by
  have hrom : after.rom = other.rom := by
    refine Cells.ext_get (h.size.trans hother.size.symm) fun j => ?_
    rw [h.hasProgram hfits, hother.hasProgram hfits]
  rw [h.others, hother.others]
  simp only [hrom]

/-- A load is made exactly if there is room for all words. Then the ROM reads as the words and has
zeros behind them; if there is no room the size of the ROM is answered and nothing has changed. -/
theorem loadRom_all_or_nothing (board : Board) (words : List Word) :
    (∀ after, board.loadRom words = .ok after ↔
      4 * words.length ≤ board.rom.size ∧ board.Loaded words after) ∧
      (∀ capacity, board.loadRom words = .error capacity ↔
        ¬4 * words.length ≤ board.rom.size ∧ capacity = board.rom.size) ∧
      Parts.loadRom words board.parts = match board.loadRom words with
        | .ok after => .ok (.ok ()) after.parts
        | .error capacity => .ok (.error capacity) board.parts := by
  refine ⟨fun after => ⟨fun h => ⟨fits_of_loadRom h, loaded_of_loadRom h⟩, ?_⟩, fun capacity => ?_,
    loadRom_parts board words⟩
  · rintro ⟨hfits, hloaded⟩
    have hload : board.loadRom words = .ok (board.fillRom words) := by rw [loadRom_eq, if_pos hfits]
    rw [hload, (loaded_of_loadRom hload).unique hloaded hfits]
  · rw [loadRom_eq]
    by_cases hfits : 4 * words.length ≤ board.rom.size
    · simp [hfits]
    · simp [hfits, eq_comm]

def worn : Board where
  rom := .replicate 10 0xFF
  ram := #[7]
  romWritable := false
  rom_le := by decide
  ram_le := by decide

theorem loadRom_all_or_nothing_worn :
    (∃ after, worn.loadRom [0x00A00093] = .ok after ∧ worn.Loaded [0x00A00093] after) ∧
      worn.loadRom [1, 2, 3] = .error 10 := by
  obtain ⟨hloaded, -, -⟩ := loadRom_all_or_nothing worn [0x00A00093]
  obtain ⟨-, hrefused, -⟩ := loadRom_all_or_nothing worn [1, 2, 3]
  have hload : worn.loadRom [0x00A00093] = .ok (worn.fillRom [0x00A00093]) := loadRom_eq worn _
  exact ⟨⟨_, hload, ((hloaded _).mp hload).2⟩, (hrefused 10).mpr ⟨by decide, by decide⟩⟩

end Board

end RiscvBoard
