import RiscvBoard.Proofs.Board.Parts

/-!
# What an access does at every address

A read gives the number of the bytes that a dump shows, and a write leaves all
other addresses as they are, mapped or not. Both are stated of whole accesses:
for a machine that reads and writes its parts one by one, too, and for accesses
that end with a fault.
-/

namespace RiscvBoard.Board

variable {board : Board} {addr value : Word} {width : Width} {region : Region} {off : Nat}

-- ---------------------------------------------------------------------------
-- Reads
-- ---------------------------------------------------------------------------

theorem add_lt_of_route (h : board.route addr width = .ok (region, off)) {i : Nat}
    (hi : i < width.bytes) : addr.toNat + i < 2 ^ 32 := by
  obtain ⟨haddr, hsize, -⟩ := route_eq_ok_iff.mp h
  have hlast := board.sizeOf_le region
  have hbase : region.base ≤ 0x40000000 := by cases region <;> decide
  simp only [Region.maxMemory] at hlast
  omega

theorem route_byte (board : Board) (addr : Word) :
    board.route addr .byte = match board.locate? addr with
      | some place => .ok place
      | none => .error (.unmapped addr) := by
  unfold route
  cases hl : board.locate? addr with
  | none => rfl
  | some place =>
    obtain ⟨region, off⟩ := place
    have hoff := (locate?_eq_some_iff.mp hl).1
    have hone : Width.byte.bytes = 1 := rfl
    have hsize : ¬board.sizeOf region < off + Width.byte.bytes := Nat.not_lt.mpr hoff
    have hregister : ¬(region.isDevice && decide (4 < off % 4 + Width.byte.bytes)) = true := by
      rw [Bool.and_eq_true, decide_eq_true_eq, hone]
      omega
    simp only [if_neg hsize, if_neg hregister]

/-- A byte can be read exactly where one can be seen. -/
theorem load_byte (board : Board) (addr : Word) :
    (Bus.load board addr .byte false).toOption.map (BitVec.setWidth 8) = board.peek? addr := by
  simp only [Bus.load, Bus.read, route_byte, peek?]
  cases board.locate? addr with
  | none => rfl
  | some place =>
    obtain ⟨region, off⟩ := place
    exact congrArg some (Word.setWidth_extend_byte (board.readAt region off .byte))

/-- A read gives the little-endian number of the bytes that are seen one by one, extended to a word
with the sign or with zeros, and changes nothing; a byte can be read at every address that has
one. -/
theorem load_little_endian (board : Board) (addr : Word) (width : Width) (signed : Bool) :
    Parts.read addr width signed board.parts =
        Work.answer board.parts (Bus.load board addr width signed) ∧
      (∀ value, Bus.load board addr width signed = .ok value → ∃ b : Nat → Byte,
        (∀ i < width.bytes, addr.toNat + i < 2 ^ 32 ∧
          board.peek? (addr + BitVec.ofNat 32 i) = some (b i)) ∧
        value = BitVec.ofInt 32
          (if signed then (littleEndian b 0 width.bytes : Int).bmod (2 ^ width.bits)
            else littleEndian b 0 width.bytes)) ∧
      (Bus.load board addr .byte false).toOption.map (BitVec.setWidth 8) = board.peek? addr := by
  refine ⟨read_parts board addr width signed, fun value h => ?_, load_byte board addr⟩
  obtain ⟨raw, hread, rfl⟩ := map_eq_ok.mp h
  obtain ⟨b, rfl, hbytes⟩ := read_eq_ok hread
  rw [read_eq] at hread
  obtain ⟨⟨region, off⟩, hroute, -⟩ := map_eq_ok.mp hread
  exact ⟨b, fun i hi => ⟨add_lt_of_route hroute hi, hbytes i hi⟩,
    Word.extend_ofBytes b width signed⟩

def halfword : Board where
  rom := #[0x34, 0x82]
  ram := #[]
  romWritable := true
  rom_le := by decide
  ram_le := by decide

theorem load_little_endian_halfword :
    Bus.load halfword 0 .half true = .ok 0xFFFF8234 ∧ ∃ b : Nat → Byte,
      (∀ i < Width.half.bytes, (0 : Word).toNat + i < 2 ^ 32 ∧
        halfword.peek? (0 + BitVec.ofNat 32 i) = some (b i)) ∧
      0xFFFF8234 = BitVec.ofInt 32
        ((littleEndian b 0 Width.half.bytes : Int).bmod (2 ^ Width.half.bits)) := by
  have hload : Bus.load halfword 0 .half true = .ok 0xFFFF8234 := rfl
  obtain ⟨-, hbytes, -⟩ := load_little_endian halfword 0 .half true
  obtain ⟨b, hb, hvalue⟩ := hbytes _ hload
  rw [if_pos rfl] at hvalue
  exact ⟨hload, b, hb, hvalue⟩

-- ---------------------------------------------------------------------------
-- Writes
-- ---------------------------------------------------------------------------

/-- What the byte at an address shows after a byte was written to it. The status register of the
UART keeps one of its bits and shows another one set. -/
def readBack (x : Nat) (byte : Byte) : Byte :=
  if x = 0x30000004 then byte &&& 2 ||| 1
  else if 0x30000004 < x ∧ x < 0x30000008 then 0
  else byte

theorem shown_eq_readBack (hoff : off < board.sizeOf region) (byte : Byte) :
    region.shown off byte = readBack (region.base + off) byte := by
  have hsize := Nat.lt_of_lt_of_le hoff (board.sizeOf_le region)
  simp only [Region.maxMemory] at hsize
  unfold Region.shown readBack
  by_cases hstatus : region = .uart ∧ off / 4 = 1
  · obtain ⟨rfl, hregister⟩ := hstatus
    have hbase : Region.uart.base = 0x30000000 := rfl
    rw [if_pos ⟨rfl, hregister⟩, Uart.shownStatus]
    by_cases hfirst : off % 4 = 0
    · rw [if_pos hfirst, if_pos (by omega)]
    · rw [if_neg hfirst, if_neg (by omega), if_pos (by omega)]
  · have houtside : region.base + off < 0x30000004 ∨ 0x30000008 ≤ region.base + off := by
      cases region <;> simp only [Region.base, true_and, reduceCtorEq, false_and] at hstatus ⊢ <;>
        omega
    rw [if_neg hstatus, if_neg (by omega), if_neg (by omega)]

theorem peek?_store_at (h : board.refusal? addr width = none) (value x : Word) :
    (Bus.store board addr value width).peek? x =
      if addr.toNat ≤ x.toNat ∧ x.toNat < addr.toNat + width.bytes then
        some (readBack x.toNat (value.byte (x.toNat - addr.toNat)))
      else board.peek? x := by
  obtain ⟨⟨region, off, haddr, hsize, hbytes⟩, hothers⟩ := peek?_store h value
  have hplace : ∀ k < width.bytes, (addr + BitVec.ofNat 32 k).toNat = addr.toNat + k := by
    intro k hk
    rw [toNat_add haddr (Nat.lt_of_lt_of_le (Nat.add_lt_add_left hk off) hsize), haddr,
      Nat.add_assoc]
  by_cases hx : addr.toNat ≤ x.toNat ∧ x.toNat < addr.toNat + width.bytes
  · have hk : x.toNat - addr.toNat < width.bytes := by omega
    have hoff : off + (x.toNat - addr.toNat) < board.sizeOf region := by omega
    have hxk : addr + BitVec.ofNat 32 (x.toNat - addr.toNat) = x := BitVec.eq_of_toNat_eq (by
      rw [hplace _ hk]
      omega)
    have hbyte := hbytes _ hk
    rw [hxk, shown_eq_readBack hoff, ← Nat.add_assoc, ← haddr, Nat.add_sub_cancel' hx.1] at hbyte
    rw [if_pos hx, hbyte]
  · rw [if_neg hx]
    refine hothers x fun k hk heq => hx ?_
    rw [heq, hplace k hk]
    omega

theorem config_writeAt (board : Board) (region : Region) (off : Nat) (value : Word)
    (width : Width) : (board.writeAt region off value width).config = board.config := by
  have hrom := board.sizeOf_writeAt region off value width .rom
  have hram := board.sizeOf_writeAt region off value width .ram
  have hwritable : (board.writeAt region off value width).romWritable = board.romWritable := by
    cases region <;> rfl
  simp only [sizeOf] at hrom hram
  rw [config, config, hrom, hram, hwritable]

theorem write_keeps {α : Type} {f : Board → α}
    (h : ∀ board region off value width, f (writeAt board region off value width) = f board)
    (board : Board) (addr value : Word) (width : Width) :
    f (Bus.write board addr value width).2 = f board := by
  unfold Bus.write
  split
  · rfl
  · simp only [Bus.store]
    split
    · exact h ..
    · rfl

/-- A write that is not refused replaces the bytes under it and no other byte, mapped or not, and
one that is refused changes nothing at all, even if the parts change while it runs. The
configuration and the sizes stay. -/
theorem peek?_write (board : Board) (addr value : Word) (width : Width) :
    Parts.write addr value width board.parts =
        Work.attempt ((Bus.write board addr value width).map id parts) ∧
      ((Bus.write board addr value width).1 = none → ∀ x,
        (Bus.write board addr value width).2.peek? x =
          if addr.toNat ≤ x.toNat ∧ x.toNat < addr.toNat + width.bytes then
            some (readBack x.toNat (value.byte (x.toNat - addr.toNat)))
          else board.peek? x) ∧
      (∀ fault, (Bus.write board addr value width).1 = some fault →
        (Bus.write board addr value width).2 = board) ∧
      (Bus.write board addr value width).2.config = board.config ∧
      ∀ region, (Bus.write board addr value width).2.sizeOf region = board.sizeOf region := by
  refine ⟨write_parts board addr value width, fun h x => ?_, fun fault h => Bus.write_refused h,
    write_keeps config_writeAt board addr value width, fun region =>
    write_keeps (f := fun board => board.sizeOf region)
      (fun _ _ _ _ _ => sizeOf_writeAt ..) board addr value width⟩
  unfold Bus.write at h ⊢
  split at h
  · cases h
  · rename_i hrefusal
    exact peek?_store_at hrefusal value x

/-- Of a word of ones in the status register one bit is kept, and the next register stays. -/
theorem peek?_write_status :
    (Bus.write halfword 0x30000004 0xFFFFFFFF .word).1 = none ∧
      (Bus.write halfword 0x30000004 0xFFFFFFFF .word).2.peek? 0x30000004 = some 3 ∧
      (Bus.write halfword 0x30000004 0xFFFFFFFF .word).2.peek? 0x30000005 = some 0 ∧
      (Bus.write halfword 0x30000004 0xFFFFFFFF .word).2.peek? 0x30000008 =
        halfword.peek? 0x30000008 := by
  have hnone : (Bus.write halfword 0x30000004 0xFFFFFFFF .word).1 = none := by decide
  obtain ⟨-, hbytes, -⟩ := peek?_write halfword 0x30000004 0xFFFFFFFF .word
  exact ⟨hnone, hbytes hnone 0x30000004, hbytes hnone 0x30000005, hbytes hnone 0x30000008⟩

-- ---------------------------------------------------------------------------
-- What stays
-- ---------------------------------------------------------------------------

theorem store_eq_writeAt (h : board.refusal? addr width = none) (value : Word) :
    ∃ region off, board.isWritable region off = true ∧
      Bus.store board addr value width = board.writeAt region off value width := by
  obtain ⟨region, off, hroute, hwritable⟩ := refusal?_eq_none_iff.mp h
  exact ⟨region, off, hwritable, store_of_route hroute value⟩

theorem config_store (h : board.refusal? addr width = none) (value : Word) :
    (Bus.store board addr value width).config = board.config := by
  obtain ⟨region, off, -, hstore⟩ := store_eq_writeAt h value
  rw [hstore, config_writeAt]

theorem rom_store (h : board.refusal? addr width = none) (hrom : board.romWritable = false)
    (value : Word) : (Bus.store board addr value width).rom = board.rom := by
  obtain ⟨region, off, hwritable, hstore⟩ := store_eq_writeAt h value
  rw [hstore]
  cases region with
  | rom => cases hrom.symm.trans hwritable
  | ram => rfl
  | timer => rfl
  | uart => rfl
  | gpio => rfl

theorem config_reset (board : Board) : board.reset.config = board.config := by
  simp only [config, reset, Cells.size_zeros]

theorem config_loadRom {words : List Word} {after : Board} (h : board.loadRom words = .ok after) :
    after.config = board.config := by
  unfold loadRom at h
  split at h
  · rename_i hfits
    cases h
    simp only [config, Array.size_append, List.size_toArray, length_bytesOfWords, Cells.size_zeros,
      Nat.add_sub_cancel' hfits]
  · cases h

end RiscvBoard.Board
