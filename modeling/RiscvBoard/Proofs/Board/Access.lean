import RiscvBoard.Proofs.Board.Address
import RiscvBoard.Proofs.Device.Registers
import RiscvBoard.Proofs.Result

/-!
# The board byte by byte

`byteAt` is the board as a row of bytes for each region. A wide read gives the
bytes that `peek?` shows one by one, and a write that is not refused replaces
the bytes under it and no other. Only the status register of the UART shows
something else than was written.
-/

namespace RiscvBoard

def Region.shown (region : Region) (off : Nat) (byte : Byte) : Byte :=
  if region = .uart ∧ off / 4 = 1 then Uart.shownStatus (off % 4) byte else byte

namespace Board

variable {board : Board} {addr value : Word} {width : Width} {region : Region} {off : Nat}

def byteAt (board : Board) : Region → Nat → Byte
  | .rom, off => board.rom.get off
  | .ram, off => board.ram.get off
  | .timer, off => board.timer.ticks.byte off
  | .uart, off => (board.uart.value (.ofOffset off)).byte (off % 4)
  | .gpio, off => board.gpio.output off

-- ---------------------------------------------------------------------------
-- Reads
-- ---------------------------------------------------------------------------

theorem readAt_eq (board : Board) (h : region.isDevice = true → off % 4 + width.bytes ≤ 4) :
    board.readAt region off width = Word.ofBytes (board.byteAt region) off width := by
  cases region with
  | rom => rfl
  | ram => rfl
  | timer => exact Word.lane_eq ..
  | uart =>
    have hlane := h rfl
    refine (Word.lane_eq ..).trans (Word.ofBytes_shift fun i hi => ?_)
    have hregister : (off + i) / 4 = off / 4 := by omega
    have hbyte : (off + i) % 4 = off % 4 + i := by omega
    simp only [byteAt, Uart.Register.ofOffset, hregister, hbyte]
  | gpio =>
    have hlane := h rfl
    refine (Word.lane_eq ..).trans (Word.ofBytes_shift fun i hi => ?_)
    rw [Gpio.byte_register _ _ (by omega)]
    exact congrArg board.gpio.output (by omega)

theorem peek?_eq (board : Board) (addr : Word) :
    board.peek? addr = (board.locate? addr).map fun (region, off) => board.byteAt region off := by
  unfold peek?
  congr 1
  funext ⟨region, off⟩
  have hone : region.isDevice = true → off % 4 + Width.byte.bytes ≤ 4 := fun _ => by
    simp only [Width.bytes]
    omega
  simp only [readAt_eq board hone, Word.setWidth_ofBytes]

theorem peek?_add {k : Nat} (haddr : addr.toNat = region.base + off)
    (hk : off + k < board.sizeOf region) :
    board.peek? (addr + BitVec.ofNat 32 k) = some (board.byteAt region (off + k)) := by
  rw [peek?_eq, locate?_add haddr hk]
  rfl

theorem read_eq (board : Board) (addr : Word) (width : Width) :
    Bus.read board addr width =
      (board.route addr width).map fun (region, off) => board.readAt region off width := by
  simp only [Bus.read]
  cases board.route addr width with
  | error fault => rfl
  | ok place => rfl

/-- A read gives the little-endian number of the bytes that can be seen one by one. -/
theorem read_eq_ok {raw : Word} (h : Bus.read board addr width = .ok raw) :
    ∃ f : Nat → Byte, raw = Word.ofBytes f 0 width ∧
      ∀ k < width.bytes, board.peek? (addr + BitVec.ofNat 32 k) = some (f k) := by
  rw [read_eq] at h
  obtain ⟨⟨region, off⟩, hroute, rfl⟩ := map_eq_ok.mp h
  obtain ⟨haddr, hsize, hregister⟩ := route_eq_ok_iff.mp hroute
  refine ⟨fun k => board.byteAt region (off + k), (readAt_eq board hregister).trans ?_,
    fun k hk => peek?_add haddr (by omega)⟩
  exact Word.ofBytes_shift fun i _ => by rw [Nat.zero_add]

-- ---------------------------------------------------------------------------
-- Writes
-- ---------------------------------------------------------------------------

theorem sizeOf_writeAt (board : Board) (region : Region) (off : Nat) (value : Word) (width : Width)
    (r : Region) : (board.writeAt region off value width).sizeOf r = board.sizeOf r := by
  cases region <;> cases r <;> first | rfl | exact Cells.size_store ..

theorem locate?_writeAt (board : Board) (region : Region) (off : Nat) (value : Word) (width : Width)
    (addr : Word) : (board.writeAt region off value width).locate? addr = board.locate? addr := by
  refine Option.ext fun (r, o) => ?_
  rw [locate?_eq_some_iff, locate?_eq_some_iff, sizeOf_writeAt]

theorem byteAt_writeAt (board : Board) (value : Word)
    (hsize : off + width.bytes ≤ board.sizeOf region)
    (hregister : region.isDevice = true → off % 4 + width.bytes ≤ 4)
    (hwritable : board.isWritable region off = true) (r : Region) (o : Nat) :
    (board.writeAt region off value width).byteAt r o =
      if r = region ∧ off ≤ o ∧ o < off + width.bytes then r.shown o (value.byte (o - off))
      else board.byteAt r o := by
  have hother : r ≠ region →
      (board.writeAt region off value width).byteAt r o = board.byteAt r o := by
    intro hne
    cases region <;> cases r <;> first | exact absurd rfl hne | rfl
  by_cases hr : r = region
  · subst hr
    simp only [true_and]
    cases r with
    | rom => exact Cells.get_storeBytes board.rom off value width.bytes o hsize
    | ram => exact Cells.get_storeBytes board.ram off value width.bytes o hsize
    | timer => cases hwritable
    | uart =>
      have hlast : off / 4 < 4 := by
        have hne : off / 4 ≠ 4 := bne_iff_ne.mp hwritable
        have hpos := width.bytes_pos
        change off + width.bytes ≤ 20 at hsize
        omega
      simp only [Region.shown, true_and]
      exact Uart.byte_write board.uart value (hregister rfl) hlast o
    | gpio => exact Gpio.output_writeBytes board.gpio off value hsize o
  · rw [if_neg fun h => hr h.1, hother hr]

theorem refusal?_eq_some_iff {fault : Fault} : board.refusal? addr width = some fault ↔
    board.route addr width = .error fault ∨
      ∃ region off, board.route addr width = .ok (region, off) ∧
      board.isWritable region off = false ∧ fault = .readOnly addr := by
  unfold refusal?
  cases board.route addr width with
  | error cause =>
    simp only [Option.some.injEq, Except.error.injEq, reduceCtorEq, false_and, exists_false,
      or_false]
  | ok place =>
    obtain ⟨region, off⟩ := place
    simp only [Except.ok.injEq, Prod.mk.injEq, reduceCtorEq, false_or]
    constructor
    · intro hrefused
      split at hrefused
      · cases hrefused
      · rename_i hwritable
        exact ⟨region, off, ⟨rfl, rfl⟩, Bool.eq_false_iff.mpr hwritable,
          (Option.some.inj hrefused).symm⟩
    · rintro ⟨r, o, ⟨rfl, rfl⟩, hwritable, rfl⟩
      rw [hwritable, if_neg Bool.false_ne_true]

theorem refusal?_eq_none_iff : board.refusal? addr width = none ↔
    ∃ region off, board.route addr width = .ok (region, off) ∧
      board.isWritable region off = true := by
  unfold refusal?
  cases board.route addr width with
  | error cause => simp only [reduceCtorEq, false_and, exists_false]
  | ok place =>
    obtain ⟨region, off⟩ := place
    simp only [Except.ok.injEq, Prod.mk.injEq]
    constructor
    · intro hallowed
      split at hallowed
      · rename_i hwritable
        exact ⟨region, off, ⟨rfl, rfl⟩, hwritable⟩
      · cases hallowed
    · rintro ⟨r, o, ⟨rfl, rfl⟩, hwritable⟩
      rw [hwritable, if_pos rfl]

theorem store_of_route {region : Region} {off : Nat}
    (h : board.route addr width = .ok (region, off))
    (value : Word) : Bus.store board addr value width = board.writeAt region off value width := by
  simp only [Bus.store, locate?_of_route h]

theorem peek?_store (h : board.refusal? addr width = none) (value : Word) :
    (∃ (region : Region) (off : Nat), addr.toNat = region.base + off ∧
      off + width.bytes ≤ board.sizeOf region ∧ ∀ k < width.bytes,
      (Bus.store board addr value width).peek? (addr + BitVec.ofNat 32 k) =
        some (region.shown (off + k) (value.byte k))) ∧
    ∀ x, (∀ k < width.bytes, x ≠ addr + BitVec.ofNat 32 k) →
      (Bus.store board addr value width).peek? x = board.peek? x := by
  obtain ⟨region, off, hroute, hwritable⟩ := refusal?_eq_none_iff.mp h
  obtain ⟨haddr, hsize, hregister⟩ := route_eq_ok_iff.mp hroute
  rw [store_of_route hroute]
  refine ⟨⟨region, off, haddr, hsize, fun k hk => ?_⟩, fun x hx => ?_⟩
  · have hin : off + k < (board.writeAt region off value width).sizeOf region := by
      rw [sizeOf_writeAt]
      omega
    rw [peek?_add haddr hin, byteAt_writeAt board value hsize hregister hwritable,
      if_pos ⟨rfl, by omega, by omega⟩, Nat.add_sub_cancel_left]
  · rw [peek?_eq, peek?_eq, locate?_writeAt]
    cases hl : board.locate? x with
    | none => rfl
    | some place =>
      obtain ⟨r, o⟩ := place
      obtain ⟨ho, hxo⟩ := locate?_eq_some_iff.mp hl
      simp only [Option.map_some]
      rw [byteAt_writeAt board value hsize hregister hwritable, if_neg]
      rintro ⟨rfl, hle, hlt⟩
      have hk : off + (o - off) < board.sizeOf r := by omega
      refine hx (o - off) (by omega) (BitVec.eq_of_toNat_eq ?_)
      rw [toNat_add haddr hk, hxo]
      omega

end Board

end RiscvBoard
