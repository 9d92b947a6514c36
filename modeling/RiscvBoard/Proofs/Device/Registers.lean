import RiscvBoard.Device.Gpio
import RiscvBoard.Device.Uart
import RiscvBoard.Proofs.Bytes

/-!
# Device registers byte by byte

What a write leaves in each byte of the UART and of the output pins.
-/

namespace RiscvBoard

-- ---------------------------------------------------------------------------
-- The output pins
-- ---------------------------------------------------------------------------

namespace Gpio

theorem output_eq (gpio : Gpio) (j : Nat) : gpio.output j = gpio.outputs[j]?.getD 0 := by
  rw [output, Vector.getD, Array.getD_eq_getD_getElem?, Vector.getElem?_toArray]

theorem output_writeBytes (gpio : Gpio) (off : Nat) (value : Word) {n : Nat}
    (h : off + n ≤ 8) (j : Nat) : (gpio.writeBytes off value n).output j =
      if off ≤ j ∧ j < off + n then value.byte (j - off) else gpio.output j := by
  induction n with
  | zero =>
    rw [if_neg (by omega)]
    rfl
  | succ n ih =>
    have hlt : off + n < 8 := by omega
    rw [output_eq, writeBytes, Vector.getElem?_setIfInBounds]
    by_cases hj : off + n = j
    · rw [if_pos hj, if_pos hlt, if_pos (by omega), ← hj, Nat.add_sub_cancel_left]
      rfl
    · rw [if_neg hj, ← output_eq, ih (by omega)]
      by_cases hin : off ≤ j ∧ j < off + n
      · rw [if_pos hin, if_pos (by omega)]
      · rw [if_neg hin, if_neg (by omega)]

theorem shown_succ (off : Nat) (value : Word) (n : Nat) :
    shown off value (n + 1) = shown off value n ++ [.ofOutput (off + n) (value.byte n)] := by
  rw [shown, List.range_succ, List.map_append]
  rfl

theorem output_start (k : Nat) : output {} k = 0 := by
  rw [output_eq]
  by_cases hk : k < 8 <;> simp [hk]

theorem byte_register (gpio : Gpio) (off : Nat) {i : Nat} (hi : i < 4) :
    (gpio.register off).byte i = gpio.output (off / 4 * 4 + i) :=
  Word.byte_ofBytes hi

end Gpio

-- ---------------------------------------------------------------------------
-- The UART
-- ---------------------------------------------------------------------------

namespace Uart

def shownStatus (lane : Nat) (byte : Byte) : Byte := if lane = 0 then byte &&& 2 ||| 1 else 0

theorem byte_status (uart : Uart) {lane : Nat} (h : lane < 4) :
    (uart.value .status).byte lane = shownStatus lane (uart.status.setWidth 8) := by
  have hall : ∀ status : BitVec 2, ∀ lane < 4,
      Word.byte ((status ||| txReady).setWidth 32) lane = shownStatus lane (status.setWidth 8) := by
      decide
  exact hall uart.status lane h

theorem shownStatus_setWidth (word : Word) (lane : Nat) :
    shownStatus lane ((word.setWidth 2).setWidth 8) = shownStatus lane (word.byte 0) := by
  have hkept : ((word.setWidth 2).setWidth 8 : Byte) &&& 2 = word.byte 0 &&& 2 := by
    refine BitVec.eq_of_getLsbD_eq fun k hk => ?_
    have hmask : ∀ k < 8, ¬k < 2 → (2 : Byte).getLsbD k = false := by decide
    by_cases h2 : k < 2
    · simp only [← Word.setWidth_eq_byte, BitVec.getLsbD_and, BitVec.getLsbD_setWidth, h2, hk,
        decide_true, Bool.true_and]
    · rw [BitVec.getLsbD_and, BitVec.getLsbD_and, hmask k hk h2, Bool.and_false, Bool.and_false]
  rw [shownStatus, shownStatus, hkept]

variable {off o : Nat} {value : Word} {width : Width}

theorem value_write_of_ne (uart : Uart) {register : Register} (h : register ≠ .ofOffset off) :
    (uart.write off value width).1.value register = uart.value register := by
  unfold write
  cases hoff : Register.ofOffset off <;> cases register <;> first | exact absurd hoff.symm h | rfl

theorem value_write (uart : Uart) {register : Register} (h : .ofOffset off = register)
    (hs : register ≠ .status) (hr : register ≠ .rx) :
    (uart.write off value width).1.value register =
      (uart.value register).setLane (off % 4) value width := by
  unfold write
  rw [h]
  cases register with
  | ctrl => rfl
  | status => exact absurd rfl hs
  | baud => rfl
  | tx => rfl
  | rx => exact absurd rfl hr

theorem status_write (uart : Uart) (h : .ofOffset off = Register.status) :
    (uart.write off value width).1.status =
      (Word.setLane (uart.status.setWidth 32) (off % 4) value width).setWidth 2 := by
  unfold write
  rw [h]

theorem byte_status_write (uart : Uart) (h : .ofOffset off = Register.status) {lane : Nat}
    (hl : lane < 4) :
    ((uart.write off value width).1.value .status).byte lane =
      if off % 4 ≤ lane ∧ lane < off % 4 + width.bytes
        then shownStatus lane (value.byte (lane - off % 4))
      else (uart.value .status).byte lane := by
  have hzero : ∀ byte, lane ≠ 0 → shownStatus lane byte = 0 := fun byte hne => if_neg hne
  have hkept : ∀ status : BitVec 2, Word.byte (status.setWidth 32) 0 = status.setWidth 8 := by
    decide
  rw [byte_status _ hl, byte_status _ hl, status_write uart h, shownStatus_setWidth,
    Word.byte_setLane _ _ _ (by decide), hkept]
  by_cases h0 : lane = 0
  · subst h0
    by_cases hin : off % 4 ≤ 0 ∧ 0 < off % 4 + width.bytes
    · rw [if_pos hin, if_pos hin]
    · rw [if_neg hin, if_neg hin]
  · rw [hzero _ h0, hzero _ h0, hzero _ h0, ite_self]

theorem ofOffset_eq_status_iff : Register.ofOffset off = .status ↔ off / 4 = 1 := by
  unfold Register.ofOffset
  split <;> simp only [reduceCtorEq, true_iff, false_iff] <;> omega

theorem ofOffset_eq_tx_iff : Register.ofOffset off = .tx ↔ off / 4 = 3 := by
  unfold Register.ofOffset
  split <;> simp only [reduceCtorEq, true_iff, false_iff] <;> omega

theorem ofOffset_ne_rx (h : off / 4 < 4) : Register.ofOffset off ≠ .rx := by
  have hoff : off / 4 = 0 ∨ off / 4 = 1 ∨ off / 4 = 2 ∨ off / 4 = 3 := by omega
  unfold Register.ofOffset
  obtain h | h | h | h := hoff <;> rw [h] <;> decide

theorem ofOffset_ne (h : off / 4 < 4) (hne : o / 4 ≠ off / 4) :
    Register.ofOffset o ≠ .ofOffset off := by
  have hoff : off / 4 = 0 ∨ off / 4 = 1 ∨ off / 4 = 2 ∨ off / 4 = 3 := by omega
  unfold Register.ofOffset
  intro heq
  obtain h | h | h | h := hoff <;> rw [h] at heq <;> split at heq <;> first | omega | cases heq

theorem byte_write (uart : Uart) (value : Word) (hregister : off % 4 + width.bytes ≤ 4)
    (hwritable : off / 4 < 4) (o : Nat) :
    ((uart.write off value width).1.value (.ofOffset o)).byte (o % 4) =
      if off ≤ o ∧ o < off + width.bytes then
        if o / 4 = 1 then shownStatus (o % 4) (value.byte (o - off)) else value.byte (o - off)
      else (uart.value (.ofOffset o)).byte (o % 4) := by
  have hlane : o % 4 < 4 := Nat.mod_lt o (by decide)
  by_cases hsame : o / 4 = off / 4
  · have hregisters : Register.ofOffset o = .ofOffset off := by simp only [Register.ofOffset, hsame]
    have hrange : (off % 4 ≤ o % 4 ∧ o % 4 < off % 4 + width.bytes) ↔
        (off ≤ o ∧ o < off + width.bytes) := by omega
    have hindex : off ≤ o → o % 4 - off % 4 = o - off := by omega
    by_cases hstatus : off / 4 = 1
    · have hoff := ofOffset_eq_status_iff.mpr hstatus
      rw [hregisters, hoff, byte_status_write uart hoff hlane]
      by_cases hin : off ≤ o ∧ o < off + width.bytes
      · rw [if_pos hin, if_pos (hrange.mpr hin), if_pos (hsame.trans hstatus), hindex hin.1]
      · rw [if_neg hin, if_neg fun h => hin (hrange.mp h)]
    · have hne : Register.ofOffset off ≠ .status := fun h => hstatus (ofOffset_eq_status_iff.mp h)
      rw [hregisters, value_write uart rfl hne (ofOffset_ne_rx hwritable),
        Word.byte_setLane _ _ _ hlane]
      by_cases hin : off ≤ o ∧ o < off + width.bytes
      · rw [if_pos hin, if_pos (hrange.mpr hin), if_neg fun h => hstatus (hsame ▸ h), hindex hin.1]
      · rw [if_neg hin, if_neg fun h => hin (hrange.mp h)]
  · rw [if_neg (by omega), value_write_of_ne uart (ofOffset_ne hwritable hsame)]

end Uart

end RiscvBoard
