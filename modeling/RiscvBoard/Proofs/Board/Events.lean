import RiscvBoard.Proofs.Board.Laws
import RiscvBoard.Proofs.Device.Queue

/-!
# What writes show

A write that the board takes shows what its device shows and nothing else. The
events that wait have no say in this, so a board does the same whether they are
taken out or not. A front end that keeps the last value shown for each output
knows what is on the pins.
-/

namespace RiscvBoard

-- ---------------------------------------------------------------------------
-- Outputs as a front end knows them
-- ---------------------------------------------------------------------------

namespace Event

def outputValue? (k : Nat) : Event → Option Byte
  | .transmit _ => none
  | .led value => if k = 0 then some value else none
  | .segment index value => if k = index then some value else none

def lastValue (start : Byte) (k : Nat) (events : List Event) : Byte :=
  (events.reverse.findSome? (outputValue? k)).getD start

def HasDigit : Event → Prop
  | .segment index _ => 1 ≤ index ∧ index ≤ 7
  | _ => True

variable {start : Byte} {k : Nat}

theorem lastValue_append (first second : List Event) :
    lastValue start k (first ++ second) = lastValue (lastValue start k first) k second := by
  simp only [lastValue, List.reverse_append, List.findSome?_append]
  cases second.reverse.findSome? (outputValue? k) <;> rfl

theorem lastValue_ofOutput (index : Nat) (value : Byte) :
    lastValue start k [.ofOutput index value] = if k = index then value else start := by
  unfold ofOutput
  by_cases hindex : index = 0
  · subst hindex
    by_cases hk : k = 0 <;> simp [lastValue, outputValue?, hk]
  · by_cases hk : k = index <;> simp [lastValue, outputValue?, hindex, hk]

theorem hasDigit_ofOutput {index : Nat} (h : index < 8) (value : Byte) :
    (ofOutput index value).HasDigit := by
  unfold ofOutput
  split
  · trivial
  · exact ⟨by omega, by omega⟩

end Event

namespace Gpio

theorem output_writeBytes_eq_lastValue (gpio : Gpio) (off : Nat) (value : Word) {n : Nat}
    (h : off + n ≤ 8) (k : Nat) :
    (gpio.writeBytes off value n).output k =
      Event.lastValue (gpio.output k) k (shown off value n) := by
  induction n with
  | zero => rfl
  | succ n ih =>
    have hoff : off + n < 8 := by omega
    rw [shown_succ, Event.lastValue_append, ← ih (by omega), Event.lastValue_ofOutput,
      output_writeBytes gpio off value h, output_writeBytes gpio off value (by omega)]
    by_cases hk : k = off + n
    · rw [if_pos hk, if_pos (by omega), hk, Nat.add_sub_cancel_left]
    · have hrange : (off ≤ k ∧ k < off + (n + 1)) ↔ (off ≤ k ∧ k < off + n) := by omega
      simp only [hrange, if_neg hk]

theorem hasDigit_of_mem_shown {off n : Nat} {value : Word} {event : Event} (h : off + n ≤ 8)
    (hevent : event ∈ shown off value n) : event.HasDigit := by
  obtain ⟨i, hi, rfl⟩ := List.mem_map.mp hevent
  have hlt : i < n := List.mem_range.mp hi
  exact Event.hasDigit_ofOutput (by omega) _

end Gpio

namespace Board

variable {board : Board} {addr value : Word} {width : Width} {region : Region} {off : Nat}

def shownAt (board : Board) (region : Region) (off : Nat) (value : Word) (width : Width) :
    List Event :=
  match region with
  | .rom | .ram | .timer => []
  | .uart => (board.uart.write off value width).2.toList
  | .gpio => (board.gpio.write off value width).2

def shown (board : Board) (addr value : Word) (width : Width) : List Event :=
  match board.refusal? addr width, board.locate? addr with
  | none, some (region, off) => board.shownAt region off value width
  | _, _ => []

def withEvents (board : Board) (events : EventQueue) : Board := { board with events }

theorem shown_of_refused {fault : Fault} (h : board.refusal? addr width = some fault) :
    board.shown addr value width = [] := by
  simp only [shown, h]

theorem shown_of_route (h : board.route addr width = .ok (region, off))
    (hwritable : board.isWritable region off = true) :
    board.shown addr value width = board.shownAt region off value width := by
  have hallowed : board.refusal? addr width = none :=
    refusal?_eq_none_iff.mpr ⟨region, off, h, hwritable⟩
  simp only [shown, hallowed, locate?_of_route h]

/-- What a write that left the board like this has shown: nothing in a memory, what the transmitter
sends now, and each output byte with its value. -/
def announced (after : Board) (region : Region) (off : Nat) (value : Word) (width : Width) :
    List Event :=
  match region with
  | .rom | .ram | .timer => []
  | .uart => if off / 4 = 3 then [.transmit (after.uart.tx.byte 0)] else []
  | .gpio => (List.range width.bytes).map fun i =>
    if off + i = 0 then .led (value.byte i) else .segment (off + i) (value.byte i)

theorem shownAt_eq_announced (board : Board) (region : Region) (off : Nat) (value : Word)
    (width : Width) : board.shownAt region off value width =
      (board.writeAt region off value width).announced region off value width := by
  cases region with
  | rom | ram | timer => rfl
  | gpio => rfl
  | uart =>
    simp only [shownAt, announced, writeAt, ← Uart.ofOffset_eq_tx_iff, Uart.write]
    cases Uart.Register.ofOffset off <;> rfl

theorem length_shownAt_le : (board.shownAt region off value width).length ≤ 4 := by
  cases region with
  | rom | ram | timer => exact Nat.zero_le 4
  | uart =>
    simp only [shownAt]
    cases (board.uart.write off value width).2 <;> simp
  | gpio =>
    simp only [shownAt, Gpio.write, Gpio.shown, List.length_map, List.length_range]
    cases width <;> decide

theorem length_shown_le : (board.shown addr value width).length ≤ 4 := by
  unfold shown
  split
  · exact length_shownAt_le
  · exact Nat.zero_le 4

-- ---------------------------------------------------------------------------
-- The events that wait
-- ---------------------------------------------------------------------------

theorem writeAt_withEvents (events : EventQueue) :
    (board.withEvents events).writeAt region off value width =
      (board.writeAt region off value width).withEvents
        (events.pushAll (board.shownAt region off value width)) := by
  cases region <;> rfl

/-- A store adds what it shows to the events that wait. Nothing else depends on them. -/
theorem store_withEvents (h : board.refusal? addr width = none) (value : Word)
    (events : EventQueue) : Bus.store (board.withEvents events) addr value width =
      (Bus.store board addr value width).withEvents
        (events.pushAll (board.shown addr value width)) := by
  obtain ⟨region, off, hroute, hwritable⟩ := refusal?_eq_none_iff.mp h
  have hroute' : (board.withEvents events).route addr width = .ok (region, off) := hroute
  rw [store_of_route hroute, store_of_route hroute', writeAt_withEvents,
    shown_of_route hroute hwritable]

theorem events_write (board : Board) (addr value : Word) (width : Width) :
    (Bus.write board addr value width).2.events =
      board.events.pushAll (board.shown addr value width) := by
  unfold Bus.write
  split
  · rename_i hrefused
    rw [shown_of_refused hrefused]
    rfl
  · rename_i hallowed
    exact congrArg Board.events (store_withEvents hallowed value board.events)

theorem shown_eq_announced {after : Board} (h : Bus.write board addr value width = (none, after)) :
    ∃ (region : Region) (off : Nat), addr.toNat = region.base + off ∧
      off + width.bytes ≤ board.sizeOf region ∧
      board.shown addr value width = after.announced region off value width := by
  unfold Bus.write at h
  split at h
  · cases h
  · rename_i hallowed
    obtain ⟨region, off, hroute, hwritable⟩ := refusal?_eq_none_iff.mp hallowed
    obtain ⟨haddr, hsize, -⟩ := route_eq_ok_iff.mp hroute
    rw [store_of_route hroute] at h
    cases h
    exact ⟨region, off, haddr, hsize,
      (shown_of_route hroute hwritable).trans (shownAt_eq_announced ..)⟩

theorem shown_of_write {fault : Fault} (h : (Bus.write board addr value width).1 = some fault) :
    board.shown addr value width = [] := by
  unfold Bus.write at h
  split at h
  · rename_i hrefused
    exact shown_of_refused hrefused
  · cases h

-- ---------------------------------------------------------------------------
-- The outputs
-- ---------------------------------------------------------------------------

theorem output_writeAt (hsize : off + width.bytes ≤ board.sizeOf region) (k : Nat) :
    (board.writeAt region off value width).gpio.output k =
      Event.lastValue (board.gpio.output k) k (board.shownAt region off value width) := by
  cases region with
  | rom | ram | timer => rfl
  | uart =>
    simp only [writeAt, shownAt, Uart.write]
    split <;> rfl
  | gpio => exact board.gpio.output_writeBytes_eq_lastValue off value hsize k

theorem hasDigit_of_mem_shownAt {event : Event} (hsize : off + width.bytes ≤ board.sizeOf region)
    (hevent : event ∈ board.shownAt region off value width) : event.HasDigit := by
  cases region with
  | rom | ram | timer => cases hevent
  | uart =>
    simp only [shownAt, Uart.write] at hevent
    split at hevent <;> simp at hevent
    subst hevent
    trivial
  | gpio => exact Gpio.hasDigit_of_mem_shown hsize hevent

theorem output_write (board : Board) (addr value : Word) (width : Width) (k : Nat) :
    (Bus.write board addr value width).2.gpio.output k =
      Event.lastValue (board.gpio.output k) k (board.shown addr value width) := by
  unfold Bus.write
  split
  · rename_i h
    rw [shown_of_refused h]
    rfl
  · rename_i h
    obtain ⟨region, off, hroute, hwritable⟩ := refusal?_eq_none_iff.mp h
    obtain ⟨-, hsize, -⟩ := route_eq_ok_iff.mp hroute
    rw [store_of_route hroute, shown_of_route hroute hwritable]
    exact output_writeAt hsize k

theorem hasDigit_of_mem_shown {event : Event} (hevent : event ∈ board.shown addr value width) :
    event.HasDigit := by
  cases h : board.refusal? addr width with
  | some fault =>
    rw [shown_of_refused h] at hevent
    cases hevent
  | none =>
    obtain ⟨region, off, hroute, hwritable⟩ := refusal?_eq_none_iff.mp h
    obtain ⟨-, hsize, -⟩ := route_eq_ok_iff.mp hroute
    rw [shown_of_route hroute hwritable] at hevent
    exact hasDigit_of_mem_shownAt hsize hevent

end Board

end RiscvBoard
