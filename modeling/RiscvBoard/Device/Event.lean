import RiscvBoard.Text.Numeral

/-!
# What a device shows to the outside

Writing to the transmitter sends a byte, and writing to an output byte sets the
LEDs or one of the seven-segment digits. Events wait in a queue of bounded size:
when it is full the oldest event makes room for the new one and is counted as
dropped.
-/

namespace RiscvBoard

inductive Event
  | transmit (byte : Byte)
  | led (value : Byte)
  | segment (index : Nat) (value : Byte)
  deriving DecidableEq, Repr

namespace Event

/-- Output byte 0 drives the LEDs and every other one the digit of its number. -/
def ofOutput (index : Nat) (value : Byte) : Event :=
  if index = 0 then .led value else .segment index value

def byteText (byte : Byte) : String := "0x" ++ Numeral.hex 2 byte.toNat

def isPrintable (byte : Byte) : Bool := 0x20 ≤ byte.toNat && byte.toNat ≤ 0x7E

def text : Event → String
  | .transmit byte =>
    "UART TX: " ++ byteText byte ++
      if isPrintable byte then " '" ++ String.singleton (Char.ofNat byte.toNat) ++ "'" else ""
  | .led value => "LED: " ++ byteText value ++ " (" ++ Numeral.binary 8 value.toNat ++ ")"
  | .segment index value => "SEG" ++ toString index ++ ": " ++ byteText value

end Event

/-- Events in order of arrival, held as a front and a reversed back. -/
structure EventQueue where
  front : List Event := []
  back : List Event := []
  size : Nat := 0
  dropped : Nat := 0
  size_eq : size = front.length + back.length := by rfl

namespace EventQueue

def empty : EventQueue := {}

def capacity : Nat := 4096

def toList (queue : EventQueue) : List Event := queue.front ++ queue.back.reverse

theorem length_toList (queue : EventQueue) : queue.toList.length = queue.size := by
  simp [toList, queue.size_eq]

def push (queue : EventQueue) (event : Event) : EventQueue :=
  if queue.size = capacity then
    match h : queue.front with
    | _ :: front =>
      { front, back := event :: queue.back, size := queue.size, dropped := queue.dropped + 1,
        size_eq := by simp [queue.size_eq, h]; omega }
    | [] =>
      { front := (event :: queue.back).reverse.tail, size := queue.size,
        dropped := queue.dropped + 1, size_eq := by simp [queue.size_eq, h] }
  else
    { queue with
      back := event :: queue.back, size := queue.size + 1
      size_eq := by simp [queue.size_eq]; omega }

def pushAll (queue : EventQueue) (events : List Event) : EventQueue := events.foldl push queue

/-- Takes all events out. What was dropped stays counted. -/
def drain (queue : EventQueue) : List Event × EventQueue :=
  (queue.toList, { dropped := queue.dropped })

theorem toList_push (queue : EventQueue) (event : Event) :
    (queue.push event).toList =
      if queue.size = capacity then (queue.toList ++ [event]).tail
      else queue.toList ++ [event] := by
  unfold push
  split
  · split
    · rename_i h; simp [toList, h]
    · rename_i h; simp [toList, h]
  · simp [toList]

theorem dropped_push (queue : EventQueue) (event : Event) :
    (queue.push event).dropped =
      if queue.size = capacity then queue.dropped + 1 else queue.dropped := by
  unfold push
  split
  · split <;> rfl
  · rfl

end EventQueue

end RiscvBoard
