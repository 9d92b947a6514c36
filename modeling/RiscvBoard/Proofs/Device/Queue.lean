import Mathlib.Algebra.GroupWithZero.Nat
import RiscvBoard.Device.Event

/-!
# Waiting events

A queue that nobody empties holds the latest events that it was given, as many as
there is room for, and has counted all others as dropped.
-/

namespace RiscvBoard.EventQueue

def latest (events : List Event) : List Event := events.drop (events.length - capacity)

/-- What a queue has done with the events since it was empty the last time, when `lost` events had
been dropped. -/
structure Received (queue : EventQueue) (lost : Nat) (events : List Event) : Prop where
  toList : queue.toList = latest events
  dropped : queue.dropped = lost + (events.length - capacity)

variable {queue : EventQueue} {lost : Nat} {events : List Event}

theorem length_latest (events : List Event) :
    (latest events).length = min capacity events.length := by
  rw [latest, List.length_drop]
  omega

theorem latest_of_le (h : events.length ≤ capacity) : latest events = events := by
  rw [latest, Nat.sub_eq_zero_of_le h, List.drop_zero]

theorem latest_concat (events : List Event) (event : Event) :
    latest (events ++ [event]) =
      if (latest events).length = capacity then (latest events ++ [event]).tail
      else latest events ++ [event] := by
  have hkept : latest events ++ [event] = (events ++ [event]).drop (events.length - capacity) := by
    rw [latest, List.drop_append_of_le_length (Nat.sub_le ..)]
  rw [length_latest, hkept, latest, List.length_append, List.length_singleton]
  split
  · have hfull : events.length + 1 - capacity = events.length - capacity + 1 := by omega
    rw [List.tail_drop, hfull]
  · have hroom : events.length + 1 - capacity = events.length - capacity := by omega
    rw [hroom]

/-- Of events that came in parts, each part is kept up to the capacity. -/
theorem length_flatten_latest (parts : List (List Event)) :
    parts.flatten.length = (parts.map latest).flatten.length +
      (parts.map fun events => events.length - capacity).sum := by
  induction parts with
  | nil => rfl
  | cons events parts ih =>
    simp only [List.flatten_cons, List.length_append, List.map_cons, List.sum_cons, length_latest,
      ih]
    omega

@[simp] theorem pushAll_nil (queue : EventQueue) : queue.pushAll [] = queue := rfl

@[simp] theorem pushAll_cons (queue : EventQueue) (event : Event) (events : List Event) :
    queue.pushAll (event :: events) = (queue.push event).pushAll events := rfl

theorem pushAll_append (queue : EventQueue) (first second : List Event) :
    queue.pushAll (first ++ second) = (queue.pushAll first).pushAll second := List.foldl_append

theorem received_nil (lost : Nat) : Received { dropped := lost } lost [] := ⟨rfl, rfl⟩

namespace Received

theorem size (h : queue.Received lost events) : queue.size = min capacity events.length := by
  rw [← length_toList, h.toList, length_latest]

theorem push (h : queue.Received lost events) (event : Event) :
    (queue.push event).Received lost (events ++ [event]) where
  toList := by rw [toList_push, latest_concat, ← h.toList, length_toList]
  dropped := by
    rw [dropped_push, h.size, h.dropped, List.length_append, List.length_singleton]
    split <;> omega

theorem pushAll (h : queue.Received lost events) (more : List Event) :
    (queue.pushAll more).Received lost (events ++ more) := by
  induction more generalizing queue events with
  | nil => simpa using h
  | cons event more ih => simpa using ih (h.push event)

theorem drain (h : queue.Received lost events) :
    queue.drain = (latest events, { dropped := lost + (events.length - capacity) }) := by
  rw [EventQueue.drain, h.toList, h.dropped]

end Received

end RiscvBoard.EventQueue
