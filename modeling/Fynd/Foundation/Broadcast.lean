import Mathlib.Data.List.Basic

/-!
# One receiver of a bounded broadcast channel

The channel keeps the last values sent, up to its capacity. A receiver that falls behind
loses the oldest ones and is told how many before it gets the next. After the senders are
gone it still gets what the channel holds.
-/

namespace Fynd.Foundation

variable {α : Type*}

/-- What one receiver has yet to receive. -/
structure Receiver (α : Type*) where
  capacity : Nat
  /-- The values the channel holds for this receiver, oldest first. -/
  pending : List α
  /-- How many values it lost since it last received. -/
  skipped : Nat
  /-- Whether every sender is gone. -/
  closed : Bool

/-- What a receiver gets when it asks. -/
inductive Received (α : Type*)
  | value (value : α)
  | lagged (skipped : Nat)
  | closed
  | nothing

namespace Receiver

/-- A receiver that has received everything. -/
def subscribe (capacity : Nat) : Receiver α := ⟨capacity, [], 0, false⟩

/-- Sends a value. A full channel drops the oldest one. -/
def send (receiver : Receiver α) (value : α) : Receiver α :=
  if receiver.closed then receiver
  else if receiver.pending.length < receiver.capacity then
    { receiver with pending := receiver.pending ++ [value] }
  else
    { receiver with
      pending := receiver.pending.tail ++ [value]
      skipped := receiver.skipped + 1 }

/-- Drops the last sender. -/
def close (receiver : Receiver α) : Receiver α := { receiver with closed := true }

/-- Asks for the next value. -/
def recv (receiver : Receiver α) : Received α × Receiver α :=
  if receiver.skipped ≠ 0 then (.lagged receiver.skipped, { receiver with skipped := 0 })
  else
    match receiver.pending with
    | value :: later => (.value value, { receiver with pending := later })
    | [] => if receiver.closed then (.closed, receiver) else (.nothing, receiver)

variable {receiver : Receiver α}

/-- What waits after a sending waited before or was sent. -/
theorem mem_pending_send {value other : α} (member : other ∈ (receiver.send value).pending) :
    other ∈ receiver.pending ∨ other = value := by
  unfold send at member
  split at member
  · exact .inl member
  · split at member
    · simpa using member
    · rcases List.mem_append.mp member with kept | sent
      · exact .inl (List.mem_of_mem_tail kept)
      · exact .inr (List.mem_singleton.mp sent)

theorem send_of_closed (closed : receiver.closed = true) (value : α) :
    receiver.send value = receiver := by
  simp [send, closed]

/-- A receiver first learns how much it has lost. -/
theorem recv_of_lag (lags : receiver.skipped ≠ 0) :
    receiver.recv = (.lagged receiver.skipped, { receiver with skipped := 0 }) :=
  if_pos lags

/-- Without a loss the oldest value is received. -/
theorem recv_of_pending (unlagged : receiver.skipped = 0) {value : α} {later : List α}
    (pending : receiver.pending = value :: later) :
    receiver.recv = (.value value, { receiver with pending := later }) := by
  simp [recv, unlagged, pending]

theorem recv_of_empty (unlagged : receiver.skipped = 0) (empty : receiver.pending = []) :
    receiver.recv = (if receiver.closed then .closed else .nothing, receiver) := by
  cases closed : receiver.closed <;> simp [recv, unlagged, empty, closed]

theorem recv_nothing {left : Receiver α} (received : receiver.recv = (.nothing, left)) :
    left = receiver ∧ receiver.pending = [] := by
  unfold recv at received
  split at received
  · simp at received
  · split at received
    · simp at received
    · split at received
      · simp at received
      · exact ⟨(congrArg Prod.snd received).symm, by assumption⟩

theorem recv_closed {left : Receiver α} (received : receiver.recv = (.closed, left)) :
    left = receiver ∧ receiver.closed = true ∧ receiver.pending = [] := by
  unfold recv at received
  split at received
  · simp at received
  · split at received
    · simp at received
    · split at received
      · exact ⟨(congrArg Prod.snd received).symm, by assumption, by assumption⟩
      · simp at received

end Receiver

end Fynd.Foundation
