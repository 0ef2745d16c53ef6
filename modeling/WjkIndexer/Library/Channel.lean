import Mathlib

/-!
Channels between threads. What a receiver gets is a parameter: a queue hands its values over in
the order in which they were sent, and every receiver of a broadcast takes the values that are sent
after it subscribed, in their order, until it is further behind than the channel keeps values.
-/

/-- What is received comes first of the values that were sent and not yet received. -/
def HandsOver {α : Type} (tryRecv : List α → Option (α × List α)) : Prop :=
  ∀ {held rest : List α} {value : α}, tryRecv held = some (value, rest) → held = value :: rest

def popFront {α : Type} : List α → Option (α × List α)
  | [] => none
  | value :: rest => some (value, rest)

theorem popFront_handsOver {α : Type} : HandsOver (@popFront α) := by
  intro held rest value received
  cases held with
  | nil => cases received
  | cons first others =>
      cases received
      rfl

/-- The values that were sent. -/
structure Broadcast (α : Type) where
  log : List α := []

namespace Broadcast

variable {α : Type}

def send (channel : Broadcast α) (value : α) : Broadcast α :=
  { log := channel.log ++ [value] }

/-- What a receiver gets whose next value is at a place of the log. -/
inductive Received (α : Type) where
  | value (value : α)
  | empty
  | lagged (skipped : Nat)

/-- A receiver gets the value at its place, and gets it as long as it is one of the last
`capacity` values. -/
structure Keeps (capacity : Nat) (tryRecv : List α → Nat → Received α) : Prop where
  placed : ∀ {log : List α} {next : Nat} {value : α},
    tryRecv log next = .value value → log[next]? = some value
  kept : ∀ {log : List α} {next : Nat} {value : α},
    log[next]? = some value → log.length ≤ next + capacity → tryRecv log next = .value value

/-- The channel that keeps no more than the last `capacity` values. -/
def ring (capacity : Nat) (log : List α) (next : Nat) : Received α :=
  if next + capacity < log.length then .lagged (log.length - capacity - next)
  else ((log[next]?).map .value).getD .empty

theorem ring_keeps (capacity : Nat) : Keeps capacity (@ring α capacity) where
  placed := by
    intro log next value received
    unfold ring at received
    split at received
    · cases received
    · cases found : log[next]? with
      | none =>
          rw [found] at received
          cases received
      | some present =>
          rw [found] at received
          cases received
          rfl
  kept := by
    intro log next value found near
    rw [ring, if_neg (by omega), found]
    rfl

theorem Keeps.head {capacity : Nat} {tryRecv : List α → Nat → Received α}
    (keeps : Keeps capacity tryRecv) {log later : List α} {next : Nat} {value : α}
    (ahead : log.drop next = value :: later) (near : (value :: later).length ≤ capacity) :
    tryRecv log next = .value value := by
  have length := congrArg List.length ahead
  rw [List.length_drop, List.length_cons] at length
  refine keeps.kept ?_ ?_
  · have head := congrArg List.head? ahead
    rwa [List.head?_drop, List.head?_cons] at head
  · rw [List.length_cons] at near
    omega

/-- The places that a receiver has taken. -/
structure Window where
  start : Nat
  next : Nat

def taken (channel : Broadcast α) (window : Window) : List α :=
  (channel.log.drop window.start).take (window.next - window.start)

def subscribe (channel : Broadcast α) : Window := ⟨channel.log.length, channel.log.length⟩

structure Window.Within (window : Window) (channel : Broadcast α) : Prop where
  order : window.start ≤ window.next
  sent : window.next ≤ channel.log.length

theorem Window.Within.send {window : Window} {channel : Broadcast α}
    (within : window.Within channel) (value : α) : window.Within (channel.send value) where
  order := within.order
  sent := by
    have sent := within.sent
    rw [Broadcast.send, List.length_append]
    omega

@[simp] theorem taken_subscribe (channel : Broadcast α) :
    channel.taken channel.subscribe = [] := by
  simp [taken, subscribe]

theorem taken_send {channel : Broadcast α} {window : Window} (within : window.Within channel)
    (value : α) : (channel.send value).taken window = channel.taken window := by
  have order := within.order
  have sent := within.sent
  rw [taken, taken, send, List.drop_append_of_le_length (by omega),
    List.take_append_of_le_length]
  rw [List.length_drop]
  omega

theorem taken_next {channel : Broadcast α} {window : Window} (within : window.Within channel)
    {value : α} (found : channel.log[window.next]? = some value) :
    channel.taken { window with next := window.next + 1 } = channel.taken window ++ [value] := by
  have order := within.order
  have place : (channel.log.drop window.start)[window.next - window.start]? = some value := by
    rw [List.getElem?_drop, show window.start + (window.next - window.start) = window.next by omega,
      found]
  rw [taken, taken, show window.next + 1 - window.start = window.next - window.start + 1 by omega,
    List.take_add_one, place]
  rfl

theorem split_taken {channel : Broadcast α} {window : Window} (within : window.Within channel) :
    channel.log = channel.log.take window.start ++ channel.taken window ++
      channel.log.drop window.next := by
  have order := within.order
  have rest : channel.log.drop window.next =
      (channel.log.drop window.start).drop (window.next - window.start) := by
    rw [List.drop_drop]
    congr 1
    omega
  rw [taken, rest, List.append_assoc, List.take_append_drop, List.take_append_drop]

end Broadcast
