import ActorMachine.Value

/-!
# Mailboxes

A mailbox is a queue with a cursor. Peeking gives the message under the cursor and moves the
cursor past it; nothing leaves the queue. A process either removes the message it peeked last or
rewinds the cursor to the front.
-/

namespace ActorMachine

/-- The messages of a process. -/
structure Mailbox where
  /-- The messages in the order of their arrival. -/
  messages : Array Value
  /-- The number of messages peeked since the last rewind. -/
  cursor : Nat
deriving Inhabited

namespace Mailbox

/-- A mailbox without messages. -/
def empty : Mailbox :=
  ⟨#[], 0⟩

variable (m : Mailbox)

/-- The number of messages. -/
def size : Nat :=
  m.messages.size

/-- Whether there is no message. -/
def isEmpty : Bool :=
  m.messages.isEmpty

/-- Whether there is a message that has not been peeked since the last rewind. -/
def hasUnpeeked : Bool :=
  m.cursor < m.size

/-- Adds a message at the end. -/
def push (v : Value) : Mailbox :=
  { m with messages := m.messages.push v }

/-- The message under the cursor, and the mailbox with the cursor past it. -/
def peek? : Option (Value × Mailbox) :=
  m.messages[m.cursor]?.map fun v => (v, { m with cursor := m.cursor + 1 })

/-- Removes the message peeked last and rewinds. There is none just after a rewind. -/
def removePeeked? : Option (Value × Mailbox) :=
  match m.cursor with
  | 0 => none
  | last + 1 => m.messages[last]?.map fun v => (v, ⟨m.messages.eraseIdxIfInBounds last, 0⟩)

/-- Moves the cursor to the front. -/
def rewind : Mailbox :=
  { m with cursor := 0 }

end Mailbox

end ActorMachine
