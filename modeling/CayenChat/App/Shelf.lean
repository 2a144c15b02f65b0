import CayenChat.App.Logs
import CayenChat.Lib.Machine

/-! # The logs alone

What happens to the logs, told without networks, conversations and commands: a
log for every source, the sequences given out so far at both ends, the pages
that are being filled, the filters and the queue of notified lines. Every call
of the application state is a list of these events.
-/

namespace CayenChat.App

/-- The logs with what names and guards their lines. -/
structure Shelf where
  lines : Source → List Message
  top : ℤ := sequenceOrigin
  floor : ℤ := sequenceOrigin
  blocks : ConversationId → Option HistoryBlock
  filters : ConversationId → DuplicateFilter
  attention : Attention := []

/-- Something that happens to the logs. -/
inductive LogEvent
  /-- A line is handed to the filter of a conversation and appended, and noted when asked for. -/
  | append (id : ConversationId) (message : Message) (attention : Bool)
  | appendServer (id : NetworkId) (message : Message)
  /-- The newest line of a conversation is noted. -/
  | note (id : ConversationId)
  /-- The oldest notified line that is held is visited. -/
  | visit
  | confirm (id : ConversationId) (sequence : ℤ) (text : Option String) (kind : Kind)
      (info : MessageMeta)
  | fail (id : ConversationId) (sequence : ℤ)
  /-- A line of the older page that is in flight arrives. -/
  | push (id : ConversationId) (request : ℕ) (line : TimelineLine)
  /-- The older page that is in flight ends. -/
  | settle (id : ConversationId) (request : ℕ)
  /-- A conversation is removed. -/
  | forget (id : ConversationId)
  /-- A server log is removed. -/
  | clear (id : NetworkId)

namespace Shelf

def log (b : Shelf) (id : ConversationId) : List Message := b.lines (.conversation id)

def setLines (b : Shelf) (source : Source) (messages : List Message) : Shelf :=
  { b with lines := Function.update b.lines source messages }

def setLog (b : Shelf) (id : ConversationId) (messages : List Message) : Shelf :=
  b.setLines (.conversation id) messages

def admitMessage (b : Shelf) (id : ConversationId) (message : Message) : Shelf :=
  { b with filters := Function.update b.filters id ((b.filters id).admitMessage message).1 }

def note (b : Shelf) (id : ConversationId) : Shelf :=
  match (b.log id).getLast? with
  | none => b
  | some message => { b with attention := b.attention.note b.log id message.sequence }

def append (b : Shelf) (id : ConversationId) (message : Message) : Shelf :=
  let pushed := pushBounded (b.log id) { message with sequence := b.top + 1 }
  { (b.admitMessage id message).setLog id pushed.1 with
    top := b.top + 1
    attention := if pushed.2 then b.attention.prune id pushed.1 else b.attention }

def appendServer (b : Shelf) (id : NetworkId) (message : Message) : Shelf :=
  { b.setLines (.server id)
      (pushBounded (b.lines (.server id)) { message with sequence := b.top + 1 }).1 with
    top := b.top + 1 }

def confirm (b : Shelf) (id : ConversationId) (sequence : ℤ) (f : Message → Message) : Shelf :=
  match Search.lookup Message.sequence sequence (b.log id) with
  | none => b
  | some message => (b.setLog id (AppState.edited (b.log id) sequence f)).admitMessage id (f message)

def openBlock (b : Shelf) (id : ConversationId) (request : ℕ) : Shelf :=
  if (b.blocks id).any (·.request = request) then b
  else
    { b with
      floor := b.floor - historyReserve
      blocks := Function.update b.blocks id
        (some (AppState.freshBlock (b.floor - historyReserve) request (b.log id))) }

def takes (b : Shelf) (id : ConversationId) (block : HistoryBlock) (message : Message) : Bool :=
  (block.next - block.start).toNat < block.room && !(b.filters id).contains message &&
    (block.nearTop.admitMessage message).2

/-- A line goes to its place in a page. -/
def place (b : Shelf) (id : ConversationId) (block : HistoryBlock) (message : Message)
    (attention : Bool) : Shelf :=
  let r := AppState.placed (b.log id) { message with sequence := block.next }
  let next := { block with next := block.next + 1, nearTop := (block.nearTop.admitMessage message).1 }
  let b := { b.setLog id r.1 with blocks := Function.update b.blocks id (some next) }
  let noted := if attention then b.attention.note b.log id block.next else b.attention
  { b with attention := if r.2 then noted.prune id r.1 else noted }

/-- A line of a page arrives. -/
def push (b : Shelf) (id : ConversationId) (request : ℕ) (line : TimelineLine) : Shelf :=
  let b := b.openBlock id request
  match b.blocks id with
  | none => b
  | some block =>
    if b.takes id block (requestedMessage line) then
      b.place id block (requestedMessage line) line.attention
    else b

/-- A page ends. -/
def settle (b : Shelf) (id : ConversationId) (request : ℕ) : Shelf :=
  let b' := { b with blocks := Function.update b.blocks id none }
  match b.blocks id with
  | none => b'
  | some block =>
    if block.request = request then
      let stop := block.start + historyReserve
      let messages := b.log id
      let lines := AppState.arrived messages block.start stop
      { b'.setLog id
          (messages.take (Search.partitionPoint (fun m => m.sequence < block.start) messages) ++
            AppState.settled block.start historyReserve none lines ++
            messages.drop (Search.partitionPoint (fun m => m.sequence < stop) messages)) with
        attention := AppState.carried b.attention id block.start stop none lines }
    else b'

def forget (b : Shelf) (id : ConversationId) : Shelf :=
  { b.setLog id [] with
    blocks := Function.update b.blocks id none
    filters := Function.update b.filters id {}
    attention := b.attention.filter (·.1 ≠ id) }

/-- What an event does. -/
def step (b : Shelf) : LogEvent → Shelf
  | .append id message attention =>
    if ((b.filters id).admitMessage message).2 then
      if attention then (b.append id message).note id else b.append id message
    else b
  | .appendServer id message => b.appendServer id message
  | .note id => b.note id
  | .visit => { b with
      attention := (b.attention.dropWhile fun (id, sequence) =>
        !heldIn (b.log id) sequence).tail }
  | .confirm id sequence text kind info =>
    b.confirm id sequence (AppState.confirmed text kind info)
  | .fail id sequence => b.setLog id (AppState.edited (b.log id) sequence AppState.failed)
  | .push id request line => b.push id request line
  | .settle id request => b.settle id request
  | .forget id => b.forget id
  | .clear id => b.setLines (.server id) []

end Shelf

end CayenChat.App
