import CayenChat.App.State
import CayenChat.Lib.Search

/-! # Operations on the logs

Lines are appended live, in the reply to a request, or above everything a
conversation holds, as a page of older history; the source may confirm a line
later. A full log drops its oldest lines. Notified lines wait to be visited.
-/

namespace CayenChat.App

/-- A log that can be searched. -/
inductive Source
  | conversation (id : ConversationId)
  | server (id : NetworkId)
  deriving DecidableEq, Repr

/-- One matching line of a search. -/
structure Hit where
  source : Source
  sequence : ℤ
  deriving DecidableEq, Repr

def heldIn (messages : List Message) (sequence : ℤ) : Bool :=
  (Search.lookup Message.sequence sequence messages).isSome

def historyIn (messages : List Message) (sequence : ℤ) : Bool :=
  (Search.lookup Message.sequence sequence messages).any Message.isHistory

namespace Attention

def prune (attention : Attention) (id : ConversationId) (messages : List Message) : Attention :=
  attention.filter fun (conversation, sequence) =>
    conversation ≠ id || (messages.head?.map Message.sequence).all (· ≤ sequence)

/-- The queue with room for a line: a full one gives up its oldest history line first, or else its
oldest line; a history line does not replace a live one. -/
def withRoom (attention : Attention) (log : ConversationId → List Message) (id : ConversationId)
    (sequence : ℤ) : Option Attention :=
  if maxAttention ≤ attention.length then
    match attention.findIdx? fun (other, seen) => historyIn (log other) seen with
    | some victim => some (attention.eraseIdx victim)
    | none => if historyIn (log id) sequence then none else some attention.tail
  else some attention

/-- Remembers a line, before the newer ones of its conversation. -/
def note (attention : Attention) (log : ConversationId → List Message) (id : ConversationId)
    (sequence : ℤ) : Attention :=
  if (id, sequence) ∈ attention then attention
  else
    match attention.withRoom log id sequence with
    | none => attention
    | some rest =>
      let place := rest.findIdx fun (other, newer) => other = id && sequence < newer
      rest.insertIdx place (id, sequence)

end Attention

namespace AppState

def log (s : AppState) (id : ConversationId) : List Message :=
  ((s.conversation id).map (·.messages)).getD []

def lines (s : AppState) : Source → List Message
  | .conversation id => s.log id
  | .server network => s.serverLog network

def hitMessage (s : AppState) (hit : Hit) : Option Message :=
  Search.lookup Message.sequence hit.sequence (s.lines hit.source)

def hitExists (s : AppState) (hit : Hit) : Bool := (s.hitMessage hit).isSome

section Attention

def pruneAttention (s : AppState) (id : ConversationId) : AppState :=
  { s with attention := s.attention.prune id (s.log id) }

def noteAttentionAt (s : AppState) (id : ConversationId) (sequence : ℤ) : AppState :=
  { s with attention := s.attention.note s.log id sequence }

def noteAttention (s : AppState) (id : ConversationId) : AppState :=
  match (s.log id).getLast? with
  | none => s
  | some message => s.noteAttentionAt id message.sequence

def visitAttention (s : AppState) : AppState :=
  match s.attention.dropWhile fun (id, sequence) => !heldIn (s.log id) sequence with
  | [] => { s with attention := [] }
  | (id, sequence) :: rest =>
    { ({ s with attention := rest } : AppState).selectChannel id with reveal := some (id, sequence) }

end Attention

section Appending

def filterOf (s : AppState) (id : ConversationId) : DuplicateFilter :=
  (s.duplicates.lookup id).getD {}

def admitMessage (s : AppState) (id : ConversationId) (message : Message) : AppState × Bool :=
  if message.nativeId.isSome || message.timestamp.isSome then
    let r := (s.filterOf id).admitMessage message
    ({ s with duplicates := s.duplicates.insert id r.1 }, r.2)
  else (s, true)

/-- Appends to a conversation's bounded log unless its filter recognizes the message. -/
def appendToConversation (s : AppState) (id : ConversationId) (message : Message) :
    AppState × Bool :=
  if (s.conversation id).isNone then (s, false)
  else
    let admitted := s.admitMessage id message
    if !admitted.2 then (admitted.1, false)
    else
      let sequence := s.nextMessageSequence + 1
      let pushed := pushBounded (s.log id) { message with sequence }
      let s := ({ admitted.1 with nextMessageSequence := sequence } : AppState).setMessages id
        pushed.1
      (if pushed.2 then s.pruneAttention id else s, true)

def pushServerMessage (s : AppState) (id : NetworkId) (message : Message) : AppState :=
  let sequence := s.nextMessageSequence + 1
  { s with
    nextMessageSequence := sequence
    serverMessages :=
      s.serverMessages.insert id (pushBounded (s.serverLog id) { message with sequence }).1 }

def appendServerMessageAt (s : AppState) (id : NetworkId) (text : String) (info : MessageMeta) :
    AppState :=
  if s.hasNetwork id then s.pushServerMessage id (newMessage "server" text .text info) else s

def appendServerMessage (s : AppState) (id : NetworkId) (text : String) : AppState :=
  s.appendServerMessageAt id text {}

/-- A line of a server log that is also in the combined log. -/
def appendSystemMessage (s : AppState) (id : NetworkId) (text : String) : AppState :=
  if s.hasNetwork id then
    let message := newMessage "server" text .activity {}
    let copies := s.systemMessages ++ [(id, { message with sequence := s.nextMessageSequence + 1 })]
    ({ s with
        systemMessages := if maxSystemMessages < copies.length then copies.tail else copies } :
      AppState).pushServerMessage id message
  else s

def appendDiagnosticMessage (s : AppState) (id : NetworkId) (text : String) : AppState :=
  if s.hasNetwork id then s.pushServerMessage id (newMessage "diagnostic" text .activity {}) else s

def sentMessage (sender text : String) (kind : Kind) (info : MessageMeta) : Message :=
  { newMessage sender (noticeMarked text kind) .text info with
    notice := kind = .notice
    action := kind = .action }

def appendConversationMessage (s : AppState) (id : ConversationId) (sender text : String)
    (kind : Kind) (info : MessageMeta) (unread : Bool) : AppState × Bool :=
  let r := s.appendToConversation id (sentMessage sender text kind info)
  if !r.2 then (r.1, false) else (if unread then r.1.markUnread id else r.1, true)

def appendConversationActivity (s : AppState) (id : ConversationId) (text : String) : AppState :=
  (s.appendToConversation id (newMessage "" text .activity {})).1

def conversationsOf (s : AppState) (network : NetworkId) : List ConversationId :=
  (s.conversations.filter (·.network = network)).map (·.id)

def appendNetworkActivity (s : AppState) (id : NetworkId) (text : String) : AppState :=
  (s.conversationsOf id).foldl (fun s conversation => s.appendConversationActivity conversation text)
    s

/-- A message to a channel; to one that is not open it goes to the server log. -/
def appendChannelMessageAt (s : AppState) (network : NetworkId) (name sender text : String)
    (kind : Kind) (info : MessageMeta) : AppState × Bool :=
  match s.channelId network name with
  | none =>
    let head := if kind = .action then name ++ " * " ++ sender ++ " "
      else name ++ " <" ++ sender ++ "> "
    (s.appendServerMessageAt network (head ++ noticeMarked text kind) info, true)
  | some id =>
    let r := s.appendToConversation id (sentMessage sender text kind info)
    if !r.2 then (r.1, false) else (if kind ≠ .notice then r.1.markUnread id else r.1, true)

def appendChannelLineAt (s : AppState) (network : NetworkId) (name text : String) (line : Line)
    (info : MessageMeta) : AppState :=
  match s.channelId network name with
  | some id => (s.appendToConversation id (newMessage "" text line info)).1
  | none => s

def appendChannelActivityAt (s : AppState) (network : NetworkId) (name text : String)
    (info : MessageMeta) : AppState :=
  s.appendChannelLineAt network name text .activity info

def appendChannelAlertAt (s : AppState) (network : NetworkId) (name text : String)
    (info : MessageMeta) : AppState :=
  s.appendChannelLineAt network name text .alert info

end Appending

section Confirming

/-- A line with what the source's confirmation replaces in it. -/
def confirmed (text : Option String) (kind : Kind) (info : MessageMeta) (m : Message) : Message :=
  { m with
    text := match text with
      | some text => noticeMarked (neutralizeBidi text) kind
      | none => m.text
    notice := kind = .notice
    action := kind = .action
    deliveryFailed := false
    nativeId := info.nativeId.or m.nativeId
    timestamp := match info.serverTime with
      | some time => timestampOf time
      | none => m.timestamp }

def failed (m : Message) : Message := { m with deliveryFailed := true }

def edited (messages : List Message) (sequence : ℤ) (f : Message → Message) : List Message :=
  match Search.binarySearchBy (fun m => compare m.sequence sequence) messages with
  | .ok index => messages.modify index f
  | .error _ => messages

/-- The source confirmed our message. -/
def confirmMessage (s : AppState) (id : ConversationId) (sequence : ℤ) (text : Option String)
    (kind : Kind) (info : MessageMeta) : AppState × Bool :=
  match Search.lookup Message.sequence sequence (s.log id) with
  | none => (s, false)
  | some message =>
    let s := s.setMessages id (edited (s.log id) sequence (confirmed text kind info))
    ((s.admitMessage id (confirmed text kind info message)).1, true)

def failMessage (s : AppState) (id : ConversationId) (sequence : ℤ) : AppState :=
  s.setMessages id (edited (s.log id) sequence failed)

end Confirming

section Requested

def historyRequestedFor (s : AppState) (id : ConversationId) : AppState :=
  { s with
    resumePoints := s.resumePoints.erase id
    pendingHistory := s.pendingHistory.insert id [] }

def historyRequested (s : AppState) (network : NetworkId) (name : String) : AppState :=
  match s.channelId network name with
  | some id => s.historyRequestedFor id
  | none => s

def historyResumed (s : AppState) (network : NetworkId) (name : String) : AppState :=
  match s.channelId network name with
  | some id => { s with pendingHistory := s.pendingHistory.insert id [] }
  | none => s

/-- A line of a requested reply is held until the reply ends. -/
def pushHistoryLine (s : AppState) (id : ConversationId) (line : TimelineLine) : AppState × Bool :=
  match s.pendingHistory.lookup id with
  | none => (s, false)
  | some lines =>
    ({ s with
        pendingHistory :=
          s.pendingHistory.insert id (lines ++ [(requestedMessage line, line.attention)]) }, true)

def appendReplyLine (id : ConversationId) (r : AppState × ℕ) (line : Message × Bool) :
    AppState × ℕ :=
  let appended := r.1.appendToConversation id line.1
  if appended.2 then
    (if line.2 then appended.1.noteAttention id else appended.1, r.2 + 1)
  else (appended.1, r.2)

/-- A requested reply ended: its lines are appended in the order of their times, behind a note about
lines that may be missing. -/
def finishHistoryFor (s : AppState) (id : ConversationId) (gapNote : Option String) :
    AppState × ℕ :=
  match s.pendingHistory.lookup id with
  | none => (s, 0)
  | some lines =>
    let s := { s with
      pendingHistory := s.pendingHistory.erase id
      resumePoints := s.resumePoints.erase id }
    if (s.conversation id).isNone then (s, 0)
    else
      let noted := match gapNote with
        | some note => appendReplyLine id (s, 0)
            (newMessage "" note .activity { provenance := .requested }, false)
        | none => (s, 0)
      ((serverTimeOrder (lines.map (·.1.timestamp))).filterMap (lines[·]?)).foldl
        (appendReplyLine id) noted

def insertHistoryFor (s : AppState) (id : ConversationId) (lines : List TimelineLine)
    (gapNote : Option String) : AppState × ℕ :=
  if (s.pendingHistory.lookup id).isNone then (s, 0)
  else (lines.foldl (fun s line => (s.pushHistoryLine id line).1) s).finishHistoryFor id gapNote

end Requested

section Older

def placed (messages : List Message) (message : Message) : List Message × Bool :=
  trimRetained (messages.insertIdx
    (Search.partitionPoint (fun m => m.sequence < message.sequence) messages) message)

def placeStreamed (s : AppState) (id : ConversationId) (message : Message) (attention : Bool) :
    AppState :=
  let r := placed (s.log id) message
  let s := s.setMessages id r.1
  let s := if attention then s.noteAttentionAt id message.sequence else s
  if r.2 then s.pruneAttention id else s

def arrived (messages : List Message) (first stop : ℤ) : List Message :=
  (messages.take (Search.partitionPoint (fun m => m.sequence < stop) messages)).drop
    (Search.partitionPoint (fun m => m.sequence < first) messages)

def settled (first : ℤ) (room : ℕ) (note : Option Message) (lines : List Message) : List Message :=
  let order := serverTimeOrder (lines.map (·.timestamp))
  ((note.toList ++ order.filterMap (lines[·]?)).take room).mapIdx fun offset m =>
    { m with sequence := first + offset }

/-- Where the line of a sequence of a block goes; nothing when it is cut off the end. -/
def movedTo (first : ℤ) (room : ℕ) (note : Option Message) (lines : List Message)
    (sequence : ℤ) : Option (Option ℤ) :=
  let order := serverTimeOrder (lines.map (·.timestamp))
  let shift := note.toList.length
  let added := (settled first room note lines).length
  let places := (order.filterMap (lines[·]?)).mapIdx fun place m => (m.sequence, place + shift)
  (places.find? (·.1 = sequence)).map fun (_, place) =>
    if place < added then some (first + place) else none

def reordered (note : Option Message) (lines : List Message) : Bool :=
  note.isSome || serverTimeOrder (lines.map (·.timestamp)) ≠ List.range lines.length

/-- The notified lines of a conversation follow the lines of a block that is settled. -/
def carried (attention : Attention) (id : ConversationId) (first stop : ℤ) (note : Option Message)
    (lines : List Message) : Attention :=
  if reordered note lines then
    attention.filterMap fun (conversation, sequence) =>
      if conversation ≠ id || !(first ≤ sequence && sequence < stop) then
        some (conversation, sequence)
      else
        match movedTo first (stop - first).toNat note lines sequence with
        | some (some moved) => some (conversation, moved)
        | some none => none
        | none => some (conversation, sequence)
  else attention

/-- Puts the lines of the block `first .. stop` in the order of their times; its sequences are
handed out again. -/
def settleBlock (s : AppState) (id : ConversationId) (first stop : ℤ) (note : Option Message) :
    AppState × ℕ :=
  let messages := s.log id
  let lines := arrived messages first stop
  let block := settled first (stop - first).toNat note lines
  let low := Search.partitionPoint (fun m => m.sequence < first) messages
  let high := Search.partitionPoint (fun m => m.sequence < stop) messages
  (({ s with attention := carried s.attention id first stop note lines } : AppState).setMessages id
    (messages.take low ++ block ++ messages.drop high), block.length)

def setHistoryPaging (s : AppState) (network : NetworkId) (available : Bool) : AppState :=
  if available && s.hasNetwork network then
    { s with historyPaging := insert network s.historyPaging }
  else { s with historyPaging := s.historyPaging.erase network }

/-- The line of a log's top that a page is asked for before: the oldest by its time, or else the
first with an identifier. -/
def oldestIdentified (head : List Message) : Option Message :=
  ((head.filter (·.timestamp.isSome)).argmin fun m => m.timestamp.getD 0).or
    (head.find? (·.nativeId.isSome))

/-- Starts one older page, when one may be asked for. -/
def requestOlderHistory (s : AppState) (id : ConversationId) :
    AppState × Option OlderHistoryRequest :=
  match s.conversation id with
  | none => (s, none)
  | some conversation =>
    let state := (s.olderHistory.lookup id).getD {}
    if conversation.network ∉ s.historyPaging || conversation.isPrivate ||
        id ∉ s.activeChannels || (s.pendingHistory.lookup id).isSome || state.inFlight.isSome ||
        state.finished || maxRetained ≤ conversation.messages.length then
      (s, none)
    else
      match oldestIdentified (conversation.messages.take olderPageOverlapWindow) with
      | none => (s, none)
      | some oldest =>
        let request := s.nextHistoryRequest + 1
        ({ s with
            nextHistoryRequest := request
            olderHistory := s.olderHistory.insert id { inFlight := some request } },
          some {
            request
            nativeId := oldest.nativeId
            timestamp := oldest.timestamp
            limit := min olderPageLimit (maxRetained - conversation.messages.length) })

def olderHistoryInFlight (s : AppState) (id : ConversationId) : Option ℕ :=
  (s.olderHistory.lookup id).bind (·.inFlight)

/-- The block of a page whose first line arrives; the topmost line is the last to be forgotten. -/
def freshBlock (start : ℤ) (request : ℕ) (messages : List Message) : HistoryBlock where
  start
  next := start
  request
  room := min (maxRetained - messages.length) historyReserve
  nearTop := (messages.take olderPageOverlapWindow).reverse.foldl (fun f m => (f.admitMessage m).1) {}

/-- Sets the sequences of a page aside when its first line arrives. -/
def openBlock (s : AppState) (id : ConversationId) (request : ℕ) : AppState :=
  if (s.historyBlocks.lookup id).any (·.request = request) then s
  else
    { s with
      olderSequenceFloor := s.olderSequenceFloor - historyReserve
      historyBlocks := s.historyBlocks.insert id
        (freshBlock (s.olderSequenceFloor - historyReserve) request (s.log id)) }

/-- One line of an older page arrived. -/
def pushOlderHistoryLine (s : AppState) (id : ConversationId) (request : ℕ)
    (line : TimelineLine) : AppState × Bool :=
  if s.olderHistoryInFlight id ≠ some request || (s.conversation id).isNone then (s, false)
  else
    let s := s.openBlock id request
    match s.historyBlocks.lookup id with
    | none => (s, false)
    | some block =>
      if block.room ≤ (block.next - block.start).toNat then (s, false)
      else
        let message := requestedMessage line
        if (s.filterOf id).contains message then (s, false)
        else
          let r := block.nearTop.admitMessage message
          if !r.2 then
            ({ s with historyBlocks := s.historyBlocks.insert id { block with nearTop := r.1 } },
              false)
          else
            let next := { block with next := block.next + 1, nearTop := r.1 }
            (({ s with historyBlocks := s.historyBlocks.insert id next } : AppState).placeStreamed
              id { message with sequence := block.next } line.attention, true)

/-- An older page ended. -/
def finishOlderHistory (s : AppState) (id : ConversationId) (request : ℕ) (beginning : Bool) :
    AppState × ℕ :=
  if s.olderHistoryInFlight id ≠ some request then (s, 0)
  else
    let block := s.historyBlocks.lookup id
    let s := { s with
      olderHistory := Map.adjust s.olderHistory id fun state => { state with inFlight := none }
      historyBlocks := s.historyBlocks.erase id }
    let r := match block with
      | some block =>
        if block.request = request ∧ (s.conversation id).isSome then
          s.settleBlock id block.start (block.start + historyReserve) none
        else (s, 0)
      | none => (s, 0)
    if beginning || r.2 = 0 then
      ({ r.1 with olderHistory := r.1.olderHistory.insert id { finished := true } }, r.2)
    else r

def olderHistoryFailed (s : AppState) (id : ConversationId) (request : ℕ) : AppState :=
  (s.finishOlderHistory id request true).1

def insertOlderHistory (s : AppState) (id : ConversationId) (request : ℕ)
    (lines : List TimelineLine) (beginning : Bool) : AppState × ℕ :=
  (lines.foldl (fun s line => (s.pushOlderHistoryLine id request line).1) s).finishOlderHistory
    id request beginning

end Older

end AppState

end CayenChat.App
