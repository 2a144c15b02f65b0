import CayenChat.App.Timeline
import CayenChat.Lib.Map

/-! # Application state

Networks, conversations with their logs, and the tables that refer to them by
identifier. Identifiers are natural numbers and sequences are integers; a
conversation's topic, members and modes, the avatars and the revision counter
are left out.
-/

namespace CayenChat.App

def maxConversationsPerNetwork : ℕ := 1000

def maxOrderNames : ℕ := 2000

def maxPrivateConversationsPerNetwork : ℕ := 100

def historyReserve : ℕ := 256

def maxSystemMessages : ℕ := 200

def maxAttention : ℕ := 200

def olderPageLimit : ℕ := 50

def olderPageOverlapWindow : ℕ := historyReserve

def resumeScanWindow : ℕ := 256

def sequenceOrigin : ℤ := 2 ^ 62

/-- `usize::MAX`. -/
def usizeMax : ℕ := 2 ^ 64 - 1

abbrev NetworkId := ℕ
abbrev ConversationId := ℕ
abbrev GroupId := ℕ

structure Network where
  id : NetworkId
  name : String
  deriving DecidableEq, Repr

inductive ConversationKind
  | channel
  | privateTo (peerKey : String)
  deriving DecidableEq, Repr

structure Conversation where
  id : ConversationId
  network : NetworkId
  kind : ConversationKind
  name : String
  messages : List Message := []
  deriving DecidableEq

namespace Conversation

def isPrivate (c : Conversation) : Bool := c.kind ≠ .channel

def peerKey (c : Conversation) : Option String :=
  match c.kind with
  | .privateTo key => some key
  | .channel => none

end Conversation

inductive Selection
  | server (id : NetworkId)
  | channel (id : ConversationId)
  | none
  deriving DecidableEq, Repr

inductive ConnectionStatus
  | connecting
  | transportConnected
  | registered
  | disconnected (reason : String)
  deriving DecidableEq, Repr

/-- A server as configured. -/
structure NetworkConfig where
  id : NetworkId
  name : String
  channels : List String
  deriving DecidableEq, Repr

/-- The sequences an older page fills as its lines arrive. -/
structure HistoryBlock where
  start : ℤ
  /-- The sequence of the next line. -/
  next : ℤ
  /-- The request the page answers. -/
  request : ℕ
  /-- Most lines the page takes. -/
  room : ℕ
  /-- The top of the log when the page started. -/
  nearTop : DuplicateFilter := {}

/-- Paging back through one conversation's history. -/
structure OlderHistory where
  inFlight : Option ℕ := none
  finished : Bool := false
  deriving DecidableEq

/-- Where a disconnect cut a channel's log off. -/
structure ResumePoint where
  nativeId : Option NativeMessageId
  timestamp : Option Timestamp
  deriving DecidableEq

/-- One page of a conversation's older history, for its backend to ask for. -/
structure OlderHistoryRequest where
  request : ℕ
  nativeId : Option NativeMessageId
  timestamp : Option Timestamp
  limit : ℕ
  deriving DecidableEq

/-- A channel of a group: its server and folded name. -/
structure GroupMember where
  network : NetworkId
  key : String
  deriving DecidableEq, Repr

structure ChannelGroup where
  id : GroupId
  name : String
  collapsed : Bool
  members : List GroupMember
  deriving DecidableEq, Repr

/-- Notified lines not yet visited, oldest first, as the conversation and the sequence. -/
abbrev Attention := List (ConversationId × ℤ)

structure AppState where
  networks : List Network := []
  conversations : List Conversation := []
  channelIds : Map (NetworkId × String) ConversationId := ∅
  casemappings : Map NetworkId CaseMapping := ∅
  selected : Selection
  previousChannel : Option ConversationId := none
  unread : Finset ConversationId := ∅
  highlighted : Finset ConversationId := ∅
  attention : Attention := []
  reveal : Option (ConversationId × ℤ) := none
  activeChannels : Finset ConversationId := ∅
  activeServers : Finset NetworkId := ∅
  statuses : Map NetworkId ConnectionStatus := ∅
  serverMessages : Map NetworkId (List Message) := ∅
  systemMessages : List (NetworkId × Message) := []
  nextMessageSequence : ℤ := sequenceOrigin
  nextConversationId : ConversationId := 1
  duplicates : Map ConversationId DuplicateFilter := ∅
  pendingHistory : Map ConversationId (List (Message × Bool)) := ∅
  historyBlocks : Map ConversationId HistoryBlock := ∅
  historyPaging : Finset NetworkId := ∅
  olderHistory : Map ConversationId OlderHistory := ∅
  nextHistoryRequest : ℕ := 0
  olderSequenceFloor : ℤ := sequenceOrigin
  resumePoints : Map ConversationId ResumePoint := ∅
  channelOrders : Map NetworkId (List String) := ∅
  channelRanks : Map NetworkId (Map String ℕ) := ∅
  groups : List ChannelGroup := []
  nextGroupId : GroupId := 0

namespace AppState

def hasNetwork (s : AppState) (id : NetworkId) : Bool := s.networks.any (·.id = id)

def conversation (s : AppState) (id : ConversationId) : Option Conversation :=
  s.conversations.find? (·.id = id)

def modifyConversation (s : AppState) (id : ConversationId) (f : Conversation → Conversation) :
    AppState :=
  { s with
    conversations := s.conversations.replaceF fun c => if c.id = id then some (f c) else none }

def setMessages (s : AppState) (id : ConversationId) (messages : List Message) : AppState :=
  s.modifyConversation id fun c => { c with messages }

def status (s : AppState) (id : NetworkId) : Option ConnectionStatus := s.statuses.lookup id

def casemapping (s : AppState) (network : NetworkId) : CaseMapping :=
  (s.casemappings.lookup network).getD default

def channelId (s : AppState) (network : NetworkId) (name : String) : Option ConversationId :=
  s.channelIds.lookup (network, (s.casemapping network).fold name)

def privateId (s : AppState) (network : NetworkId) (peerKey : String) : Option ConversationId :=
  (s.conversations.find? fun c => c.network = network && c.peerKey = some peerKey).map (·.id)

def selectedChannel (s : AppState) : Option Conversation :=
  match s.selected with
  | .channel id => s.conversation id
  | _ => none

def serverLog (s : AppState) (id : NetworkId) : List Message := (s.serverMessages.lookup id).getD []

def markUnread (s : AppState) (id : ConversationId) : AppState :=
  if s.conversations.any (·.id = id) && s.selected ≠ .channel id then
    { s with unread := insert id s.unread }
  else s

def highlight (s : AppState) (id : ConversationId) : AppState :=
  if s.selected ≠ .channel id && s.conversations.any (·.id = id) then
    { s with highlighted := insert id s.highlighted }
  else s

def markHighlighted (s : AppState) (network : NetworkId) (name : String) : AppState :=
  match s.channelId network name with
  | some id =>
    if s.selected ≠ .channel id then { s with highlighted := insert id s.highlighted } else s
  | none => s

def selectChannel (s : AppState) (id : ConversationId) : AppState :=
  if s.conversations.any (·.id = id) then
    { s with
      previousChannel := match s.selected with
        | .channel current => if current ≠ id then some current else s.previousChannel
        | _ => s.previousChannel
      selected := .channel id
      unread := s.unread.erase id
      highlighted := s.highlighted.erase id }
  else s

def selectServer (s : AppState) (id : NetworkId) : AppState :=
  if s.hasNetwork id then
    { s with
      previousChannel := match s.selected with
        | .channel current => some current
        | _ => s.previousChannel
      selected := .server id }
  else s

end AppState

end CayenChat.App
