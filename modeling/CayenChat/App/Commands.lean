import CayenChat.App.Tree
import CayenChat.Lib.Machine

/-! # Commands and calls

What the user's commands select, and the calls of the application state that
its callers make one after another.
-/

namespace CayenChat.App

inductive Command
  | selectChannel (id : ConversationId)
  | selectServer (id : NetworkId)
  | nextUnreadChannel
  | previousUnreadChannel
  | nextNotifiedMessage
  | previousSelectedChannel
  | nextActiveChannel
  | previousActiveChannel
  | nextChannel
  | previousChannel
  | nextActiveServer
  | previousActiveServer
  | nextServer
  | previousServer
  | selectChannelAt (index : ℕ)
  | selectServerAt (index : ℕ)
  deriving DecidableEq, Repr

inductive ChannelFilter | all | active | unread
  deriving DecidableEq, Repr

def cycleFrom {α : Type} (l : List α) (current : ℕ) (forward : Bool) : List α :=
  (List.range' 1 l.length).filterMap fun step =>
    l[if forward then (current + step) % l.length
      else (current + l.length - step) % l.length]?

namespace AppState

def cycles (s : AppState) (filter : ChannelFilter) (id : ConversationId) : Bool :=
  match filter with
  | .all => true
  | .active => id ∈ s.activeChannels
  | .unread => id ∈ s.unread

/-- Where a cycle through the shown conversations starts. The source panics where this is nothing. -/
def cycleStart (s : AppState) (tree : DisplayTree) (order : List ConversationId)
    (forward : Bool) : Option ℕ :=
  match s.selected with
  | .channel id => order.findIdx? (· = id)
  | .server network =>
    let own := tree.children (.server network)
    if forward then
      some ((own.head?.bind fun c => order.findIdx? (· = c)).elim (order.length - 1)
        fun index => (index + order.length - 1) % order.length)
    else
      some ((own.getLast?.bind fun c => (order.reverse.findIdx? (· = c)).map
          fun fromEnd => order.length - 1 - fromEnd).elim 0
        fun index => (index + 1) % order.length)
  | .none => some (if forward then order.length - 1 else 0)

def cycleChannel (s : AppState) (forward : Bool) (filter : ChannelFilter) : AppState :=
  let tree := s.displayTree
  let order := tree.conversations
  if order = [] then s
  else
    match s.cycleStart tree order forward with
    | none => s
    | some current =>
      match (cycleFrom order current forward).find? (s.cycles filter) with
      | some id => s.selectChannel id
      | none => s

def headingTarget (s : AppState) (tree : DisplayTree) (activeOnly : Bool) :
    Parent → Option Selection
  | .server id => if !activeOnly || id ∈ s.activeServers then some (.server id) else none
  | .group id => ((tree.children (.group id)).find? fun c =>
      !activeOnly || c ∈ s.activeChannels).map .channel

def select (s : AppState) : Selection → AppState
  | .server id => s.selectServer id
  | .channel id => s.selectChannel id
  | .none => s

def cycleServer (s : AppState) (forward activeOnly : Bool) : AppState :=
  let tree := s.displayTree
  let headings := (tree.groups.filter (·.2 ≠ [])).map (fun g => Parent.group g.1) ++
    tree.servers.map fun n => Parent.server n.1
  let parent : Option Parent := match s.selected with
    | .server id => some (.server id)
    | .channel id => tree.parentOf id
    | .none => none
  if headings = [] then s
  else
    match parent.bind fun p => headings.findIdx? (· = p) with
    | none =>
      match s.networks with
      | first :: _ => s.selectServer first.id
      | [] => s
    | some current =>
      match (cycleFrom headings current forward).findSome? (s.headingTarget tree activeOnly) with
      | some target => s.select target
      | none => s

def numberedTargets (s : AppState) : List ConversationId :=
  let tree := s.displayTree
  match s.selected with
  | .channel id => ((tree.parentOf id).map tree.children).getD []
  | .server id => tree.children (.server id)
  | .none => []

def dispatch (s : AppState) : Command → AppState
  | .selectChannel id => s.selectChannel id
  | .selectServer id => s.selectServer id
  | .nextUnreadChannel => s.cycleChannel true .unread
  | .previousUnreadChannel => s.cycleChannel false .unread
  | .nextNotifiedMessage => s.visitAttention
  | .previousSelectedChannel => s.previousChannel.elim s s.selectChannel
  | .nextActiveChannel => s.cycleChannel true .active
  | .previousActiveChannel => s.cycleChannel false .active
  | .nextChannel => s.cycleChannel true .all
  | .previousChannel => s.cycleChannel false .all
  | .nextActiveServer => s.cycleServer true true
  | .previousActiveServer => s.cycleServer false true
  | .nextServer => s.cycleServer true false
  | .previousServer => s.cycleServer false false
  | .selectChannelAt index => s.numberedTargets[index]?.elim s s.selectChannel
  | .selectServerAt index => s.networks[index]?.elim s fun n => s.selectServer n.id

/-- A command changes nothing, selects a conversation or a server, or visits a notified line. -/
theorem dispatch_rule {s : AppState} {P : AppState → Prop} (command : Command) (h : P s)
    (hchannel : ∀ id, P (s.selectChannel id)) (hserver : ∀ id, P (s.selectServer id))
    (hvisit : command = .nextNotifiedMessage → P s.visitAttention) : P (s.dispatch command) := by
  have helim : ∀ {α : Type} (o : Option α) {f : α → AppState}, (∀ a, P (f a)) →
      P (o.elim s f) := by
    intro α o f hf
    cases o with
    | none => exact h
    | some a => exact hf a
  have hselect : ∀ target, P (s.select target) := by
    intro target
    cases target with
    | server id => exact hserver id
    | channel id => exact hchannel id
    | none => exact h
  have hcycle : ∀ forward filter, P (s.cycleChannel forward filter) := by
    intro forward filter
    unfold cycleChannel
    dsimp only
    split
    · exact h
    split
    · exact h
    split
    · exact hchannel _
    · exact h
  have hservers : ∀ forward activeOnly, P (s.cycleServer forward activeOnly) := by
    intro forward activeOnly
    unfold cycleServer
    dsimp only
    split
    · exact h
    split
    · split
      · exact hserver _
      · exact h
    · split
      · exact hselect _
      · exact h
  cases command with
  | selectChannel id => exact hchannel id
  | selectServer id => exact hserver id
  | nextNotifiedMessage => exact hvisit rfl
  | previousSelectedChannel => exact helim s.previousChannel hchannel
  | selectChannelAt index => exact helim s.numberedTargets[index]? hchannel
  | selectServerAt index => exact helim s.networks[index]? fun n => hserver n.id
  | nextUnreadChannel => exact hcycle true .unread
  | previousUnreadChannel => exact hcycle false .unread
  | nextActiveChannel => exact hcycle true .active
  | previousActiveChannel => exact hcycle false .active
  | nextChannel => exact hcycle true .all
  | previousChannel => exact hcycle false .all
  | nextActiveServer => exact hservers true true
  | previousActiveServer => exact hservers false true
  | nextServer => exact hservers true false
  | previousServer => exact hservers false false

end AppState

/-- A call of the application state. -/
inductive AppCall
  | syncNetworks (configs : List NetworkConfig)
  | resetNetwork (network : NetworkId) (channels : List String)
  | setStatus (id : NetworkId) (status : ConnectionStatus)
  | setCasemapping (network : NetworkId) (mapping : CaseMapping)
  | joinedChannel (network : NetworkId) (name : String)
  | partedChannel (network : NetworkId) (name : String)
  | privateConversation (network : NetworkId) (peerKey name : String) (create : Bool)
  | renamePrivate (network : NetworkId) (fromKey toKey toName : String)
  | closePrivate (id : ConversationId)
  | setChannelOrder (network : NetworkId) (order : List String)
  | moveConversation (id : ConversationId) (move : MoveTo)
  | moveAfter (id other : ConversationId)
  | setGroups (specs : List GroupSpec)
  | createGroup (name : String)
  | renameGroup (id : GroupId) (name : String)
  | deleteGroup (id : GroupId)
  | setGroupCollapsed (id : GroupId) (collapsed : Bool)
  | moveToGroup (id : ConversationId) (group : GroupId) (before : Option ConversationId)
  | returnToServer (id : ConversationId)
  | dispatch (command : Command)
  | takeReveal
  | markUnread (id : ConversationId)
  | highlight (id : ConversationId)
  | markHighlighted (network : NetworkId) (name : String)
  | noteAttention (id : ConversationId)
  | appendServerMessageAt (id : NetworkId) (text : String) (info : MessageMeta)
  | appendSystemMessage (id : NetworkId) (text : String)
  | appendDiagnosticMessage (id : NetworkId) (text : String)
  | appendConversationMessage (id : ConversationId) (sender text : String) (kind : Kind)
      (info : MessageMeta) (unread : Bool)
  | appendConversationActivity (id : ConversationId) (text : String)
  | appendNetworkActivity (id : NetworkId) (text : String)
  | appendChannelMessageAt (network : NetworkId) (name sender text : String) (kind : Kind)
      (info : MessageMeta)
  | appendChannelActivityAt (network : NetworkId) (name text : String) (info : MessageMeta)
  | appendChannelAlertAt (network : NetworkId) (name text : String) (info : MessageMeta)
  | appendRequestedJoinAlertAt (network : NetworkId) (name text : String) (info : MessageMeta)
  | confirmMessage (id : ConversationId) (sequence : ℤ) (text : Option String) (kind : Kind)
      (info : MessageMeta)
  | failMessage (id : ConversationId) (sequence : ℤ)
  | historyRequested (network : NetworkId) (name : String)
  | historyRequestedFor (id : ConversationId)
  | historyResumed (network : NetworkId) (name : String)
  | pushHistoryLine (id : ConversationId) (line : TimelineLine)
  | finishHistoryFor (id : ConversationId) (gapNote : Option String)
  | setHistoryPaging (network : NetworkId) (available : Bool)
  | requestOlderHistory (id : ConversationId)
  | pushOlderHistoryLine (id : ConversationId) (request : ℕ) (line : TimelineLine)
  | finishOlderHistory (id : ConversationId) (request : ℕ) (beginning : Bool)

namespace AppState

/-- One call, without what it returns; `lowercase` is the full Unicode mapping. -/
def call (lowercase : String → String) (s : AppState) : AppCall → AppState
  | .syncNetworks configs => s.syncNetworks configs
  | .resetNetwork network channels => s.resetNetwork network channels
  | .setStatus id status => s.setStatus id status
  | .setCasemapping network mapping => s.setCasemapping network mapping
  | .joinedChannel network name => s.joinedChannel network name
  | .partedChannel network name => s.partedChannel network name
  | .privateConversation network peerKey name create =>
    (s.privateConversation network peerKey name create).1
  | .renamePrivate network fromKey toKey toName =>
    (s.renamePrivate network fromKey toKey toName).1
  | .closePrivate id => (s.closePrivate id).1
  | .setChannelOrder network order => s.setChannelOrder network order
  | .moveConversation id move => (s.moveConversation id move).1
  | .moveAfter id other => (s.moveAfter id other).1
  | .setGroups specs => s.setGroups lowercase specs
  | .createGroup name => (s.createGroup lowercase name).1
  | .renameGroup id name => (s.renameGroup lowercase id name).1
  | .deleteGroup id => (s.deleteGroup id).1
  | .setGroupCollapsed id collapsed => (s.setGroupCollapsed id collapsed).1
  | .moveToGroup id group before => (s.moveToGroup id group before).1
  | .returnToServer id => (s.returnToServer id).1
  | .dispatch command => s.dispatch command
  | .takeReveal => { s with reveal := none }
  | .markUnread id => s.markUnread id
  | .highlight id => s.highlight id
  | .markHighlighted network name => s.markHighlighted network name
  | .noteAttention id => s.noteAttention id
  | .appendServerMessageAt id text info => s.appendServerMessageAt id text info
  | .appendSystemMessage id text => s.appendSystemMessage id text
  | .appendDiagnosticMessage id text => s.appendDiagnosticMessage id text
  | .appendConversationMessage id sender text kind info unread =>
    (s.appendConversationMessage id sender text kind info unread).1
  | .appendConversationActivity id text => s.appendConversationActivity id text
  | .appendNetworkActivity id text => s.appendNetworkActivity id text
  | .appendChannelMessageAt network name sender text kind info =>
    (s.appendChannelMessageAt network name sender text kind info).1
  | .appendChannelActivityAt network name text info =>
    s.appendChannelActivityAt network name text info
  | .appendChannelAlertAt network name text info => s.appendChannelAlertAt network name text info
  | .appendRequestedJoinAlertAt network name text info =>
    s.appendRequestedJoinAlertAt network name text info
  | .confirmMessage id sequence text kind info => (s.confirmMessage id sequence text kind info).1
  | .failMessage id sequence => s.failMessage id sequence
  | .historyRequested network name => s.historyRequested network name
  | .historyRequestedFor id => s.historyRequestedFor id
  | .historyResumed network name => s.historyResumed network name
  | .pushHistoryLine id line => (s.pushHistoryLine id line).1
  | .finishHistoryFor id gapNote => (s.finishHistoryFor id gapNote).1
  | .setHistoryPaging network available => s.setHistoryPaging network available
  | .requestOlderHistory id => (s.requestOlderHistory id).1
  | .pushOlderHistoryLine id request line => (s.pushOlderHistoryLine id request line).1
  | .finishOlderHistory id request beginning => (s.finishOlderHistory id request beginning).1

def run (lowercase : String → String) (configs : List NetworkConfig) (is : List AppCall) :
    AppState :=
  Machine.exec (call lowercase) (withNetworks configs) is

end AppState

end CayenChat.App
