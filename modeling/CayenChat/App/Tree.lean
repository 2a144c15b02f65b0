import CayenChat.App.Logs

/-! # Networks, conversations and the channel tree

Networks are configured, channels are joined and parted, private conversations
opened, renamed and closed, and the user arranges them, under their servers or
in groups of their own.
-/

namespace CayenChat.App

def maxGroups : ℕ := 64

def maxGroupMembers : ℕ := 2000

def maxGroupNameChars : ℕ := 64

/-- Where a channel is shown. -/
inductive Parent
  | server (id : NetworkId)
  | group (id : GroupId)
  deriving DecidableEq, Repr

/-- Where a conversation moves within its group. -/
inductive MoveTo
  | up
  | down
  | first
  | last
  | place (other : ConversationId)
  deriving DecidableEq, Repr

/-- A group as saved. -/
structure GroupSpec where
  name : String
  collapsed : Bool
  members : List GroupMember
  deriving DecidableEq, Repr

/-- The channel tree's shape: the groups, then the servers, each with what is shown under it. -/
structure DisplayTree where
  groups : List (GroupId × List ConversationId)
  servers : List (NetworkId × List ConversationId)
  deriving DecidableEq, Repr

namespace DisplayTree

def children (t : DisplayTree) : Parent → List ConversationId
  | .group id => ((t.groups.find? (·.1 = id)).map Prod.snd).getD []
  | .server id => ((t.servers.find? (·.1 = id)).map Prod.snd).getD []

def parentOf (t : DisplayTree) (id : ConversationId) : Option Parent :=
  ((t.groups.find? (·.2.contains id)).map fun g => Parent.group g.1).or
    ((t.servers.find? (·.2.contains id)).map fun n => Parent.server n.1)

def conversations (t : DisplayTree) : List ConversationId :=
  t.groups.flatMap Prod.snd ++ t.servers.flatMap Prod.snd

end DisplayTree

def GroupMember.of (c : Conversation) : GroupMember := ⟨c.network, toAsciiLowercase c.name⟩

def cleanGroupName (name : String) : Option String :=
  let name := trim name
  if name ≠ "" ∧ (name.toList.any isControl) = false ∧ name.toList.length ≤ maxGroupNameChars then
    some name
  else none

/-- Rotates the part of a list between two positions by one, so that what is at `source` goes to
`target`. -/
def moveItem {α : Type} (l : List α) (source target : ℕ) : List α :=
  match l[source]? with
  | some a => (l.eraseIdx source).insertIdx target a
  | none => l

namespace AppState

section Conversations

def networkPosition (s : AppState) (network : NetworkId) : ℕ :=
  (s.networks.findIdx? (·.id = network)).getD usizeMax

def sortConversations (s : AppState) : AppState :=
  { s with conversations := s.conversations.insertionSort fun a b =>
      s.networkPosition a.network ≤ s.networkPosition b.network }

def channelRank (ranks : Map String ℕ) (name : String) : ℕ :=
  (ranks.lookup (toAsciiLowercase name)).getD usizeMax

/-- Where a new channel goes among the channels at `start .. stop`. -/
def channelSlot (s : AppState) (network : NetworkId) (name : String) (start stop : ℕ) : ℕ :=
  match s.channelRanks.lookup network with
  | none => stop
  | some ranks =>
    start + Search.partitionPoint (fun c => channelRank ranks c.name ≤ channelRank ranks name)
      ((s.conversations.take stop).drop start)

def emptyNetworkSlot (s : AppState) (network : NetworkId) : ℕ :=
  (s.conversations.findIdx? fun c =>
    s.networkPosition network < s.networkPosition c.network).getD s.conversations.length

def afterLast (s : AppState) (p : Conversation → Bool) : Option ℕ :=
  (s.conversations.reverse.findIdx? p).map fun fromEnd => s.conversations.length - fromEnd

/-- Where a new conversation goes. -/
def conversationSlot (s : AppState) (network : NetworkId) (isPrivate : Bool) (name : String) : ℕ :=
  let index :=
    ((s.afterLast fun c => c.network = network && (isPrivate || !c.isPrivate)).or
      (s.conversations.findIdx? (·.network = network))).getD (s.emptyNetworkSlot network)
  match s.conversations.findIdx? fun c => c.network = network && !c.isPrivate with
  | some start => if !isPrivate then s.channelSlot network name start index else index
  | none => index

/-- Adds a conversation to a network, within its limit. -/
def addConversation (s : AppState) (network : NetworkId) (kind : ConversationKind) (name : String) :
    AppState × Option ConversationId :=
  if !s.hasNetwork network ||
      maxConversationsPerNetwork ≤ (s.conversations.filter (·.network = network)).length then
    (s, none)
  else
    let id := s.nextConversationId
    let key := (network, (s.casemapping network).fold name)
    let index := s.conversationSlot network (kind ≠ .channel) name
    ({ s with
        nextConversationId := id + 1
        channelIds := if kind = .channel ∧ (s.channelIds.lookup key).isNone then
          s.channelIds.insert key id else s.channelIds
        conversations := s.conversations.insertIdx index { id, network, kind, name } }, some id)

def ensureConfiguredChannel (s : AppState) (network : NetworkId) (name : String) :
    AppState × Option ConversationId :=
  match s.conversations.find? fun c => c.network = network && c.kind = .channel && c.name = name with
  | some c => (s, some c.id)
  | none => s.addConversation network .channel name

def ensureChannel (s : AppState) (network : NetworkId) (name : String) :
    AppState × Option ConversationId :=
  match s.channelId network name with
  | some id => (s, some id)
  | none => s.addConversation network .channel name

/-- Records the server's comparison of channel names and re-keys the network's channels. -/
def setCasemapping (s : AppState) (network : NetworkId) (mapping : CaseMapping) : AppState :=
  let casemappings := if mapping = default then s.casemappings.erase network
    else s.casemappings.insert network mapping
  let kept := Map.retain (fun key => key.1 ≠ network) s.channelIds
  let channels := s.conversations.filter fun c => c.network = network && c.kind = .channel
  { s with
    casemappings
    channelIds := channels.foldl (fun ids c =>
      let key := (network, mapping.fold c.name)
      if (ids.lookup key).isNone then ids.insert key c.id else ids) kept }

/-- Everything kept for a conversation that goes, the conversation aside. -/
def forgetConversation (s : AppState) (network : NetworkId) (id : ConversationId) : AppState :=
  { s with
    duplicates := s.duplicates.erase id
    pendingHistory := s.pendingHistory.erase id
    historyBlocks := s.historyBlocks.erase id
    olderHistory := s.olderHistory.erase id
    resumePoints := s.resumePoints.erase id
    unread := s.unread.erase id
    highlighted := s.highlighted.erase id
    attention := s.attention.filter (·.1 ≠ id)
    activeChannels := s.activeChannels.erase id
    previousChannel := if s.previousChannel = some id then none else s.previousChannel
    selected := if s.selected = .channel id then .server network else s.selected }

def removeConversations (s : AppState) (network : NetworkId) : AppState × List ConversationId :=
  let removed := (s.conversations.filter (·.network = network)).map (·.id)
  (removed.foldl (fun s id => s.forgetConversation network id)
    { s with
      conversations := s.conversations.filter (·.network ≠ network)
      channelIds := Map.retain (fun key => key.1 ≠ network) s.channelIds
      casemappings := s.casemappings.erase network }, removed)

/-- Selects the first network when what was selected is gone. -/
def repairSelection (s : AppState) : AppState :=
  let valid := match s.selected with
    | .server id => s.hasNetwork id
    | .channel id => s.conversations.any (·.id = id)
    | .none => s.networks.isEmpty
  if valid then s
  else
    { s with selected := match s.networks with
      | network :: _ => .server network.id
      | [] => .none }

/-- Everything kept for a network that goes, the network aside. -/
def forgetNetwork (s : AppState) (id : NetworkId) : AppState × List ConversationId :=
  let r := s.removeConversations id
  ({ r.1 with
      statuses := r.1.statuses.erase id
      serverMessages := r.1.serverMessages.erase id
      systemMessages := r.1.systemMessages.filter (·.1 ≠ id)
      activeServers := r.1.activeServers.erase id
      channelOrders := r.1.channelOrders.erase id
      channelRanks := r.1.channelRanks.erase id
      groups := r.1.groups.map fun g =>
        { g with members := g.members.filter (·.network ≠ id) } }, r.2)

def ensureConfiguredChannels (s : AppState) (network : NetworkId) (channels : List String) :
    AppState × Option ConversationId :=
  channels.foldl (fun r channel =>
    let ensured := r.1.ensureConfiguredChannel network channel
    (ensured.1, r.2.or ensured.2)) (s, none)

/-- Makes the networks match the configured ones. -/
def syncNetworks (s : AppState) (configs : List NetworkConfig) : AppState :=
  let gone := (s.networks.map (·.id)).filter fun id => !configs.any (·.id = id)
  let added := configs.filter fun config => !s.hasNetwork config.id
  let s := gone.foldl (fun s id => (forgetNetwork s id).1) s
  let s : AppState :=
    { s with networks := configs.map fun config => ⟨config.id, config.name⟩ }
  let statuses := configs.foldl (fun statuses config =>
    if (statuses.lookup config.id).isNone then
      statuses.insert config.id (.disconnected "Not connected.")
    else statuses) s.statuses
  let s := { s with statuses }
  (added.foldl (fun s config => (ensureConfiguredChannels s config.id config.channels).1)
    s.sortConversations).repairSelection

/-- Every configured server, none connected yet. -/
def withNetworks (configs : List NetworkConfig) : AppState :=
  let s : AppState :=
    { selected := match configs with
      | config :: _ => .server config.id
      | [] => .none }
  let s := configs.foldl (fun s config =>
    ({ s with
      networks := s.networks ++ [⟨config.id, config.name⟩]
      statuses := s.statuses.insert config.id (.disconnected "Not connected.") } :
      AppState).ensureConfiguredChannels config.id config.channels |>.1) s
  match s.conversations with
  | first :: _ => { s with selected := .channel first.id }
  | [] => s

/-- The server that is selected, or that of the selected channel. The source panics where this is
nothing and something is selected. -/
def selectedNetwork (s : AppState) : Option Network :=
  let id : Option NetworkId := match s.selected with
    | .server id => some id
    | .channel id => (s.conversation id).map (·.network)
    | .none => none
  id.bind fun id => s.networks.find? (·.id = id)

/-- Starts a fresh session of a network. -/
def resetNetwork (s : AppState) (network : NetworkId) (channels : List String) : AppState :=
  if !s.hasNetwork network then s
  else
    let selectedHere := (s.selectedNetwork.map (·.id)) = some network
    let s : AppState := (s.removeConversations network).1
    let s := { s with
      serverMessages := s.serverMessages.erase network
      systemMessages := s.systemMessages.filter (·.1 ≠ network)
      activeServers := s.activeServers.erase network
      statuses := s.statuses.insert network .connecting }
    let r := s.ensureConfiguredChannels network channels
    let s := r.1
    ({ s with selected :=
        if selectedHere then
          match r.2 with
          | some id => .channel id
          | none => .server network
        else s.selected } : AppState).repairSelection

/-- The private conversation with a peer, created when asked for and there is room. -/
def privateConversation (s : AppState) (network : NetworkId) (peerKey name : String)
    (create : Bool) : AppState × Option ConversationId :=
  match s.privateId network peerKey with
  | some id => (s.modifyConversation id fun c => { c with name }, some id)
  | none =>
    if !create || maxPrivateConversationsPerNetwork ≤
        (s.conversations.filter fun c => c.network = network && c.isPrivate).length then
      (s, none)
    else
      let r := s.addConversation network (.privateTo peerKey) name
      match r.2 with
      | none => r
      | some id =>
        (if r.1.status network = some .registered then
          { r.1 with activeChannels := insert id r.1.activeChannels } else r.1, some id)

/-- A private conversation follows its peer's new name, unless there is one with that name. -/
def renamePrivate (s : AppState) (network : NetworkId) (fromKey toKey toName : String) :
    AppState × Option ConversationId :=
  match s.privateId network fromKey with
  | none => (s, none)
  | some id =>
    if fromKey ≠ toKey ∧ (s.privateId network toKey).isSome then (s, none)
    else
      (s.modifyConversation id fun c => { c with kind := .privateTo toKey, name := toName }, some id)

def closePrivate (s : AppState) (id : ConversationId) : AppState × Bool :=
  match s.conversations.find? fun c => c.id = id && c.isPrivate with
  | none => (s, false)
  | some c =>
    (({ s with conversations := s.conversations.eraseP fun c => c.id = id && c.isPrivate } :
      AppState).forgetConversation c.network id, true)

def joinedChannel (s : AppState) (network : NetworkId) (name : String) : AppState :=
  let r := s.ensureChannel network name
  match r.2 with
  | some id => { r.1 with activeChannels := insert id r.1.activeChannels }
  | none => r.1

def partedChannel (s : AppState) (network : NetworkId) (name : String) : AppState :=
  match s.channelId network name with
  | some id =>
    { s with
      activeChannels := s.activeChannels.erase id
      olderHistory := s.olderHistory.erase id
      resumePoints := s.resumePoints.erase id }
  | none => s

def appendRequestedJoinAlertAt (s : AppState) (network : NetworkId) (name text : String)
    (info : MessageMeta) : AppState :=
  let r := s.ensureChannel network name
  if r.2.isSome then r.1.appendChannelAlertAt network name text info else r.1

def newestIdentified (tail : List Message) : Option Message :=
  ((tail.filter (·.timestamp.isSome)).reverse.argmax fun m => m.timestamp.getD 0).or
    (tail.reverse.find? (·.nativeId.isSome))

/-- The resume points after a disconnect cut the joined channels of a network off. -/
def cutOffChannels (s : AppState) (network : NetworkId) (couldPage : Bool) :
    Map ConversationId ResumePoint :=
  s.conversations.foldl (fun points c =>
    if c.network ≠ network || c.isPrivate || c.id ∉ s.activeChannels then points
    else if !couldPage then points.erase c.id
    else if (points.lookup c.id).isSome then points
    else
      match newestIdentified (c.messages.drop (c.messages.length - resumeScanWindow)) with
      | none => points
      | some newest => points.insert c.id ⟨newest.nativeId, newest.timestamp⟩) s.resumePoints

def setStatus (s : AppState) (id : NetworkId) (status : ConnectionStatus) : AppState :=
  if !s.hasNetwork id then s
  else
    let ids := (s.conversations.filter (·.network = id)).map (·.id)
    let s : AppState := match status with
      | .registered =>
        { s with
          activeServers := insert id s.activeServers
          activeChannels := s.activeChannels ∪ ((s.conversations.filter fun c =>
            c.network = id && c.isPrivate).map (·.id)).toFinset }
      | .disconnected _ =>
        { s with
          activeServers := s.activeServers.erase id
          historyPaging := s.historyPaging.erase id
          resumePoints := s.cutOffChannels id (id ∈ s.historyPaging)
          activeChannels := s.activeChannels \ ids.toFinset
          pendingHistory := ids.foldl (fun m id => m.erase id) s.pendingHistory
          olderHistory := ids.foldl (fun m id => m.erase id) s.olderHistory }
      | _ => s
    { s with statuses := s.statuses.insert id status }

def historyResume (s : AppState) (network : NetworkId) :
    List (ConversationId × String × ResumePoint) :=
  (s.conversations.filter (·.network = network)).filterMap fun c =>
    (s.resumePoints.lookup c.id).map fun point => (c.id, c.name, point)

end Conversations

section Order

/-- The remembered order of a network's channels, those that are not open kept behind the one that
preceded them. -/
def mergedChannelOrder (s : AppState) (network : NetworkId) : List String :=
  let order := (s.conversations.filter fun c => c.network = network && !c.isPrivate).map
    fun c => toAsciiLowercase c.name
  let remembered := (s.channelOrders.lookup network).getD []
  (remembered.foldl (fun (order, previous) name =>
    if order.contains name then (order, some name)
    else
      let place := (previous.bind fun p => order.findIdx? (· = p)).elim 0 (· + 1)
      (order.insertIdx place name, some name)) (order, (none : Option String))).1

def channelOrder (s : AppState) (network : NetworkId) : List String :=
  (s.channelOrders.lookup network).getD []

def storeChannelOrder (s : AppState) (network : NetworkId) (order : List String) : AppState :=
  let order := order.take maxOrderNames
  if order = [] then
    { s with
      channelOrders := s.channelOrders.erase network
      channelRanks := s.channelRanks.erase network }
  else
    let ranks := order.zipIdx.foldl (fun ranks (name, rank) =>
      if (ranks.lookup name).isNone then ranks.insert name rank else ranks) ∅
    { s with
      channelOrders := s.channelOrders.insert network order
      channelRanks := s.channelRanks.insert network ranks }

/-- Arranges a network's channels by the chosen order. -/
def applyChannelOrder (s : AppState) (network : NetworkId) : AppState :=
  match s.channelRanks.lookup network with
  | none => s
  | some ranks =>
    match s.conversations.findIdx? fun c => c.network = network && !c.isPrivate with
    | none => s
    | some start =>
      let length := ((s.conversations.drop start).takeWhile fun c =>
        c.network = network && !c.isPrivate).length
      let channels := (s.conversations.drop start).take length
      { s with conversations := s.conversations.take start ++
          (channels.insertionSort fun a b => channelRank ranks a.name ≤ channelRank ranks b.name) ++
          s.conversations.drop (start + length) }

def setChannelOrder (s : AppState) (network : NetworkId) (order : List String) : AppState :=
  (s.storeChannelOrder network order).applyChannelOrder network

/-- The range of the conversations of a conversation's network and kind around it. -/
def groupRange (s : AppState) (id : ConversationId) : Option (ℕ × ℕ) :=
  (s.conversations.findIdx? (·.id = id)).bind fun place =>
    s.conversations[place]?.map fun here =>
      let same (c : Conversation) : Bool :=
        c.network = here.network && c.isPrivate == here.isPrivate
      (place - ((s.conversations.take place).reverse.takeWhile same).length,
        place + ((s.conversations.drop place).takeWhile same).length)

end Order

section Groups

def anyGrouped (s : AppState) : Bool := s.groups.any (·.members ≠ [])

def memberChannel (s : AppState) (m : GroupMember) : Option ConversationId :=
  (s.conversations.reverse.find? fun c => !c.isPrivate && GroupMember.of c = m).map (·.id)

/-- The tree as shown. -/
def displayTree (s : AppState) : DisplayTree :=
  let groups := s.groups.map fun g =>
    (g.id, if s.anyGrouped then g.members.filterMap s.memberChannel else [])
  let grouped := groups.flatMap Prod.snd
  { groups
    servers := s.networks.map fun n => (n.id, (s.conversations.filter fun c =>
      c.network = n.id && !grouped.contains c.id).map (·.id)) }

def group (s : AppState) (id : GroupId) : Option ChannelGroup := s.groups.find? (·.id = id)

def groupIndexOf (s : AppState) (c : Conversation) : Option ℕ :=
  s.groups.findIdx? fun g => g.members.contains (.of c)

def isGrouped (s : AppState) (id : ConversationId) : Bool :=
  (s.conversation id).any fun c => (s.groupIndexOf c).isSome

def displayParent (s : AppState) (id : ConversationId) : Option Parent :=
  (s.conversation id).bind fun c =>
    match if c.isPrivate then none else s.groupIndexOf c with
    | some place => s.groups[place]?.map fun g => .group g.id
    | none => if s.hasNetwork c.network then some (.server c.network) else none

def leaveGroup (s : AppState) (c : Conversation) : AppState × Bool :=
  match s.groupIndexOf c with
  | none => (s, false)
  | some place =>
    ({ s with groups := s.groups.modify place fun g =>
        { g with members := g.members.filter (· ≠ .of c) } }, true)

/-- Shows a channel in a group, before another one or at the end. -/
def moveToGroup (s : AppState) (id : ConversationId) (group : GroupId)
    (before : Option ConversationId) : AppState × Bool :=
  match s.conversation id, s.group group with
  | some c, some g =>
    if c.isPrivate || maxGroupMembers ≤ g.members.length && !g.members.contains (.of c) then
      (s, false)
    else
      let anchor := (before.bind s.conversation).map GroupMember.of
      let s := (s.leaveGroup c).1
      ({ s with groups := s.groups.replaceF fun g =>
          if g.id = group then
            let place := (anchor.bind fun a => g.members.findIdx? (· = a)).getD g.members.length
            some { g with members := g.members.insertIdx place (.of c) }
          else none }, true)
  | _, _ => (s, false)

def returnToServer (s : AppState) (id : ConversationId) : AppState × Bool :=
  match s.conversation id with
  | some c => s.leaveGroup c
  | none => (s, false)

/-- The item a move among siblings goes to, from the position of the one that moves. -/
def moveTarget {α : Type} (siblings : List α) (source : ℕ) (place : ConversationId → Option α) :
    MoveTo → Option α
  | .up => siblings[source - 1]?
  | .down => siblings[min (source + 1) (siblings.length - 1)]?
  | .first => siblings[0]?
  | .last => siblings[siblings.length - 1]?
  | .place other => place other

/-- Reorders within a group; nothing when the channel is in none. -/
def moveInGroup (s : AppState) (tree : DisplayTree) (id : ConversationId) (move : MoveTo) :
    AppState × Option Bool :=
  let target : Option (ℕ × Option (ℕ × ℕ)) := do
    let c ← s.conversation id
    let place ← s.groupIndexOf c
    let g ← s.groups[place]?
    let siblings := tree.children (.group g.id)
    let source ← siblings.findIdx? (· = id)
    let target ← moveTarget siblings source (fun other => siblings.find? (· = other)) move
    if target = id then pure (place, none)
    else
      let target ← s.conversation target
      let source ← g.members.findIdx? (· = .of c)
      let target ← g.members.findIdx? (· = .of target)
      pure (place, some (source, target))
  match target with
  | none => (s, none)
  | some (_, none) => (s, some false)
  | some (place, some (source, target)) =>
    ({ s with groups := s.groups.modify place fun g =>
        { g with members := moveItem g.members source target } }, some true)

/-- Moves a channel from one parent to another, before a channel there. -/
def relocate (s : AppState) (tree : DisplayTree) (id other : ConversationId) : AppState × Bool :=
  match tree.parentOf id, tree.parentOf other, s.conversation id, s.conversation other with
  | some source, some parent, some moved, some target =>
    if source = parent || moved.isPrivate ≠ target.isPrivate then (s, false)
    else
      match parent with
      | .group group => s.moveToGroup id group (some other)
      | .server network =>
        if moved.network ≠ network then (s, false)
        else
          let s := (s.returnToServer id).1
          match s.conversations.findIdx? (·.id = id), s.conversations.findIdx? (·.id = other) with
          | some source, some target =>
            let place := if source < target then target - 1 else target
            let s := { s with conversations := moveItem s.conversations source place }
            (s.storeChannelOrder moved.network (s.mergedChannelOrder moved.network), true)
          | _, _ => (s, true)
  | _, _, _, _ => (s, false)

/-- Moves a conversation among those shown with it under its server. -/
def moveShown (s : AppState) (tree : DisplayTree) (id : ConversationId) (network : NetworkId)
    (move : MoveTo) : AppState × Option NetworkId :=
  let places : Option (ℕ × ℕ) := do
    let range ← s.groupRange id
    let shown := (List.range' range.1 (range.2 - range.1)).filter fun i =>
      s.conversations[i]?.any fun c => tree.parentOf c.id = some (.server network)
    let fromShown ← shown.findIdx? fun i => s.conversations[i]?.any (·.id = id)
    let source ← shown[fromShown]?
    let target ← moveTarget shown fromShown
      (fun other => shown.find? fun i => s.conversations[i]?.any (·.id = other)) move
    if target = source then none else pure (source, target)
  match places with
  | none => (s, none)
  | some (source, target) =>
    let s := { s with conversations := moveItem s.conversations source target }
    (if (s.conversation id).any fun c => !c.isPrivate then
      s.storeChannelOrder network (s.mergedChannelOrder network) else s, some network)

def moveWithin (s : AppState) (tree : DisplayTree) (id : ConversationId) (network : NetworkId)
    (move : MoveTo) : AppState × Option NetworkId :=
  if s.isGrouped id then
    let r := s.moveInGroup tree id move
    (r.1, if r.2 = some true then some network else none)
  else s.moveShown tree id network move

/-- Moves a conversation within where it is shown, or beside one that is shown elsewhere. -/
def moveConversation (s : AppState) (id : ConversationId) (move : MoveTo) :
    AppState × Option NetworkId :=
  match s.conversation id with
  | none => (s, none)
  | some c =>
    let tree := s.displayTree
    match s.groups, move with
    | _ :: _, .place other =>
      match tree.parentOf id, tree.parentOf other with
      | some source, some target =>
        if source ≠ target then
          let r := s.relocate tree id other
          (r.1, if r.2 then some c.network else none)
        else s.moveWithin tree id c.network move
      | _, _ => (s, none)
    | _, _ => s.moveWithin tree id c.network move

/-- Moves a channel from another parent right behind one of this. -/
def moveAfter (s : AppState) (id other : ConversationId) : AppState × Option NetworkId :=
  let tree := s.displayTree
  match s.conversation id, tree.parentOf other, tree.parentOf id with
  | some moved, some parent, some source =>
    if source = parent then (s, none)
    else
      let siblings := tree.children parent
      match siblings.findIdx? (· = other) with
      | none => (s, none)
      | some place =>
        match siblings[place + 1]?, s.conversation other with
        | some next, _ => s.moveConversation id (.place next)
        | none, none => (s, none)
        | none, some target =>
          if moved.isPrivate ≠ target.isPrivate then (s, none)
          else
            match parent with
            | .group group =>
              let r := s.moveToGroup id group none
              (r.1, if r.2 then some moved.network else none)
            | .server server =>
              if moved.network ≠ server then (s, none)
              else
                let r := s.returnToServer id
                if !r.2 then (r.1, none)
                else ((r.1.moveConversation id .last).1, some moved.network)
  | _, _, _ => (s, none)

variable (lowercase : String → String)

/-- The group of a name; `lowercase` is the full Unicode mapping. -/
def groupNamed (s : AppState) (name : String) : Option GroupId :=
  (s.groups.find? fun g => lowercase g.name = lowercase name).map (·.id)

def addGroup (s : AppState) (name : String) (collapsed : Bool) (members : List GroupMember) :
    AppState :=
  { s with
    nextGroupId := s.nextGroupId + 1
    groups := s.groups ++ [{ id := s.nextGroupId + 1, name, collapsed, members }] }

def setGroups (s : AppState) (specs : List GroupSpec) : AppState :=
  specs.foldl (fun s spec =>
    if (s.groupNamed lowercase spec.name).isSome then s
    else s.addGroup spec.name spec.collapsed
      (spec.members.filter fun m => s.hasNetwork m.network)) { s with groups := [] }

def createGroup (s : AppState) (name : String) : AppState × Option GroupId :=
  match cleanGroupName name with
  | none => (s, none)
  | some name =>
    match s.groupNamed lowercase name with
    | some existing => (s, some existing)
    | none =>
      if maxGroups ≤ s.groups.length then (s, none)
      else (s.addGroup name false [], some (s.nextGroupId + 1))

def renameGroup (s : AppState) (id : GroupId) (name : String) : AppState × Bool :=
  match cleanGroupName name with
  | none => (s, false)
  | some name =>
    if (s.groupNamed lowercase name).any (· ≠ id) || (s.group id).isNone then (s, false)
    else
      ({ s with groups := s.groups.replaceF fun g =>
          if g.id = id then some { g with name } else none }, true)

def deleteGroup (s : AppState) (id : GroupId) : AppState × Bool :=
  ({ s with groups := s.groups.filter (·.id ≠ id) }, (s.groups.any (·.id = id)))

def setGroupCollapsed (s : AppState) (id : GroupId) (collapsed : Bool) : AppState × Bool :=
  if (s.group id).any (·.collapsed ≠ collapsed) then
    ({ s with groups := s.groups.replaceF fun g =>
        if g.id = id then some { g with collapsed } else none }, true)
  else (s, false)

end Groups

end AppState

end CayenChat.App
