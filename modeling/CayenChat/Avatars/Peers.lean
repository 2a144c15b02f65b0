import CayenChat.Avatars.Marks
import CayenChat.Avatars.Metadata

/-! # Avatars exchanged between clients

KVIrc's CTCP AVATAR: who is looked up or queried for an avatar and when, how
our own is answered, and who is told when it changes. Times are in
milliseconds. Which pictures share a mask is a parameter.
-/

namespace CayenChat.Avatars

def ctcpTag : String := "AVATAR"

def probeInterval : ℕ := 2000

def probeTimeout : ℕ := 30000

def tryAgainPause : ℕ := 30000

def maxQueuedProbes : ℕ := 32
def maxProbesInFlight : ℕ := 4

def maxProbedUsers : ℕ := maxAvatarUsers

def maxRepliesPerWindow : ℕ := 5

def replyWindow : ℕ := 10000

def replyIntervalPerUser : ℕ := 60000

def maxReplyRecipients : ℕ := 256

def maxNotifiedUsers : ℕ := maxReplyRecipients

def notifyInterval : ℕ := probeInterval

def maxPublishedAvatarBytes : ℕ := 400

def maxRememberedMasks : ℕ := 512

/-! ## Texts -/

def avatarCtcp (text : String) : Option String :=
  (stripFirst '\x01' text).bind fun body =>
    let body := (stripLast '\x01' body).getD body
    let (tag, rest) := (splitOnce ' ' body).getD (body, "")
    if eqIgnoreAsciiCase tag ctcpTag then some rest else none

def queryText : String := "\x01" ++ ctcpTag ++ "\x01"

def avatarText : Option String → String
  | some url => "\x01" ++ ctcpTag ++ " " ++ url ++ "\x01"
  | none => "\x01" ++ ctcpTag ++ "\x01"

def hasScheme (value scheme : String) : Bool :=
  decide (byteLen scheme < byteLen value) &&
    eqIgnoreAsciiCase (String.ofList (value.toList.take scheme.toList.length)) scheme

/-- The URL in the parameters of an answer or an announcement. -/
def replyUrl (params : String) (utf8 : Bool) : Option String :=
  let params := trimStartMatches [' '] params
  let token :=
    match stripFirst '\x22' params with
    | some quoted => ((splitOnce '\x22' quoted).map Prod.fst).getD quoted
    | none => (splitChar ' ' params).head?.getD ""
  if '\\' ∈ token.toList ∨ ¬(hasScheme token "http://" ∨ hasScheme token "https://") then none
  else avatarValue token utf8

def publishableAvatar (value : String) (utf8 : Bool) : Bool :=
  decide (byteLen value ≤ maxPublishedAvatarBytes) && !startsWithAny [':'] value &&
    (avatarValue value utf8).isSome

def shareable (url : String) (utf8 : Bool) : Bool :=
  publishableAvatar url utf8 &&
    (decide (byteLen url ≤ maxPublishedAvatarBytes) && replyUrl url utf8 == some url)

def advertises (real : String) : Bool := (advertisesAvatar real.toList).getD false

/-- A real name without the server's identifier that some servers put before it. -/
def skipServerId (real : String) : String :=
  match splitOnce ' ' real with
  | some (id, rest) =>
    match id.toList with
    | [a, b, c, d] =>
      if a.isDigit && [b, c, d].all fun x => x.isDigit || x.isUpper then rest else real
    | _ => real
  | none => real

/-- The real name in a reply to WHO, where it follows the number of hops. A word of the shape of a
server's identifier is skipped when the real name does not start with a mark as it is. -/
def repliedRealname (trailing : String) : String :=
  let real := ((splitOnce ' ' trailing).map Prod.snd).getD ""
  if advertises real then real else skipServerId real

def withoutNetwork (name : String) : String := ((splitOnce '@' name).map Prod.fst).getD name

def validSender (nick : String) : Bool := validNickname nick && !validChannel nick

def prefixIdentity (message : IrcMessage) : Option (String × String) :=
  match message.source with
  | some (.nickname _ user host) => if host ≠ "" then some (user, host) else none
  | _ => none

/-! ## Remembered pictures -/

/-- A remembered picture, and when it was last used. -/
structure Remembered where
  url : String
  used : ℕ
  deriving DecidableEq

/-- The pictures remembered for masks. -/
structure PeerAvatarCache where
  entries : Map String Remembered := ∅
  clock : ℕ := 0
  deriving DecidableEq

namespace PeerAvatarCache

def get (cache : PeerAvatarCache) (mask : String) : PeerAvatarCache × Option String :=
  let clock := cache.clock + 1
  match cache.entries.lookup mask with
  | none => ({ cache with clock }, none)
  | some remembered =>
    (⟨cache.entries.insert mask { remembered with used := clock }, clock⟩, some remembered.url)

/-- Remembers a picture for a mask, or forgets the one it has; a full cache gives up the one that was
not used for longest. -/
def set (cache : PeerAvatarCache) (mask : String) : Option String → PeerAvatarCache
  | none => { cache with entries := cache.entries.erase mask }
  | some url =>
    let clock := cache.clock + 1
    let entries :=
      if (cache.entries.lookup mask).isNone ∧ maxRememberedMasks ≤ cache.entries.entries.length then
        match cache.entries.entries.argmin fun e => e.2.used with
        | some oldest => cache.entries.erase oldest.1
        | none => cache.entries
      else cache.entries
    ⟨entries.insert mask ⟨url, clock⟩, clock⟩

end PeerAvatarCache

/-! ## The exchange -/

/-- A picture that is reported for a nickname. -/
structure PeerAvatarEvent where
  nickname : String
  url : Option String
  deriving DecidableEq, Repr

/-- The result of a line or of a tick. -/
structure PeerHandled where
  events : List PeerAvatarEvent := []
  notes : List String := []
  send : List IrcCommand := []
  deriving DecidableEq

/-- What is known about a user's avatars. -/
structure Sources where
  nickname : String
  metadata : Option String := none
  peer : Option String := none
  deriving DecidableEq

inductive ProbeKind
  /-- `WHO`, for the real name. -/
  | who
  /-- A query for the avatar. -/
  | query
  deriving DecidableEq

structure Probe where
  kind : ProbeKind
  nickname : String
  key : String
  /-- When it is given up, once it was sent. -/
  deadline : ℕ := 0
  /-- The user left or changed name while it was out. -/
  stale : Bool := false
  deriving DecidableEq

def Probe.command (probe : Probe) : IrcCommand :=
  match probe.kind with
  | .who => .other "WHO" [probe.nickname]
  | .query => .privmsg probe.nickname queryText

/-- How far a user has been asked about. -/
inductive ProbeStage
  | seen
  | queried
  deriving DecidableEq

/-- A user who queried us, and the URL they were last given. -/
structure Asker where
  nickname : String
  known : Option String := none
  deriving DecidableEq

structure PeerAvatars where
  utf8 : Bool
  share : Option String := none
  cache : PeerAvatarCache := {}
  casemapping : CaseMapping := default
  avatars : Map String Sources := ∅
  stages : Map String ProbeStage := ∅
  queue : List Probe := []
  inFlight : List Probe := []
  nextProbe : Option ℕ := none
  /-- Users not asked about because the queue was full, since it last was empty. -/
  skipped : ℕ := 0
  replies : List ℕ := []
  replied : Map String ℕ := ∅
  askers : Map String Asker := ∅
  nextNotify : Option ℕ := none
  deriving DecidableEq

/-- The order in which a call goes through a hash map. -/
structure KeyOrder where
  keys : List String → List String
  perm : ∀ l, (keys l).Perm l

namespace PeerAvatars

def withCache (utf8 : Bool) (share : Option String) (cache : PeerAvatarCache) : PeerAvatars :=
  { utf8, share := share.filter (shareable · utf8), cache }

def setShare (s : PeerAvatars) (url : Option String) : PeerAvatars :=
  { s with share := url.filter (shareable · s.utf8) }

section Askers

/-- A user who queried us is told of later changes. -/
def rememberAsker (s : PeerAvatars) (sender : String) (presence : PresenceIndex) : PeerAvatars :=
  if !validSender sender || !presence.shares sender none then s
  else
    let key := nicknameKey sender
    if (s.askers.lookup key).isNone && decide (maxNotifiedUsers ≤ s.askers.entries.length) then s
    else if (s.askers.lookup key).isSome then s
    else { s with askers := s.askers.insert key { nickname := sender } }

def markTold (s : PeerAvatars) (sender : String) : PeerAvatars :=
  { s with askers := Map.adjust s.askers (nicknameKey sender) fun asker =>
      { asker with known := s.share } }

def pending (s : PeerAvatars) (key : String) : Bool :=
  (s.askers.lookup key).any fun asker => asker.known ≠ s.share

/-- Looks for an asker to tell, and drops those that are not to be told; there are as many rounds as
there are askers. -/
def notifyNext (order : KeyOrder) (now : ℕ) (currentNick : String) (presence : PresenceIndex) :
    ℕ → PeerAvatars → PeerAvatars × Option IrcCommand
  | 0, s => (s, none)
  | rounds + 1, s =>
    match (order.keys s.askers.keys).find? s.pending with
    | none => (s, none)
    | some key =>
      match s.askers.lookup key with
      | none => (s, none)
      | some asker =>
        if sameNickname asker.nickname currentNick || !validSender asker.nickname ||
            !presence.shares asker.nickname none then
          notifyNext order now currentNick presence rounds
            { s with askers := s.askers.erase key }
        else
          ({ s with
              askers := s.askers.insert key { asker with known := s.share }
              nextNotify := some (now + notifyInterval) },
            some (.notice asker.nickname (avatarText s.share)))

/-- Tells the next asker whose picture differs from what we share, when it is due. -/
def notify (s : PeerAvatars) (order : KeyOrder) (now : ℕ) (currentNick : String)
    (presence : PresenceIndex) : PeerAvatars × Option IrcCommand :=
  if s.nextNotify.any (now < ·) then (s, none)
  else notifyNext order now currentNick presence (s.askers.entries.length + 1) s

/-- Whether a query may be answered now, which is counted. -/
def mayReply (s : PeerAvatars) (sender : String) (now : ℕ) : PeerAvatars × Bool :=
  let replies := s.replies.dropWhile fun sent => !decide (now - sent < replyWindow)
  let replied := Map.keepValues (fun sent => decide (now - sent < replyIntervalPerUser)) s.replied
  let key := nicknameKey sender
  if maxRepliesPerWindow ≤ replies.length ∨ (replied.lookup key).isSome ∨
      maxReplyRecipients ≤ replied.entries.length then
    ({ s with replies, replied }, false)
  else ({ s with replies := replies ++ [now], replied := replied.insert key now }, true)

end Askers

section Probes

/-- Queues a lookup or a query. -/
def enqueue (s : PeerAvatars) (kind : ProbeKind) (nick key : String) :
    PeerAvatars × Option String :=
  if (s.stages.lookup key).isNone && decide (maxProbedUsers ≤ s.stages.entries.length) then (s, none)
  else if maxQueuedProbes ≤ s.queue.length then
    ({ s with skipped := s.skipped + 1 },
      if s.skipped + 1 = 1 then
        some ("Too many avatar lookups queued; not asking about " ++ nick ++ " for now.")
      else none)
  else
    ({ s with
        stages := s.stages.insert key (match kind with | .who => .seen | .query => .queried)
        -- a lookup still waiting is replaced by the query it would lead to
        queue := (s.queue.filter fun probe => probe.key ≠ key) ++
          [{ kind, nickname := nick, key }] }, none)

def fromMetadata (s : PeerAvatars) (key : String) : Bool :=
  (s.avatars.lookup key).any fun sources => sources.metadata.isSome

/-- A user who queried us is queried too. -/
def askBack (s : PeerAvatars) (sender : String) (presence : PresenceIndex) :
    PeerAvatars × Option String :=
  if !validSender sender || !presence.shares sender none then (s, none)
  else
    let key := nicknameKey sender
    if s.fromMetadata key || s.stages.lookup key = some .queried then (s, none)
    else s.enqueue .query sender key

/-- Applies the change of one source. -/
def track (s : PeerAvatars) (nickname : String) (change : Sources → Sources) : PeerAvatars :=
  let key := nicknameKey nickname
  if (s.avatars.lookup key).isNone && decide (maxAvatarUsers ≤ s.avatars.entries.length) then s
  else
    let sources := { change ((s.avatars.lookup key).getD { nickname }) with nickname }
    { s with
      avatars := if sources.metadata.isNone && sources.peer.isNone then s.avatars.erase key
        else s.avatars.insert key sources }

def setPeer (s : PeerAvatars) (nickname : String) (url : Option String) :
    PeerAvatars × PeerAvatarEvent :=
  (if url.isSome || (s.avatars.lookup (nicknameKey nickname)).isSome then
      s.track nickname fun sources => { sources with peer := url }
    else s, ⟨nickname, url⟩)

end Probes

section Lines

-- The mask of a nickname, a username and a host, under which pictures are remembered.
variable (mask : CaseMapping → String → String → String → String)

def markSeen (s : PeerAvatars) (key : String) : PeerAvatars :=
  if (s.stages.lookup key).isNone && decide (s.stages.entries.length < maxProbedUsers) then
    { s with stages := s.stages.insert key .seen }
  else s

def markQueried (s : PeerAvatars) (key : String) : PeerAvatars :=
  if (s.stages.lookup key).isSome || decide (s.stages.entries.length < maxProbedUsers) then
    { s with stages := s.stages.insert key .queried }
  else s

/-- Remembers a picture for the mask of a user whose username and host are known. -/
def cachePicture (s : PeerAvatars) (nick : String) (identity : Option (String × String))
    (url : Option String) : PeerAvatars :=
  match identity with
  | some (user, host) => { s with cache := s.cache.set (mask s.casemapping nick user host) url }
  | none => s

/-- A real name from WHO or WHOIS: a marked user is queried once, one without the mark has no
picture. -/
def realnameSeen (s : PeerAvatars) (nick real : String) (identity : Option (String × String))
    (currentNick : String) (presence : PresenceIndex) : PeerAvatars × Option PeerAvatarEvent :=
  if sameNickname nick currentNick || !validSender nick || !presence.shares nick none then (s, none)
  else
    let key := nicknameKey nick
    if !advertises real then
      let s := s.markSeen key
      if identity.isNone then (s, none)
      else (((s.cachePicture mask nick identity none).setPeer nick none).1, some ⟨nick, none⟩)
    else if s.stages.lookup key ≠ some .queried ∧ s.fromMetadata key = false then
      ((s.enqueue .query nick key).1, none)
    else (s, none)

def ours (s : PeerAvatars) (kind : ProbeKind) (nick : String) : Option Probe :=
  s.inFlight.find? fun probe => probe.kind = kind && probe.key = nicknameKey nick

/-- Replies to our lookups, and those that are only read. -/
def numericReply (s : PeerAvatars) (message : IrcMessage) (currentNick : String)
    (presence : PresenceIndex) (now : ℕ) : PeerAvatars × Option PeerHandled :=
  match Accounts.numeric message with
  | none => (s, none)
  | some (code, args) =>
    match code, args with
    | 352, _ :: _ :: user :: host :: _ :: nick :: _ :: trailing :: rest =>
      let found := s.ours .who nick
      let r :=
        if found.any Probe.stale then (s, none)
        else
          let real := repliedRealname ((trailing :: rest).getLast?.getD "")
          s.realnameSeen mask nick real (found.map fun _ => (user, host)) currentNick presence
      (r.1, found.map fun _ => { events := r.2.toList })
    | 315, _ :: name :: _ =>
      match s.ours .who (withoutNetwork name) with
      | none => (s, none)
      | some probe => ({ s with inFlight := s.inFlight.erase probe }, some {})
    | 311, _ :: nick :: a :: b :: c :: d :: rest =>
      let real := (a :: b :: c :: d :: rest).getLast?.getD ""
      ((s.realnameSeen mask nick real none currentNick presence).1, none)
    | 401, _ :: name :: _ =>
      let key := nicknameKey (withoutNetwork name)
      let inFlight := s.inFlight.filter fun probe => probe.key ≠ key
      ({ s with inFlight }, if inFlight.length ≠ s.inFlight.length then some {} else none)
    | 263, _ :: command :: _ =>
      if eqIgnoreAsciiCase command "WHO" && s.inFlight.any fun probe => probe.kind = .who then
        ({ s with
            inFlight := s.inFlight.filter fun probe => probe.kind ≠ .who
            nextProbe := some (now + tryAgainPause) },
          some { notes := ["Server asked to retry WHO later; avatar lookups paused."] })
      else (s, none)
    | _, _ => (s, none)

/-- A live private query of another user. -/
def observeQuery (s : PeerAvatars) (sender : String) (presence : PresenceIndex) (now : ℕ) :
    PeerAvatars × PeerHandled :=
  let s := s.rememberAsker sender presence
  let (s, note) := s.askBack sender presence
  match s.share with
  | none => (s, { notes := note.toList })
  | some url =>
    let (s, may) := s.mayReply sender now
    if may then
      (s.markTold sender,
        { notes := note.toList, send := [.notice sender (avatarText (some url))] })
    else (s, { notes := note.toList })

/-- An answer or an announcement of another user who is present. -/
def observeAnswer (s : PeerAvatars) (message : IrcMessage) (sender params : String) :
    PeerAvatars × PeerHandled :=
  let key := nicknameKey sender
  let s := { s with
    inFlight := s.inFlight.filter fun probe => probe.kind ≠ ProbeKind.query || probe.key ≠ key }
  let s := s.markQueried key
  let url := replyUrl params s.utf8
  let s := s.cachePicture mask sender (prefixIdentity message) url
  let (s, event) := s.setPeer sender url
  (s, { events := [event] })

/-- Handles CTCP AVATAR messages and replies to our lookups; `none` when the message is processed as
usual. -/
def observe (s : PeerAvatars) (message : IrcMessage) (currentNick : String)
    (presence : PresenceIndex) (replayed : Bool) (now : ℕ) : PeerAvatars × Option PeerHandled :=
  match message.command with
  | .privmsg target text =>
    match avatarCtcp text with
    | none => (s, none)
    | some _ =>
      match message.sourceNickname with
      | none => (s, some {})
      | some sender =>
        if !replayed && !sameNickname sender currentNick && sameNickname target currentNick then
          let (s, handled) := s.observeQuery sender presence now
          (s, some handled)
        else (s, some {})
  | .notice target text =>
    match avatarCtcp text with
    | none => (s, none)
    | some params =>
      match message.sourceNickname.filter fun sender =>
          !replayed && validSender sender && !sameNickname sender currentNick with
      | none => (s, some {})
      | some sender =>
        let present :=
          if sameNickname target currentNick then presence.shares sender none
          else validChannel target && presence.inChannel target sender
        if present then
          let (s, handled) := s.observeAnswer mask message sender params
          (s, some handled)
        else (s, some {})
  | _ => s.numericReply mask message currentNick presence now

/-- A user who is seen with a mask that has a remembered picture gets it, and is queried. -/
def remembered (s : PeerAvatars) (nick user host currentNick : String)
    (presence : Option PresenceIndex) : PeerAvatars × Option PeerAvatarEvent :=
  if sameNickname nick currentNick || !validSender nick ||
      presence.any (fun presence => !presence.shares nick none) then (s, none)
  else
    let key := nicknameKey nick
    if (s.stages.lookup key).isSome || (s.avatars.lookup key).isSome then (s, none)
    else
      let (cache, url) := s.cache.get (mask s.casemapping nick user host)
      let s := { s with cache }
      match url with
      | none => (s, none)
      | some url =>
        let s := (s.enqueue .query nick key).1
        let (s, event) := s.setPeer nick (some url)
        (s, some event)

def rememberedWho (s : PeerAvatars) (message : IrcMessage) (currentNick : String)
    (presence : PresenceIndex) : PeerAvatars × Option PeerAvatarEvent :=
  match Accounts.numeric message with
  | some (352, _ :: _ :: user :: host :: _ :: nick :: _ :: _ :: _) =>
    s.remembered mask nick user host currentNick (some presence)
  | _ => (s, none)

/-- Someone who joined, whatever the membership says. -/
def joined (s : PeerAvatars) (message : IrcMessage) (currentNick : String) :
    PeerAvatars × Option PeerAvatarEvent :=
  match message.command with
  | .join .. =>
    match prefixIdentity message, message.sourceNickname with
    | some (user, host), some nick => s.remembered mask nick user host currentNick none
    | _, _ => (s, none)
  | _ => (s, none)

/-- Someone spoke where we see them, and is looked up once. -/
def speaker (s : PeerAvatars) (nick currentNick : String) (presence : PresenceIndex) :
    PeerAvatars × Option String :=
  if sameNickname nick currentNick || !validSender nick then (s, none)
  else
    let key := nicknameKey nick
    if (s.stages.lookup key).isSome || (s.avatars.lookup key).isSome then (s, none)
    else if !presence.shares nick none then (s, none)
    else s.enqueue .who nick key

/-- The user asked for an avatar. -/
def request (s : PeerAvatars) (nick currentNick : String) (presence : PresenceIndex) :
    PeerAvatars × Option String :=
  if sameNickname nick currentNick || !validSender nick then (s, none)
  else if !presence.shares nick none then
    (s, some ("Not asking " ++ nick ++ " for an avatar: no channel is shared with them."))
  else
    let key := nicknameKey nick
    let s := { s with
      inFlight := s.inFlight.filter fun probe => probe.kind ≠ ProbeKind.query || probe.key ≠ key }
    s.enqueue .query nick key

end Lines

section Time

/-- The next time a tick has something to do. -/
def nextDeadline (s : PeerAvatars) (now : ℕ) : Option ℕ :=
  let send := if s.queue ≠ [] ∧ s.inFlight.length < maxProbesInFlight then
    [s.nextProbe.getD now] else []
  let expiry := (s.inFlight.map (·.deadline)).min?
  let notice := if (Map.values s.askers).any fun asker => asker.known ≠ s.share then
    [s.nextNotify.getD now] else []
  (send ++ expiry.toList ++ notice).min?

/-- The first probe of a user who is there, and the queue behind it. -/
def nextSent (currentNick : String) (presence : PresenceIndex) :
    List Probe → List Probe × Option Probe
  | [] => ([], none)
  | probe :: queue =>
    if sameNickname probe.nickname currentNick || !presence.shares probe.nickname none then
      nextSent currentNick presence queue
    else (queue, some probe)

/-- Sends the next probe. -/
def sendProbe (s : PeerAvatars) (now : ℕ) (currentNick : String) (presence : PresenceIndex) :
    PeerAvatars × List IrcCommand :=
  let r := nextSent currentNick presence s.queue
  let s := { s with
    queue := r.1
    skipped := if r.1 = [] then 0 else s.skipped }
  match r.2 with
  | none => (s, [])
  | some probe =>
    ({ s with
        inFlight := s.inFlight ++ [{ probe with deadline := now + probeTimeout }]
        nextProbe := some (now + probeInterval) }, [probe.command])

/-- Tells an asker, gives up unanswered probes and sends the next one, when they are due. -/
def tick (s : PeerAvatars) (order : KeyOrder) (now : ℕ) (currentNick : String)
    (presence : PresenceIndex) : PeerAvatars × PeerHandled :=
  let (s, told) := s.notify order now currentNick presence
  let s := { s with inFlight := s.inFlight.filter fun probe => now < probe.deadline }
  if s.nextProbe.any (now < ·) ∨ maxProbesInFlight ≤ s.inFlight.length then
    (s, { send := told.toList })
  else
    let (s, sent) := s.sendProbe now currentNick presence
    (s, { send := told.toList ++ sent })

end Time

section Presence

/-- A user left. -/
def forget (s : PeerAvatars) (nick : String) : PeerAvatars :=
  let key := nicknameKey nick
  { s with
    stages := s.stages.erase key
    askers := s.askers.erase key
    queue := s.queue.filter fun probe => probe.key ≠ key
    inFlight := (s.inFlight.filter fun probe => probe.kind = .who || probe.key ≠ key).map
      fun probe => if probe.key = key then { probe with stale := true } else probe
    avatars := s.avatars.erase key }

variable (mask : CaseMapping → String → String → String → String)

def respell (s : PeerAvatars) (key new : String) : PeerAvatars :=
  { s with
    avatars := Map.adjust s.avatars key fun sources => { sources with nickname := new }
    askers := Map.adjust s.askers key fun asker => { asker with nickname := new } }

/-- What was asked about a user goes along to a nickname of another key. -/
def carry (s : PeerAvatars) (fromKey toKey new : String) : PeerAvatars :=
  let stages := match s.stages.lookup fromKey with
    | some stage => (s.stages.erase fromKey).insert toKey stage
    | none => s.stages
  let askers := match s.askers.lookup fromKey with
    | some asker =>
      if validSender new then
        (s.askers.erase fromKey).insert toKey { asker with nickname := new }
      else s.askers.erase fromKey
    | none => s.askers
  let queue := s.queue.map fun probe =>
    if probe.key = fromKey then { probe with nickname := new, key := toKey } else probe
  -- a reply to a lookup that is out describes the holder of the old name
  let inFlight := s.inFlight.filter fun probe => probe.kind = .who || probe.key ≠ fromKey
  let looked := inFlight.any fun probe => probe.key = fromKey
  { s with
    stages := if looked && stages.lookup toKey = some .seen then stages.erase toKey else stages
    askers
    queue
    inFlight := inFlight.map fun probe =>
      if probe.key = fromKey then { probe with stale := true } else probe }

/-- The picture goes along with the user, to the new mask too. -/
def carryPicture (s : PeerAvatars) (fromKey toKey new : String)
    (identity : Option (String × String)) : PeerAvatars × List PeerAvatarEvent :=
  match s.avatars.lookup fromKey with
  | none => (s, [])
  | some sources =>
    let sources := { sources with nickname := new }
    let s := { s with avatars := (s.avatars.erase fromKey).insert toKey sources }
    match sources.peer with
    | none => (s, [])
    | some url =>
      (s.cachePicture mask new identity (some url), [⟨new, some url⟩])

def rename (s : PeerAvatars) (old new : String) (identity : Option (String × String)) :
    PeerAvatars × List PeerAvatarEvent :=
  let fromKey := nicknameKey old
  let toKey := nicknameKey new
  if fromKey = toKey then (s.respell fromKey new, [])
  else ((s.forget new).carry fromKey toKey new).carryPicture mask fromKey toKey new identity

/-- Follows who is present, judged from the membership before the line. -/
def lifecycle (s : PeerAvatars) (message : IrcMessage) (presence : PresenceIndex)
    (currentNick : String) : PeerAvatars × List PeerAvatarEvent :=
  match message.sourceNickname with
  | none => (s, [])
  | some actor =>
    match message.command with
    | .nick new => s.rename mask actor new (prefixIdentity message)
    | _ => ((presence.departed message actor (sameNickname · currentNick)).foldl forget s, [])

/-- Notes an avatar of the metadata. -/
def observeMetadataEvent (s : PeerAvatars) : Event → PeerAvatars
  | .userAvatar nickname url => s.track nickname fun sources => { sources with metadata := url }
  | .avatarsReset =>
    { s with
      avatars := Map.keepValues (fun sources => sources.peer.isSome)
        (Map.mapValues (fun sources => { sources with metadata := none }) s.avatars) }
  | _ => s

def observeMetadata (s : PeerAvatars) (events : List Event) : PeerAvatars :=
  events.foldl observeMetadataEvent s

end Presence

end PeerAvatars

/-- A call of the exchange, or time that passes. -/
inductive PeerCall
  | elapse (ms : ℕ)
  | setCasemapping (casemapping : CaseMapping)
  | setShare (url : Option String)
  | observe (message : IrcMessage) (currentNick : String) (presence : PresenceIndex)
    (replayed : Bool)
  | rememberedWho (message : IrcMessage) (currentNick : String) (presence : PresenceIndex)
  | remembered (nick user host currentNick : String) (presence : Option PresenceIndex)
  | joined (message : IrcMessage) (currentNick : String)
  | speaker (nick currentNick : String) (presence : PresenceIndex)
  | request (nick currentNick : String) (presence : PresenceIndex)
  | lifecycle (message : IrcMessage) (presence : PresenceIndex) (currentNick : String)
  | observeMetadata (events : List Event)
  | tick (currentNick : String) (presence : PresenceIndex) (order : KeyOrder)

def PeerCall.after (now : ℕ) : PeerCall → ℕ
  | .elapse ms => now + ms
  | _ => now

/-- One call at a time, with what it reports and sends. -/
def PeerAvatars.call (mask : CaseMapping → String → String → String → String) (s : PeerAvatars)
    (now : ℕ) : PeerCall → PeerAvatars × PeerHandled
  | .elapse _ => (s, {})
  | .setCasemapping casemapping => ({ s with casemapping }, {})
  | .setShare url => (s.setShare url, {})
  | .observe message currentNick presence replayed =>
    let r := s.observe mask message currentNick presence replayed now
    (r.1, r.2.getD {})
  | .rememberedWho message currentNick presence =>
    let r := s.rememberedWho mask message currentNick presence
    (r.1, { events := r.2.toList })
  | .remembered nick user host currentNick presence =>
    let r := s.remembered mask nick user host currentNick presence
    (r.1, { events := r.2.toList })
  | .joined message currentNick =>
    let r := s.joined mask message currentNick
    (r.1, { events := r.2.toList })
  | .speaker nick currentNick presence =>
    let r := s.speaker nick currentNick presence
    (r.1, { notes := r.2.toList })
  | .request nick currentNick presence =>
    let r := s.request nick currentNick presence
    (r.1, { notes := r.2.toList })
  | .lifecycle message presence currentNick =>
    let r := s.lifecycle mask message presence currentNick
    (r.1, { events := r.2 })
  | .observeMetadata events => (s.observeMetadata events, {})
  | .tick currentNick presence order => s.tick order now currentNick presence

end CayenChat.Avatars
