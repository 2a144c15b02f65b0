import CayenChat.Accounts.Table

/-! # Avatars in metadata

The `avatar` key of users: what the server reports of others and of us, the
lookups of users who join, deferred synchronizations, and our own requests.
Times are in milliseconds. A `METADATA` message is a `raw` command with the
parameters in the order they were received.
-/

namespace CayenChat.Avatars

def avatarKey : String := "avatar"

def maxAvatarBytes : ℕ := 2048

def maxAvatarUsers : ℕ := 2048

def maxPendingSyncs : ℕ := 16

def maxSyncAttempts : ℕ := 3

def defaultSyncDelay : ℕ := 5000
def minSyncDelay : ℕ := 1000
def maxSyncDelay : ℕ := 300000

def ownRequestTimeout : ℕ := 20000

def lookupDelay : ℕ := 2000

def lookupInterval : ℕ := 500

def maxLookups : ℕ := 64

def maxLookupsInFlight : ℕ := 8

def lookupTimeout : ℕ := 30000

def maxLookupAttempts : ℕ := 2

/-- Why a request about our own avatar did not succeed. -/
inductive RequestFailure
  | unavailable
  | busy
  | rejected (code description : String)
  | rateLimited (retryAfter : Option ℕ)
  | noReply
  | capabilityLost
  deriving DecidableEq, Repr

/-- What the application is told. -/
inductive Event
  | userAvatar (nickname : String) (url : Option String)
  | avatarMoved (old new : String)
  | avatarsReset
  | ownAvatar (url : Option String) (request : Option ℕ)
  | ownAvatarFailed (request : ℕ) (failure : RequestFailure)
  deriving DecidableEq, Repr

structure PendingSync where
  channel : String
  due : ℕ
  deriving DecidableEq

/-- Our outstanding request: a `SET` of the user, or the query for our value (`none`). -/
structure OwnRequest where
  request : Option ℕ
  removing : Bool
  deadline : ℕ
  deriving DecidableEq

inductive LookupState
  /-- To be sent when it is due. -/
  | waiting
  /-- Sent; given up when it is due. -/
  | sent
  /-- Given up, or the user left; an answer before it is due is dropped. -/
  | abandoned
  deriving DecidableEq

structure Lookup where
  nickname : String
  key : String
  state : LookupState
  due : ℕ
  attempts : ℕ
  deriving DecidableEq

/-- The result of a line or of a tick. -/
structure Handled where
  events : List Event := []
  notes : List String := []
  send : List IrcCommand := []
  deriving DecidableEq

structure MetadataState where
  utf8 : Bool
  subscribed : Bool := false
  /-- The folded nicknames that have an avatar now. -/
  known : Finset String := ∅
  syncs : List PendingSync := []
  /-- One entry for each synchronization that was asked for. -/
  attempted : List String := []
  own : Option OwnRequest := none
  lookups : List Lookup := []
  /-- No lookup is sent before this. -/
  nextLookup : Option ℕ := none
  /-- Joiners that were not looked up since the table was empty. -/
  lookupsSkipped : ℕ := 0
  casemapping : CaseMapping := default
  deriving DecidableEq

def avatarValue (value : String) (utf8 : Bool) : Option String :=
  if value ≠ "" ∧ byteLen value ≤ maxAvatarBytes ∧ Char.ofNat 0xFFFD ∉ value.toList ∧
      (value.toList.any fun ch => isControl ch || isWhitespace ch) = false ∧
      (utf8 = true ∨ isAscii value = true) then some value
  else none

def metadataCommand (args : List String) : IrcCommand := .raw "METADATA" args

def adjustFirst {α : Type*} (p : α → Bool) (f : α → α) : List α → List α
  | [] => []
  | a :: as => if p a then f a :: as else a :: adjustFirst p f as

def syncDelay (seconds : Option ℕ) : ℕ :=
  max minSyncDelay (min ((seconds.map (1000 * ·)).getD defaultSyncDelay) maxSyncDelay)

namespace MetadataState

/-- What to send once registered: the subscription and one query for our own avatar. -/
def start (s : MetadataState) (now : ℕ) : MetadataState × List IrcCommand :=
  if s.subscribed then (s, [])
  else
    ({ s with
        subscribed := true
        own := some ⟨none, false, now + ownRequestTimeout⟩ },
      [metadataCommand ["*", "SUB", avatarKey], metadataCommand ["*", "GET", avatarKey]])

def reset (s : MetadataState) : MetadataState × List Event :=
  ({ utf8 := s.utf8 },
    ((s.own.bind OwnRequest.request).map fun request =>
      Event.ownAvatarFailed request .capabilityLost).toList)

/-- Publishes or removes our own avatar. -/
def requestOwn (s : MetadataState) (request : ℕ) (value : Option String) (available : Bool)
    (now : ℕ) : MetadataState × Except RequestFailure IrcCommand :=
  if !available || !s.subscribed then (s, .error .unavailable)
  else if s.own.isSome then (s, .error .busy)
  else
    ({ s with own := some ⟨some request, value.isNone, now + ownRequestTimeout⟩ },
      .ok (metadataCommand (["*", "SET", avatarKey] ++ value.toList)))

def inFlight (s : MetadataState) : ℕ := s.lookups.countP (·.state = .sent)

def lookupDue (s : MetadataState) (lookup : Lookup) : Option ℕ :=
  match lookup.state with
  | .waiting =>
    if maxLookupsInFlight ≤ s.inFlight then none
    else some (s.nextLookup.elim lookup.due (max · lookup.due))
  | .sent | .abandoned => some lookup.due

def nextDeadline (s : MetadataState) : Option ℕ :=
  (s.syncs.map PendingSync.due ++ (s.own.map OwnRequest.deadline).toList ++
    s.lookups.filterMap s.lookupDue).min?

/-- A lookup after its time ran out, unless it is dropped. -/
def expireLookup (now : ℕ) (lookup : Lookup) : Option Lookup :=
  match lookup.state with
  | .sent =>
    some (if lookup.due ≤ now then
      { lookup with state := .abandoned, due := now + lookupTimeout } else lookup)
  | .abandoned => if now < lookup.due then some lookup else none
  | .waiting => some lookup

/-- Sends the lookup that is due first, when one may be sent. -/
def sendLookup (s : MetadataState) (now : ℕ) : MetadataState × List IrcCommand :=
  if s.nextLookup.all (· ≤ now) ∧ s.inFlight < maxLookupsInFlight then
    match (s.lookups.filter fun l => l.state = .waiting ∧ l.due ≤ now).argmin Lookup.due with
    | some lookup =>
      let sent (l : Lookup) : Lookup :=
        { l with state := .sent, due := now + lookupTimeout, attempts := l.attempts + 1 }
      ({ s with
          lookups := adjustFirst (· = lookup) sent s.lookups
          nextLookup := some (now + lookupInterval) },
        [metadataCommand [lookup.nickname, "GET", avatarKey]])
    | none => (s, [])
  else (s, [])

/-- Timers: deferred synchronizations, requests without an answer, and lookups. -/
def tick (s : MetadataState) (now : ℕ) (joined : String → Bool) : MetadataState × Handled :=
  let syncs := (s.syncs.filter fun sync => sync.due ≤ now ∧ joined sync.channel).map fun sync =>
    metadataCommand [sync.channel, "SYNC"]
  let overdue := s.own.filter (·.deadline ≤ now)
  let s := { s with
    syncs := s.syncs.filter (now < ·.due)
    own := s.own.filter (now < ·.deadline)
    lookups := s.lookups.filterMap (expireLookup now) }
  let (s, lookups) := s.sendLookup now
  let s := if s.lookups = [] then { s with lookupsSkipped := 0 } else s
  (s,
    { send := syncs ++ lookups
      events := ((overdue.bind OwnRequest.request).map fun request =>
        Event.ownAvatarFailed request .noReply).toList
      notes := if overdue.any (·.request.isNone) then
        ["Server did not answer the query for our own avatar."] else [] })

def forgetChannel (s : MetadataState) (channel : String) : MetadataState :=
  { s with syncs := s.syncs.filter fun sync => !s.casemapping.same sync.channel channel }

/-- A value, or none, for a user. -/
def avatar (s : MetadataState) (target : String) (value : Option String) :
    MetadataState × List Event :=
  if target = "*" || validChannel target || !validNickname target then (s, [])
  else
    let key := nicknameKey target
    match value.bind (avatarValue · s.utf8) with
    | some url =>
      if key ∉ s.known ∧ maxAvatarUsers ≤ s.known.card then (s, [])
      else ({ s with known := insert key s.known }, [.userAvatar target (some url)])
    | none =>
      if key ∈ s.known then ({ s with known := s.known.erase key }, [.userAvatar target none])
      else (s, [])

/-- What an answer or an announcement does to the lookup of its user; `none` when it is to be
dropped. -/
def answered (s : MetadataState) (key : String) (reply : Bool) :
    MetadataState × Bool :=
  match s.lookups.find? (·.key = key) with
  | some lookup =>
    let removed := { s with lookups := s.lookups.eraseP (·.key = key) }
    match lookup.state, reply with
    | .waiting, _ | .sent, true => (removed, true)
    | .abandoned, true => (removed, false)
    | _, false => (s, true)
  | none => (s, true)

/-- A value, or none, for a target; a reply answers what we asked. -/
def report (s : MetadataState) (target : String) (value : Option String) (reply : Bool)
    (currentNick : String) : MetadataState × List Event :=
  if sameNickname target currentNick || (reply && target = "*") then
    let request := if reply then s.own.bind OwnRequest.request else none
    let own := if reply then none else s.own
    let url := value.bind (avatarValue · s.utf8)
    let (s, events) := { s with own }.avatar currentNick value
    (s, .ownAvatar url request :: events)
  else
    let (s, kept) := if !validChannel target && validNickname target then
      s.answered (nicknameKey target) reply else (s, true)
    if kept then s.avatar target value else (s, [])

def targetFirst (code : String) : Bool :=
  ["KEY_NO_PERMISSION", "KEY_NOT_SET", "LIMIT_REACHED", "RATE_LIMITED", "INVALID_TARGET",
    "FORBIDDEN"].contains code

def keyFirst (code : String) : Bool :=
  ["KEY_INVALID", "INVALID_KEY", "VALUE_INVALID", "INVALID_VALUE"].contains code

def namesUs (code : String) (params : List String) (currentNick : String) : Bool :=
  let otherKey := ["KEY_NO_PERMISSION", "KEY_NOT_SET", "RATE_LIMITED"].contains code &&
    params[1]?.any fun key => key ≠ avatarKey && key ≠ "*"
  if targetFirst code then
    !otherKey && params.head?.all fun target => target = "*" || sameNickname target currentNick
  else keyFirst code && params.head?.all (· = avatarKey)

def retryAfter (params : List String) : Option ℕ :=
  (params[2]?.bind (parseUnsigned (2 ^ 64 - 1))).filter (0 < ·)

/-- A failure that ends our own request. -/
def ownFailure (s : MetadataState) (own : OwnRequest) (code : String) (params : List String)
    (description currentNick : String) : MetadataState × List Event :=
  let s := { s with own := none }
  match own.request with
  | none => (s, [])
  | some request =>
    -- Removing a key that was not set.
    if code = "KEY_NOT_SET" ∧ own.removing then
      let (s, events) := s.avatar currentNick none
      (s, .ownAvatar none (some request) :: events)
    else
      (s, [.ownAvatarFailed request (if code = "RATE_LIMITED" then
        .rateLimited (retryAfter params) else .rejected code description)])

/-- A failure that ends a lookup, or puts it off. -/
def lookupFailure (s : MetadataState) (code target : String) (params : List String) (now : ℕ) :
    MetadataState :=
  let named (l : Lookup) : Bool := l.key = nicknameKey target ∧ l.state ≠ .waiting
  match s.lookups.find? named with
  | some lookup =>
    if code = "RATE_LIMITED" ∧ lookup.attempts < maxLookupAttempts then
      let due := now + syncDelay (retryAfter params)
      { s with
        lookups := adjustFirst named (fun l => { l with state := .waiting, due }) s.lookups
        nextLookup := some (s.nextLookup.elim due (max due)) }
    else { s with lookups := s.lookups.eraseP named }
  | none => s

/-- `FAIL METADATA`, from its code on. -/
def failure (s : MetadataState) (args : List String) (now : ℕ) (currentNick : String) :
    MetadataState × List Event :=
  match args with
  | [] => (s, [])
  | code :: rest =>
    let params := rest.dropLast
    match s.own.filter fun _ => namesUs code params currentNick with
    | some own => s.ownFailure own code params (rest.getLast?.getD "") currentNick
    | none =>
      (if targetFirst code then params.head?.elim s fun target =>
        s.lookupFailure code target params now else s, [])

/-- A synchronization that the server put off. -/
def defer (s : MetadataState) (args : List String) (now : ℕ) (joined : String → Bool) :
    MetadataState × Option String :=
  match args[1]? with
  | none => (s, none)
  | some channel =>
    if !validChannel channel || !joined channel then (s, none)
    else
      let delay := syncDelay (args[2]?.bind (parseUnsigned (2 ^ 64 - 1)))
      let due := now + delay
      let same (sync : PendingSync) : Bool := s.casemapping.same sync.channel channel
      let later (sync : PendingSync) : PendingSync := { sync with due := max sync.due due }
      if s.syncs.any same then ({ s with syncs := adjustFirst same later s.syncs }, none)
      else if maxSyncAttempts ≤ s.attempted.countP (s.casemapping.same · channel) then
        (s, some ("Server deferred avatars for " ++ channel ++
          " again; not asking any more on this connection."))
      else if maxPendingSyncs ≤ s.syncs.length then
        (s, some ("Too many deferred avatar synchronizations; skipping " ++ channel ++ "."))
      else if maxPendingSyncs * maxSyncAttempts ≤ s.attempted.length then
        (s, some ("Too many deferred avatar synchronizations on this connection; skipping " ++
          channel ++ "."))
      else
        ({ s with
            attempted := s.attempted ++ [channel]
            syncs := s.syncs ++ [⟨channel, due⟩] },
          some ("Server deferred avatars for " ++ channel ++ "; synchronizing in " ++
            toString (delay / 1000) ++ " s."))

/-- A numeric of metadata; `none` when it is not part of what is used. -/
def observeNumeric (s : MetadataState) (code : ℕ) (args : List String) (now : ℕ)
    (currentNick : String) (joined : String → Bool) : Option (MetadataState × Handled) :=
  -- A first parameter of `*` marks a notification, not an answer to us.
  let reply := args.head?.any (· ≠ "*")
  let reported (target : String) (value : Option String) : MetadataState × Handled :=
    let (s, events) := s.report target value reply currentNick
    (s, { events })
  match code with
  | 761 =>
    match args with
    | [_, target, key, _, value] =>
      if key = avatarKey then some (reported target (some value)) else some (s, {})
    | _ => some (s, {})
  | 766 =>
    match args with
    | _ :: target :: key :: _ =>
      if key = avatarKey then some (reported target none) else some (s, {})
    | _ => some (s, {})
  | 770 | 771 | 772 =>
    some (s, { notes := ["Server metadata subscription reply " ++ toString code ++ ": " ++
      joinWith " " (args.drop 1)] })
  | 774 =>
    let (s, note) := s.defer args now joined
    some (s, { notes := note.toList })
  | _ => none

/-- A line of the server; `none` when it is processed as usual. -/
def observe (s : MetadataState) (message : IrcMessage) (now : ℕ) (currentNick : String)
    (joined : String → Bool) : Option (MetadataState × Handled) :=
  match message.command with
  | .raw verb args =>
    if eqIgnoreAsciiCase verb "METADATA" then
      match args with
      | target :: key :: _ :: rest =>
        if key = avatarKey then
          let (s, events) := s.report target rest.head? false currentNick
          some (s, { events })
        else some (s, {})
      | _ => some (s, {})
    else if verb = "FAIL" ∧ args.head? = some "METADATA" then
      let (s, events) := s.failure args.tail now currentNick
      some (s,
        { events
          notes := ["Server metadata reply: FAIL METADATA " ++ joinWith " " args.tail] })
    else (Accounts.numeric message).bind fun numeric =>
      s.observeNumeric numeric.1 numeric.2 now currentNick joined
  | _ => (Accounts.numeric message).bind fun numeric =>
    s.observeNumeric numeric.1 numeric.2 now currentNick joined

/-- A joiner is looked up after a pause. -/
def scheduleLookup (s : MetadataState) (nickname : String) (now : ℕ) :
    MetadataState × Option String :=
  let key := nicknameKey nickname
  if key ∈ s.known then (s, none)
  else if s.lookups.any (·.key = key) then
    -- Back before the answer came: the answer now describes them.
    let back (l : Lookup) : Lookup :=
      if l.state = .abandoned then { l with state := .sent, due := now + lookupTimeout } else l
    ({ s with lookups := adjustFirst (·.key = key) back s.lookups }, none)
  else if maxLookups ≤ s.lookups.length then
    ({ s with lookupsSkipped := s.lookupsSkipped + 1 },
      if s.lookupsSkipped = 0 then
        some ("Too many avatar lookups pending; not looking up " ++ nickname ++
          " and later joiners for now.")
      else none)
  else
    ({ s with lookups := s.lookups ++ [⟨nickname, key, .waiting, now + lookupDelay, 0⟩] }, none)

/-- The user left: a lookup that was not sent is dropped, the answer of a sent one ignored. -/
def cancelLookup (s : MetadataState) (key : String) (now : ℕ) : MetadataState :=
  match s.lookups.find? (·.key = key) with
  | none => s
  | some lookup =>
    match lookup.state with
    | .waiting => { s with lookups := s.lookups.eraseP (·.key = key) }
    | .sent =>
      let given (l : Lookup) : Lookup := { l with state := .abandoned, due := now + lookupTimeout }
      { s with lookups := adjustFirst (·.key = key) given s.lookups }
    | .abandoned => s

/-- A user with a pending lookup is looked up under the new name. -/
def renameLookup (s : MetadataState) (old new : String) (now : ℕ) : MetadataState :=
  let key := nicknameKey old
  match s.lookups.find? (·.key = key) with
  | none => s
  | some lookup =>
    if lookup.state = .abandoned then s
    else
      let s := s.cancelLookup key now
      let due := if lookup.state = .waiting then lookup.due else now
      if s.lookups.any (·.key = nicknameKey new) then s
      else { s with lookups := s.lookups ++ [⟨new, nicknameKey new, .waiting, due, 0⟩] }

def forgetGone (s : MetadataState) (gone : List String) : MetadataState × List Event :=
  gone.foldl (fun acc nick =>
    if nicknameKey nick ∈ acc.1.known then
      ({ acc.1 with known := acc.1.known.erase (nicknameKey nick) },
        acc.2 ++ [.userAvatar nick none])
    else acc) (s, [])

/-- A nickname changes hands: an avatar moves along, and one of the new name is dropped. -/
def renamed (s : MetadataState) (old new : String) (now : ℕ) : MetadataState × Handled :=
  let s := s.renameLookup old new now
  if nicknameKey old ∈ s.known then
    ({ s with known := insert (nicknameKey new) (s.known.erase (nicknameKey old)) },
      { events := [.avatarMoved old new] })
  else
    let (s, events) := s.forgetGone [new]
    (s, { events })

/-- Follows who is present, judged from the membership before the line. -/
def lifecycle (s : MetadataState) (message : IrcMessage) (presence : PresenceIndex)
    (currentNick : String) (replayed : Bool) (now : ℕ) : MetadataState × Handled :=
  match message.sourceNickname with
  | none => (s, {})
  | some actor =>
    match message.command with
    | .join .. =>
      if s.subscribed && !replayed && !sameNickname actor currentNick &&
          !presence.shares actor none then
        let (s, note) := s.scheduleLookup actor now
        (s, { notes := note.toList })
      else (s, {})
    | .nick new => s.renamed actor new now
    | _ =>
      let gone := presence.departed message actor (sameNickname · currentNick)
      let s := gone.foldl (fun s nick => s.cancelLookup (nicknameKey nick) now) s
      let (s, events) := s.forgetGone gone
      (s, { events })

end MetadataState

/-- A call of the metadata state. -/
inductive Call
  | start (now : ℕ)
  | requestOwn (request : ℕ) (value : Option String) (available : Bool) (now : ℕ)
  | observe (message : IrcMessage) (now : ℕ) (currentNick : String) (joined : String → Bool)
  | tick (now : ℕ) (joined : String → Bool)
  | lifecycle (message : IrcMessage) (presence : PresenceIndex) (currentNick : String)
    (replayed : Bool) (now : ℕ)
  | forgetChannel (channel : String)
  | setCasemapping (casemapping : CaseMapping)
  /-- The capability went away: everything is forgotten, and the worker says so. -/
  | reset

/-- One call, with the events it makes the worker emit. -/
def MetadataState.call (s : MetadataState) : Call → MetadataState × List Event
  | .start now => ((s.start now).1, [])
  | .requestOwn request value available now => ((s.requestOwn request value available now).1, [])
  | .observe message now currentNick joined =>
    ((s.observe message now currentNick joined).map fun r => (r.1, r.2.events)).getD (s, [])
  | .tick now joined => ((s.tick now joined).1, (s.tick now joined).2.events)
  | .lifecycle message presence currentNick replayed now =>
    let r := s.lifecycle message presence currentNick replayed now
    (r.1, r.2.events)
  | .forgetChannel channel => (s.forgetChannel channel, [])
  | .setCasemapping casemapping => ({ s with casemapping }, [])
  | .reset => (s.reset.1, s.reset.2 ++ [.avatarsReset])

end CayenChat.Avatars
