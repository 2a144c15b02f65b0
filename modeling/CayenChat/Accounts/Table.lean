import CayenChat.Presence.Index
import CayenChat.Wire.Transcript

/-! # Services accounts of the users around us

The accounts and real names of the users we share a channel with. What changes
is told in events. A WHOX query about a joined channel is asked one at a time;
its reply may describe users who have left since. Times are in milliseconds.
-/

namespace CayenChat

def maxUsers : ℕ := 4096

def maxQueuedWho : ℕ := 64

def maxDepartedWho : ℕ := 4096

def whoTimeout : ℕ := 15000

def maxRealnameBytes : ℕ := 256

def maxAccountBytes : ℕ := 128

/-- What is known about a user. -/
structure Known where
  nickname : String := ""
  account : Option String := none
  realname : Option String := none
  channels : Finset String := ∅
  deriving DecidableEq

/-- A WHOX query without its answer, with those who left the channel since it was sent. -/
structure Accounts.Outstanding where
  channel : String
  token : String
  sent : ℕ
  departed : Finset String := ∅
  departedOverflowed : Bool := false
  deriving DecidableEq

/-- What the application is told. -/
inductive AccountEvent
  | userAccount (nickname : String) (account realname : Option String)
  | userAccountForgotten (nickname : String)
  deriving DecidableEq, Repr

structure Accounts where
  users : Map String Known := ∅
  whox : Bool := false
  queue : List String := []
  outstanding : Option Accounts.Outstanding := none
  token : ℕ := 0
  casemapping : CaseMapping := .rfc1459

/-- The order in which one call goes through the hash map of the users. -/
structure UserOrder where
  keys : Map String Known → List String
  perm : ∀ m, (keys m).Perm m.keys

namespace Accounts

def accountValue (value : String) : Option String :=
  if value ≠ "" ∧ value ≠ "*" ∧ byteLen value ≤ maxAccountBytes then some value else none

def realnameValue (value : String) : Option String :=
  let value := trim value
  if value ≠ "" then some (String.ofList (Tags.takeBytes maxRealnameBytes value.toList)) else none

/-- Channel names are compared another way from now on; what depends on the old keys is dropped. -/
def setCasemapping (a : Accounts) (casemapping : CaseMapping) : Accounts :=
  if a.casemapping ≠ casemapping then
    { a with casemapping, users := ∅, queue := [], outstanding := none }
  else a

def channelKey (a : Accounts) (channel : String) : String := a.casemapping.fold channel

def isupportToken (a : Accounts) (token : String) : Accounts :=
  let name := ((splitOnce '=' token).map Prod.fst).getD token
  if eqIgnoreAsciiCase name "WHOX" then { a with whox := true }
  else if eqIgnoreAsciiCase name "-WHOX" then { a with whox := false }
  else a

def isupport (a : Accounts) (m : IrcMessage) : Accounts :=
  match m.command with
  | .response .rplIsupport args => ((args.drop 1).flatMap splitWhitespace).foldl isupportToken a
  | _ => a

def report (known : Known) : AccountEvent :=
  .userAccount known.nickname known.account known.realname

def forget (a : Accounts) (key : String) : Accounts × List AccountEvent :=
  match a.users.lookup key with
  | some known => ({ a with users := a.users.erase key }, [.userAccountForgotten known.nickname])
  | none => (a, [])

def worthKeeping (a : Accounts) (account : Option (Option String)) (realname : Option String)
    (channels : List String) : Bool :=
  channels ≠ [] && a.users.entries.length < maxUsers && (account.join.isSome || realname.isSome)

/-- Records what is known about a nickname; only a change is reported. -/
def learn (a : Accounts) (nickname : String) (account : Option (Option String))
    (realname : Option String) (channels : List String) : Accounts × List AccountEvent :=
  let key := nicknameKey nickname
  let entry := a.users.lookup key
  if entry.isNone && !a.worthKeeping account realname channels then (a, [])
  else
    let before := entry.getD {}
    let fresh := before.nickname == ""
    let known : Known :=
      { nickname
        account := account.getD before.account
        realname := realname.or before.realname
        channels := before.channels ∪ channels.toFinset }
    if known.account = none ∧ known.realname = none then
      if fresh then ({ a with users := a.users.erase key }, [])
      else forget { a with users := a.users.insert key known } key
    else
      ({ a with users := a.users.insert key known },
        if fresh || (before.account, before.realname) ≠ (known.account, known.realname) then
          [report known]
        else [])

def leave (a : Accounts) (key channel : String) : Accounts × List AccountEvent :=
  match a.users.lookup key with
  | none => (a, [])
  | some known =>
    let known := { known with channels := known.channels.erase channel }
    let a := { a with users := a.users.insert key known }
    if known.channels = ∅ then forget a key else (a, [])

def leaveAll (a : Accounts) (keys : List String) (channel : String) :
    Accounts × List AccountEvent :=
  keys.foldl (fun acc key =>
    let r := acc.1.leave key channel
    (r.1, acc.2 ++ r.2)) (a, [])

/-- A nickname left a channel, or every channel, while a query about it is out. -/
def departed (a : Accounts) (nickname : String) (channel : Option String) : Accounts :=
  match a.outstanding with
  | none => a
  | some o =>
    if channel.all fun channel => a.casemapping.same channel o.channel then
      let key := nicknameKey nickname
      if key ∈ o.departed then a
      else if o.departed.card < maxDepartedWho then
        { a with outstanding := some { o with departed := insert key o.departed } }
      else { a with outstanding := some { o with departedOverflowed := true } }
    else a

/-- A nickname is back, as far as the query that is out is concerned. -/
def returned (a : Accounts) (nickname : String) (channel : Option String) : Accounts :=
  match a.outstanding with
  | none => a
  | some o =>
    if channel.all fun channel => a.casemapping.same channel o.channel then
      { a with outstanding := some { o with departed := o.departed.erase (nicknameKey nickname) } }
    else a

def forgetChannel (a : Accounts) (order : UserOrder) (channel : String) :
    Accounts × List AccountEvent :=
  let key := a.channelKey channel
  let outstanding := a.outstanding.filter fun o => !a.casemapping.same o.channel channel
  let queue := a.queue.filter fun queued => !a.casemapping.same queued channel
  { a with queue, outstanding }.leaveAll (order.keys a.users) key

/-- A JOIN with an account and a real name, or without. -/
def observeJoin (a : Accounts) (nickname channel : String) (account realname : Option String) :
    Accounts × List AccountEvent :=
  let a := a.returned nickname (some channel)
  let values : Option (Option String) × Option String := match account, realname with
    | some account, some realname => (some (accountValue account), realnameValue realname)
    | _, _ => (none, none)
  if values.1.isSome || values.2.isSome then
    a.learn nickname values.1 values.2 [a.channelKey channel]
  else
    let channel := a.channelKey channel
    ({ a with users := Map.adjust a.users (nicknameKey nickname) fun known =>
        { known with channels := insert channel known.channels } }, [])

def observeLeave (a : Accounts) (order : UserOrder) (currentNick nickname channel : String) :
    Accounts × List AccountEvent :=
  if sameNickname nickname currentNick then a.forgetChannel order channel
  else
    let a := a.departed nickname (some channel)
    a.leave (nicknameKey nickname) (a.channelKey channel)

/-- A NICK; a stale holder of the new name is forgotten. -/
def observeNick (a : Accounts) (old newNick : String) : Accounts × List AccountEvent :=
  let a := (a.departed old none).returned newNick none
  let moved := a.users.lookup (nicknameKey old)
  let r := { a with users := a.users.erase (nicknameKey old) }.forget (nicknameKey newNick)
  match moved with
  | none => r
  | some known =>
    let known' := { known with nickname := newNick }
    ({ r.1 with users := r.1.users.insert (nicknameKey newNick) known' },
      r.2 ++ [.userAccountForgotten known.nickname, report known'])

/-- Follows JOIN, PART, KICK, QUIT, NICK and ACCOUNT. -/
def observe (a : Accounts) (order : UserOrder) (m : IrcMessage) (currentNick : String)
    (presence : PresenceIndex) : Accounts × List AccountEvent :=
  match m.command, m.sourceNickname with
  | .join channel account realname, some nickname => a.observeJoin nickname channel account realname
  | .part channel _, some nickname => a.observeLeave order currentNick nickname channel
  | .kick channel nickname _, _ => a.observeLeave order currentNick nickname channel
  | .quit _, some nickname => (a.departed nickname none).forget (nicknameKey nickname)
  | .nick newNick, some old => a.observeNick old newNick
  | .account account, some nickname =>
    a.learn nickname (some (accountValue account)) none (presence.channelKeysOf nickname)
  | _, _ => (a, [])

def displayNickname (member : String) : String :=
  trimStartMatches ['~', '&', '@', '%', '+'] member

/-- A channel's member list was published. -/
def names (a : Accounts) (order : UserOrder) (channel : String) (users : List String) :
    Accounts × List AccountEvent :=
  let key := a.channelKey channel
  let present := users.map fun user => nicknameKey (displayNickname user)
  let keys := order.keys a.users
  let gone := keys.filter fun user => !present.contains user &&
    (a.users.lookup user).any fun known => key ∈ known.channels
  let users := (keys.filter present.contains).foldl (fun m user =>
    Map.adjust m user fun known => { known with channels := insert key known.channels }) a.users
  { a with users }.leaveAll gone key

/-- We joined a channel: its members' accounts are asked for. -/
def joined (a : Accounts) (channel : String) : Accounts :=
  if !a.whox || maxQueuedWho ≤ a.queue.length then a
  else
    let busy := a.outstanding.any fun o => a.casemapping.same o.channel channel
    if !busy && !a.queue.any fun queued => a.casemapping.same queued channel then
      { a with queue := a.queue ++ [channel] }
    else a

/-- The next WHOX query, when none is waiting for its answer. -/
def nextWho (a : Accounts) (now : ℕ) : Accounts × Option IrcCommand :=
  let outstanding := a.outstanding.filter fun o => !(whoTimeout ≤ now - o.sent)
  if outstanding.isSome then ({ a with outstanding }, none)
  else
    match a.queue with
    | [] => ({ a with outstanding }, none)
    | channel :: queue =>
      let number := a.token % 999 + 1
      let token := toString number
      ({ a with
          queue
          token := number
          outstanding := some { channel, token, sent := now } },
        some (.raw "WHO" [channel, "%tnar," ++ token]))

/-- The code and arguments of a numeric. -/
def numeric (m : IrcMessage) : Option (ℕ × List String) :=
  match m.command with
  | .response response args => some (response.code, args)
  | .raw command args =>
    if byteLen command = 3 then (parseUnsigned (2 ^ 16 - 1) command).map fun code => (code, args)
    else none
  | _ => none

/-- Part of a WHOX reply; nothing when the message is not. -/
def observeWho (a : Accounts) (m : IrcMessage) : Option (Accounts × List AccountEvent) :=
  match numeric m, a.outstanding with
  | some (code, args), some o =>
    if code = 354 ∧ args[1]? = some o.token then
      match args[2]?, args[3]? with
      | some nickname, some account =>
        if o.departedOverflowed ∨ nicknameKey nickname ∈ o.departed then some (a, [])
        else
          let account := if account ≠ "0" then accountValue account else none
          let realname := args[4]?.bind realnameValue
          some (a.learn nickname (some account) realname [a.casemapping.fold o.channel])
      | _, _ => some (a, [])
    else if code = 315 ∧ args[1]?.any fun name => a.casemapping.same name o.channel then
      some ({ a with outstanding := none }, [])
    else none
  | _, _ => none

end Accounts

/-- A call of the table, with the order in which it goes through the users. -/
inductive AccountCall
  | observe (m : IrcMessage) (currentNick : String) (presence : PresenceIndex)
  | observeWho (m : IrcMessage)
  | names (channel : String) (users : List String)
  | joined (channel : String)
  | nextWho (now : ℕ)
  | setCasemapping (casemapping : CaseMapping)
  | isupport (m : IrcMessage)

/-- One call, with the events it returns. -/
def Accounts.call (a : Accounts) (i : UserOrder × AccountCall) : Accounts × List AccountEvent :=
  match i.2 with
  | .observe m currentNick presence => a.observe i.1 m currentNick presence
  | .observeWho m => (a.observeWho m).getD (a, [])
  | .names channel users => a.names i.1 channel users
  | .joined channel => (a.joined channel, [])
  | .nextWho now => ((a.nextWho now).1, [])
  | .setCasemapping casemapping => (a.setCasemapping casemapping, [])
  | .isupport m => (a.isupport m, [])

end CayenChat
