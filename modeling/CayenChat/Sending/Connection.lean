import CayenChat.Sending.Slash

/-! # What a connection queues

Every call that sends something checks it against the connection it belongs
to, fixes the encoding of a message, and queues it for the worker.
-/

namespace CayenChat.Sending

open Charset

def maxSendLines : ℕ := 100

def defaultModesPerLine : ℕ := 3

def maxModesPerLine : ℕ := 12

def maxParameterBytes : ℕ := 350

/-- A change of one privilege. -/
inductive MemberMode
  | op
  | deop
  | voice
  | devoice
  deriving DecidableEq, Repr

namespace MemberMode

def sign : MemberMode → Char
  | op | voice => '+'
  | deop | devoice => '-'

def flag : MemberMode → Char
  | op | deop => 'o'
  | voice | devoice => 'v'

end MemberMode

def effectiveLimit (announced : ℕ) : ℕ :=
  if announced = 0 then defaultModesPerLine else min announced maxModesPerLine

def uniqueNicks (nicknames : List String) : List String :=
  nicknames.foldl (fun unique nick =>
    if unique.any fun seen => sameNickname seen nick then unique else unique ++ [nick]) []

/-- The nicknames of each line, behind the group that is being filled. -/
def nickGroups (perLine : ℕ) : List String → List String → ℕ → List (List String)
  | [], group, _ => if group = [] then [] else [group]
  | nick :: nicks, group, bytes =>
    if group.length = perLine ∨ bytes + byteLen nick + 1 > maxParameterBytes then
      (if group = [] then [] else [group]) ++
        nickGroups perLine nicks [nick] (byteLen nick + 1)
    else nickGroups perLine nicks (group ++ [nick]) (bytes + byteLen nick + 1)

/-- The parameters of the `MODE` commands of several members. -/
def modeLines (channel : String) (mode : MemberMode) (nicknames : List String) (perLine : ℕ) :
    List (List String) :=
  (nickGroups (max perLine 1) (uniqueNicks nicknames) [] 0).map fun group =>
    channel :: String.ofList (mode.sign :: List.replicate group.length mode.flag) :: group

/-- A connection as its callers see it. The configured messages were checked when it was opened. -/
structure Connection (ε : Type) where
  encoding : String
  charsets : ChannelCharsets ε
  charRefs : CharRefMode
  /-- Reason for a `PART` that names none. -/
  partMessage : Option String
  /-- Reason for a `QUIT` that names none. -/
  quitMessage : String
  /-- Bytes a server adds in front of our relayed lines. -/
  relayPrefix : ℕ
  /-- The server's announced limit of modes; 0 until one is seen. -/
  modesPerLine : ℕ
  /-- Commands that can still be queued. -/
  room : ℕ
  partMessage_whole : ∀ reason ∈ partMessage, hasBreak reason = false
  quitMessage_whole : hasBreak quitMessage = false

/-- What is asked of a connection. -/
inductive Call
  | command (line : String) (selected : Option String)
  | partChannel (channel : String) (reason : Option String)
  | joinChannel (channel : String) (key : Option String)
  | message (channel text : String) (notice : Bool)
  | privateMessage (nickname text : String) (notice : Bool)
  | lines (target : String) (lines : List String) (notice toUser : Bool)
  | memberCommand (nickname : String) (action : MemberCommand)
  | memberModes (channel : String) (mode : MemberMode) (nicknames : List String)
  | changeNickname (nickname : String)

section Converting

variable {ε : Type} (c : Encoders ε)

/-- A text with each character ISO-2022-JP cannot hold as a numeric reference; `none` when it can
hold all. -/
def withCharRefs (text : String) : Option String :=
  if (c.encode c.iso2022jp text.toList).2 then
    some (String.ofList (text.toList.flatMap fun ch =>
      if (c.encode c.iso2022jp [ch]).2 then ("&#" ++ toString ch.toNat ++ ";").toList else [ch]))
  else none

/-- Converts the body of a message: all of a plain text, only the description of an action. -/
def applyCharRefs (m : ChatMessage ε) : ChatMessage ε :=
  match actionText m.text with
  | some action =>
    let converted := (withCharRefs c action).getD action
    if converted = action then m
    else { m with
      text := ctcpQuote ++ "ACTION " ++ converted ++
        if m.text.toList.getLast? = some (Char.ofNat 1) then ctcpQuote else ""
      displayText := if stripStart "* " m.displayText = some action then "* " ++ converted
        else m.displayText }
  | none =>
    if isCtcp m.text then m
    else match withCharRefs c m.text with
      | none => m
      | some converted => { m with
          text := converted
          displayText := if m.displayText = m.text then converted else m.displayText }

end Converting

namespace Connection

variable {ε : Type} [DecidableEq ε] (c : Encoders ε) (name : ε → String)
  (upper : Char → List Char) (conn : Connection ε)

def charRefsOf (target : String) : Option CharRefMode :=
  if conn.charsets.any then (conn.charsets.find target).bind Entry.charRefs else none

/-- A message with its encoding fixed, its text converted to it. -/
def pinnedMessage (m : ChatMessage ε) : ChatMessage ε :=
  let m := { m with encoder := conn.charsets.encoder c.toEncodings m.target }
  let sentAsIso2022jp := (m.encoder <|> c.resolve conn.encoding) = some c.iso2022jp
  let wanted := match (conn.charRefsOf m.target).getD conn.charRefs with
    | .auto => decide sentAsIso2022jp
    | .iso2022jp => true
    | .off => false
  -- Credentials for services stay as typed.
  if wanted && !(splitChar ',' m.target).any fun one => isServiceSecret one m.text then
    applyCharRefs c m
  else m

def pinned : Outgoing ε → Outgoing ε
  | .message m => .message (conn.pinnedMessage c m)
  | outgoing => outgoing

def validate (outgoing : Outgoing ε) : Except String Unit :=
  validateOutgoingRelayed c name outgoing
    ⟨conn.encoding, some fun target => conn.charsets.encoder c.toEncodings (String.ofList target)⟩
    conn.relayPrefix

def trySend (outgoing : Outgoing ε) (what : String) : Except String (List (Outgoing ε)) :=
  if conn.room = 0 then .error ("Could not queue " ++ what ++ ": no available capacity")
  else .ok [outgoing]

def submit (outgoing : Outgoing ε) (what : String) : Except String (List (Outgoing ε)) := do
  let outgoing := conn.pinned c outgoing
  conn.validate c name outgoing
  conn.trySend outgoing what

def sendTo (target text : String) (notice : Bool) (what : String) :
    Except String (List (Outgoing ε)) := do
  validateMessageText text
  conn.submit c name (.message ⟨target, text, text, notice, none⟩) what

/-- The messages of several lines, all checked before any is queued. -/
def sendLines (target : String) (lines : List String) (notice : Bool) :
    Except String (List (Outgoing ε)) := do
  let outgoing ← lines.mapM fun text => do
    validateMessageText text
    let m := conn.pinnedMessage c ⟨target, text, text, notice, none⟩
    conn.validate c name (.message m)
    pure m
  conn.trySend (.lines outgoing) "IRC messages"

/-- The `MODE` commands of several members, all checked before any is queued. -/
def sendMemberModes (channel : String) (mode : MemberMode) (nicknames : List String) :
    Except String (List (Outgoing ε)) := do
  let args := modeLines channel mode nicknames (effectiveLimit conn.modesPerLine)
  let outgoing ← args.mapM fun args => do
    let outgoing ← checkedCommand (.raw "MODE" args)
    conn.validate c name outgoing
    pure outgoing
  if conn.room < outgoing.length then throw "The connection is busy; try again in a moment."
  return outgoing

/-- What a call queues. -/
def send : Call → Except String (List (Outgoing ε))
  | .command line selected => do
    let outgoing ← parseSlashCommand upper line selected
    conn.submit c name (withDefaultPartReason outgoing conn.partMessage) "IRC command"
  | .partChannel channel reason => do
    if !validChannel channel then throw "Invalid channel name."
    let outgoing ← checkedCommand (.part channel (reason.filter (· ≠ "")))
    conn.submit c name (withDefaultPartReason outgoing conn.partMessage) "IRC command"
  | .joinChannel channel key => do
    if !validChannel channel then throw "Invalid channel name."
    if key.any fun key => !validChannelKey key then
      throw "Channel key must not be empty or contain spaces or controls."
    let outgoing ← checkedCommand (.join channel key none)
    conn.submit c name outgoing "IRC command"
  | .message channel text notice => do
    if !validChannel channel then throw "Select a channel before sending."
    conn.sendTo c name channel text notice "IRC message"
  | .privateMessage nickname text notice => do
    if !validNickname nickname then throw "Invalid message target."
    conn.sendTo c name nickname text notice "private message"
  | .lines target lines notice toUser => do
    if lines.length > maxSendLines then
      throw ("At most " ++ toString maxSendLines ++ " lines can be sent at once.")
    if toUser && !validNickname target then throw "Invalid message target."
    if !toUser && !validChannel target then throw "Select a channel before sending."
    conn.sendLines c name target lines notice
  | .memberCommand nickname action => do
    let outgoing ← memberOutgoing upper nickname action
    conn.submit c name outgoing "member command"
  | .memberModes channel mode nicknames => do
    if !validChannel channel then throw "Invalid mode channel."
    if nicknames = [] then throw "Select at least one member."
    match nicknames.find? fun nick => !validNickname nick with
    | some bad => throw ("Invalid nickname: " ++ bad)
    | none => conn.sendMemberModes c name channel mode nicknames
  | .changeNickname nickname => do
    if !validNickname nickname then throw "Invalid nickname."
    let outgoing ← checkedCommand (.nick nickname)
    conn.submit c name outgoing "nickname change"

end Connection

/-- The messages something queued stands for; a timed ping carries a token of the worker. -/
def Outgoing.standsFor {ε : Type} (quitMessage token : String) : Outgoing ε → List IrcMessage
  | message m => [{ command := m.command }]
  | raw m => [m]
  | lines ms => ms.map fun m => { command := m.command }
  | ctcp nick tag args =>
    let body := if tag = "PING" ∧ args = "" then "PING " ++ token
      else if args = "" then tag else tag ++ " " ++ args
    [{ command := .privmsg nick (ctcpQuote ++ body ++ ctcpQuote) }]
  | quit => [{ command := .quit (some quitMessage) }]
  | quitWith reason => [{ command := .quit (some reason) }]
  | sleepQuit reason => [{ command := .quit (some reason) }]
  | _ => []


end CayenChat.Sending
