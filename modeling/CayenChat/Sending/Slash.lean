import CayenChat.Ctcp.Replies
import CayenChat.Sending.Outgoing
import CayenChat.Wire.Parse
import CayenChat.Wire.Text

/-! # Commands that are typed

The forms of a slash command and what each of them queues. Three checks are
used: one of the text of a message, one of a serialized command, and one of a
line that is sent as it was typed.
-/

namespace CayenChat.Sending

open Ctcp

def validateMessageText (text : String) : Except String Unit :=
  if text = "" || hasBreak text then
    .error "Message must not be empty or contain line breaks."
  else .ok ()

def validChannelKey (value : String) : Bool :=
  value ≠ "" && !startsWithAny [':'] value &&
    !value.toList.any fun c => isWhitespace c || isControl c || c == ','

section Typed

variable (upper : Char → List Char) {ε : Type}

def selectedTarget (target : Option String) : Except String String :=
  match target.filter fun value => validChannel value || validNickname value with
  | some value => .ok value
  | none => .error "Select a channel or provide an explicit target."

def selectedChannel (channel : Option String) : Except String String :=
  match channel.filter validChannel with
  | some value => .ok value
  | none => .error "Select a channel or provide an explicit target."

def splitWord (value : String) : String × String :=
  let cs := value.toList
  (String.ofList (cs.takeWhile (!isWhitespace ·)),
    String.ofList ((cs.dropWhile (!isWhitespace ·)).dropWhile isWhitespace))

def trimEnd (s : String) : String := String.ofList (s.toList.reverse.dropWhile isWhitespace).reverse

def maxRequestBytes : ℕ := 200

/-- Whether a CTCP request may be sent. -/
def checkRequest (nick tag args : String) : Except String Unit :=
  if !validNickname nick then .error "Invalid CTCP target; give a nickname."
  else if !isPlainTag tag then .error "Invalid CTCP command."
  else if toAsciiUppercase tag = "ACTION" then .error "Use /me to send an action."
  else if toAsciiUppercase tag = "DCC" then .error "DCC is not supported."
  else if toAsciiUppercase tag = "AVATAR" then
    .error "CTCP AVATAR follows the peer avatar setting."
  else if byteLen args > maxRequestBytes then
    .error ("CTCP arguments must be at most " ++ toString maxRequestBytes ++ " bytes.")
  else if args.toList.any isControl then
    .error "CTCP arguments must not contain control characters."
  else .ok ()

def ctcpRequest (nick tag args : String) : Except String (Outgoing ε) := do
  checkRequest nick tag args
  return .ctcp nick (toAsciiUppercase tag) args

/-- A line that is sent as it was typed. -/
def checkedRaw (wire : String) : Except String (Outgoing ε) :=
  if wire = "" || startsWithAny [':', '@'] wire || hasBreak wire then
    .error "Invalid IRC command."
  else if !(splitWord wire).1.toList.all Char.isAlpha then
    .error "IRC command name must contain only letters."
  else match parseMessage upper wire with
    | .error _ => .error ("Invalid IRC command: invalid message: " ++ wire)
    | .ok message => .ok (.raw message)

/-- Gives a `PART` without a reason the connection's default one. -/
def withDefaultPartReason (outgoing : Outgoing ε) (default : Option String) : Outgoing ε :=
  match outgoing, default with
  | .raw ⟨tags, source, .part channel none⟩, some default =>
    .raw ⟨tags, source, .part channel (some default)⟩
  | outgoing, _ => outgoing

def checkedCommand (command : IrcCommand) : Except String (Outgoing ε) :=
  let message : IrcMessage := { command }
  if hasBreak (trimEndMatches ['\r', '\n'] message.toLine) then
    .error "IRC command contains a protocol control."
  else .ok (.raw message)

/-- What a member list offers to do with a member. -/
inductive MemberCommand
  | whois
  | invite (channel : String)
  | giveOp (channel : String)
  | deop (channel : String)
  | ctcp (tag : String)

def memberOutgoing (nickname : String) (action : MemberCommand) : Except String (Outgoing ε) :=
  if !validNickname nickname then .error "Invalid nickname."
  else match action with
    | .whois => checkedCommand (.other "WHOIS" [nickname])
    | .invite channel =>
      if !validChannel channel then .error "Invalid invite channel."
      else checkedCommand (.other "INVITE" [nickname, channel])
    | .giveOp channel =>
      if !validChannel channel then .error "Invalid mode channel."
      else checkedRaw upper ("MODE " ++ channel ++ " +o " ++ nickname)
    | .deop channel =>
      if !validChannel channel then .error "Invalid mode channel."
      else checkedRaw upper ("MODE " ++ channel ++ " -o " ++ nickname)
    | .ctcp tag => ctcpRequest nickname tag ""

/-- `/me`. -/
def parseMe (rest : String) (selected : Option String) : Except String (Outgoing ε) := do
  let target ← selectedTarget selected
  let action := trimStartMatches [':'] rest
  if action = "" then throw "/me requires action text."
  let text := ctcpQuote ++ "ACTION " ++ action ++ ctcpQuote
  validateMessageText text
  return .message ⟨target, text, "* " ++ action, false, none⟩

def isTarget (target : String) : Bool :=
  target ≠ "" && !target.toList.any fun c => isWhitespace c || isControl c || c == ':'

/-- `/msg` and `/notice`; without a target the text goes to the selected conversation. -/
def parseMsg (notice : Bool) (rest : String) (selected : Option String) :
    Except String (Outgoing ε) := do
  let (target, text) ← match stripFirst ':' rest with
    | some text => do pure (← selectedTarget selected, text)
    | none =>
      let (first, remainder) := splitWord rest
      if remainder = "" then do pure (← selectedTarget selected, first)
      else pure (first, trimStartMatches [':'] remainder)
  if !isTarget target then throw "Invalid message target."
  validateMessageText text
  return .message ⟨target, text, text, notice, none⟩

def channelFirst (rest : String) (selected : Option String) : Except String (String × String) :=
  let (first, remainder) := splitWord rest
  if validChannel first then .ok (first, remainder)
  else (selectedChannel selected).map fun channel => (channel, rest)

def optionalText (text : String) : Option String := if text = "" then none else some text

/-- `/part` and `/topic`. -/
def parseChannelText (part : Bool) (rest : String) (selected : Option String) :
    Except String (Outgoing ε) := do
  let (channel, body) ← channelFirst rest selected
  let body := optionalText (trimStartMatches [':'] body)
  checkedCommand (if part then .part channel body else .other "TOPIC" (channel :: body.toList))

/-- `/kick`. -/
def parseKick (rest : String) (selected : Option String) : Except String (Outgoing ε) := do
  let (channel, nickAndReason) ← channelFirst rest selected
  let (nick, reason) := splitWord nickAndReason
  if nick = "" then throw "/kick requires a nickname."
  checkedCommand (.kick channel nick ((optionalText reason).map (trimStartMatches [':'])))

/-- `/mode`. -/
def parseMode (rest : String) (selected : Option String) : Except String (Outgoing ε) := do
  let wire ← if validChannel (splitWord rest).1 then pure ("MODE " ++ rest)
    else do pure ("MODE " ++ (← selectedChannel selected) ++ " " ++ rest)
  checkedRaw upper (trimEnd wire)

/-- `/names`. -/
def parseNames (rest : String) (selected : Option String) : Except String (Outgoing ε) := do
  let wire ← if rest = "" then do pure ("NAMES " ++ (← selectedChannel selected))
    else pure ("NAMES " ++ rest)
  checkedRaw upper wire

/-- `/invite`. -/
def parseInvite (rest : String) (selected : Option String) : Except String (Outgoing ε) := do
  let (nickname, channel) := splitWord rest
  if nickname = "" then throw "/invite requires a nickname."
  let channel ← if channel = "" then selectedChannel selected else pure channel
  if !validChannel channel then throw "Invalid invite channel."
  checkedCommand (.other "INVITE" [nickname, channel])

/-- `/quit`; the worker fills in the reason when there is none. -/
def parseQuit (rest : String) : Except String (Outgoing ε) :=
  let reason := trim (trimStartMatches [':'] rest)
  if reason = "" then .ok .quit
  else (checkedCommand (.quit (some reason)) : Except String (Outgoing ε)).map fun _ =>
    .quitWith reason

/-- `/ctcp`. -/
def parseCtcp (rest : String) : Except String (Outgoing ε) :=
  let (nick, rest) := splitWord rest
  let (tag, args) := splitWord rest
  if nick = "" || tag = "" then .error "Usage: /ctcp <nick> <command> [arguments]."
  else ctcpRequest nick tag args

/-- `/ping`, the round trip to a user. -/
def parsePing (rest : String) : Except String (Outgoing ε) :=
  let (nick, extra) := splitWord rest
  if nick = "" || extra ≠ "" then .error "Usage: /ping <nick>."
  else ctcpRequest nick "PING" ""

def parseSlashCommand (line : String) (selected : Option String) : Except String (Outgoing ε) :=
  match stripFirst '/' line with
  | none => .error "IRC commands must start with /."
  | some body =>
    let body := trim body
    let (verb, rest) := splitWord body
    if verb = "" then .error "Enter an IRC command after /."
    else match toAsciiUppercase verb with
      | "ME" => parseMe rest selected
      | "MSG" | "PRIVMSG" => parseMsg false rest selected
      | "NOTICE" => parseMsg true rest selected
      | "PART" => parseChannelText true rest selected
      | "TOPIC" => parseChannelText false rest selected
      | "KICK" => parseKick rest selected
      | "MODE" => parseMode upper rest selected
      | "NAMES" => parseNames upper rest selected
      | "INVITE" => parseInvite rest selected
      | "QUIT" => parseQuit rest
      | "CTCP" => parseCtcp rest
      | "PING" => parsePing rest
      | "RAW" | "QUOTE" => checkedRaw upper rest
      | _ => checkedRaw upper body

end Typed

end CayenChat.Sending
