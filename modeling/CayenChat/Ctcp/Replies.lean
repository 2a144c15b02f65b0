import CayenChat.Ctcp.Budget
import CayenChat.Wire.Text
import CayenChat.Wire.Message

/-! # Answers to CTCP messages

A CTCP message other than ACTION is consumed here: it becomes one line of the
server log, and a live private request is answered with a notice. What is
answered or shown is kept within a budget, requests and replies apart.
-/

namespace CayenChat.Ctcp

def maxPingBytes : ℕ := 128

def maxTagChars : ℕ := 32

def maxShownChars : ℕ := 200

def version : String := "CayenChat 1.1.0"

def source : String := "https://github.com/koshian/cayenchat"

def pingTimeout : ℕ := 30000

def maxPendingPings : ℕ := 8

def delimiter : String := String.ofList [Char.ofNat 1]

/-- A CTCP PING that was sent and is still waited for. -/
structure PendingPing where
  nick : String
  token : String
  sent : ℕ
  deriving DecidableEq, Repr

/-- A line of the server log about a CTCP message. -/
inductive CtcpLine
  | notSent (tag nick why : String)
  | sent (tag nick : String)
  | timedOut (nick network : String)
  | roundTrip (nick network : String) (elapsed : ℕ)
  | tooManyRequests (tag sender : String)
  | tooManyReplies (tag sender : String)
  | reply (tag sender dest params : String)
  | request (tag sender dest : String) (answered : Bool)
  deriving DecidableEq, Repr

/-- The text of a line; a time is written in milliseconds with one decimal. -/
def CtcpLine.text (decimal : ℕ → String) : CtcpLine → String
  | notSent tag nick why => "CTCP " ++ tag ++ " request to " ++ nick ++ " not sent: " ++ why
  | sent tag nick => "CTCP " ++ tag ++ " request sent to " ++ nick
  | timedOut nick network => "CTCP PING to " ++ nick ++ " on " ++ network ++
      " timed out (no reply in " ++ toString (pingTimeout / 1000) ++ " seconds)"
  | roundTrip nick network elapsed => "CTCP PING reply from " ++ nick ++ " on " ++ network ++
      ": " ++ decimal elapsed ++ " ms"
  | tooManyRequests tag sender => "Too many CTCP requests; ignoring them for now (latest " ++
      tag ++ " from " ++ sender ++ ")."
  | tooManyReplies tag sender => "Too many CTCP replies; hiding them for now (latest " ++
      tag ++ " from " ++ sender ++ ")."
  | reply tag sender dest params => tag ++ " reply from " ++ sender ++ dest ++
      if params = "" then "" else ": " ++ params
  | request tag sender dest answered => tag ++ " request from " ++ sender ++ dest ++
      if answered then "" else " (not answered)"

/-- The result of one incoming message or timer tick. -/
structure Handled where
  events : List CtcpLine := []
  send : List IrcCommand := []
  deriving DecidableEq, Repr

structure CtcpReplies where
  /-- CTCP AVATAR is answered on this connection. -/
  avatar : Bool
  /-- The server named in ping results. -/
  network : String
  requests : Budget := {}
  replies : Budget := {}
  /-- Requests we send. -/
  sent : Budget := {}
  /-- Oldest first. -/
  pending : List PendingPing := []
  nonce : ℕ
  counter : ℕ := 0
  casemapping : CaseMapping := default

def echoable (params : String) : Bool :=
  byteLen params ≤ maxPingBytes && !params.toList.any isControl

def split (text : String) : Option (String × String) :=
  (stripFirst (Char.ofNat 1) text).map fun body =>
    let body := (stripLast (Char.ofNat 1) body).getD body
    (splitOnce ' ' body).getD (body, "")

def isPlainTag (tag : String) : Bool :=
  tag != "" && byteLen tag ≤ maxTagChars &&
    tag.toList.all fun c => c.isAlphanum || ['-', '_', '.', '/'].contains c

def shownTag (tag : String) : String :=
  if isPlainTag tag then "CTCP " ++ toAsciiUppercase tag else "CTCP"

def plain (text : String) : String :=
  String.ofList ((stripFormatting text).toList.filter (!isControl ·))

def shownParams (params : String) : String :=
  let plain := trim (plain params)
  if maxShownChars < plain.toList.length then
    String.ofList (plain.toList.take maxShownChars) ++ "…"
  else plain

private def hex (n : ℕ) : String := String.ofList (Nat.toDigits 16 n)

private def hexPadded (width n : ℕ) : String :=
  String.ofList (List.leftpad width '0' (Nat.toDigits 16 n))

namespace CtcpReplies

def new (avatar : Bool) (network : String) (nonce : ℕ) : CtcpReplies :=
  { avatar, network := plain network, nonce }

def setCasemapping (s : CtcpReplies) (casemapping : CaseMapping) : CtcpReplies :=
  { s with casemapping }

def overdue (now : ℕ) (p : PendingPing) : Bool := pingTimeout ≤ now - p.sent

def expire (s : CtcpReplies) (now : ℕ) : CtcpReplies × List CtcpLine :=
  ({ s with pending := s.pending.dropWhile (overdue now) },
    (s.pending.takeWhile (overdue now)).map fun p => .timedOut (plain p.nick) s.network)

/-- Sends our own request; a PING without arguments is timed. -/
def request (s : CtcpReplies) (nick tag args : String) (now : ℕ) : CtcpReplies × Handled :=
  let tag := toAsciiUppercase tag
  let (s, expired) := s.expire now
  let refuse (s : CtcpReplies) (why : String) : CtcpReplies × Handled :=
    (s, { events := expired ++ [.notSent tag (plain nick) why] })
  let timed := tag == "PING" && args == ""
  if timed && s.pending.any fun p => s.casemapping.same p.nick nick then
    refuse s "still waiting for the previous ping"
  else if timed && decide (maxPendingPings ≤ s.pending.length) then
    refuse s "too many pings are waiting for a reply"
  else
    let (sent, admission) := s.sent.admitEvent nick now
    let s := { s with sent }
    if admission ≠ .admitted then refuse s "too many requests; wait a few seconds"
    else
      let token := hexPadded 8 (s.nonce % 2 ^ 32) ++ hex (s.counter + 1)
      let body := if timed then "PING " ++ token else if args = "" then tag else tag ++ " " ++ args
      (if timed then
          { s with counter := s.counter + 1, pending := s.pending ++ [⟨nick, token, now⟩] }
        else s,
        { events := expired ++ [.sent tag (plain nick)]
          send := [.privmsg nick (delimiter ++ body ++ delimiter)] })

def nextDeadline (s : CtcpReplies) : Option ℕ := s.pending.head?.map fun p => p.sent + pingTimeout

def tick (s : CtcpReplies) (now : ℕ) : CtcpReplies × Handled :=
  let (s, expired) := s.expire now
  (s, { events := expired })

/-- The round trip of a reply that answers one of our pings. -/
def roundTrip (s : CtcpReplies) (sender params : String) (now : ℕ) :
    Option (CtcpReplies × CtcpLine) :=
  let answers (p : PendingPing) : Bool :=
    p.token == params && s.casemapping.same p.nick sender && decide (now - p.sent < pingTimeout)
  (s.pending.find? answers).map fun p =>
    ({ s with pending := s.pending.eraseP answers },
      .roundTrip (plain p.nick) s.network (now - p.sent))

def clientInfo (s : CtcpReplies) : String :=
  if s.avatar then "ACTION AVATAR CLIENTINFO ERRMSG FINGER PING SOURCE TIME USERINFO VERSION"
  else "ACTION CLIENTINFO ERRMSG FINGER PING SOURCE TIME USERINFO VERSION"

/-- The answer's body for a private request. -/
def answer (s : CtcpReplies) (localTime tag params : String) : Option String :=
  match toAsciiUppercase tag with
  | "PING" =>
    if params = "" then some "PING"
    else if echoable params then some ("PING " ++ params)
    else none
  | "VERSION" => some ("VERSION " ++ version)
  | "TIME" => some ("TIME " ++ localTime)
  | "CLIENTINFO" => some ("CLIENTINFO " ++ s.clientInfo)
  | "USERINFO" => some "USERINFO CayenChat user"
  | "FINGER" => some "FINGER CayenChat user"
  | "SOURCE" => some ("SOURCE " ++ source)
  | "ERRMSG" =>
    if !echoable params then none
    else if params = "" then some "ERRMSG ERRMSG :No error"
    else some ("ERRMSG " ++ params ++ " :No error")
  | "DCC" => none
  | "AVATAR" => none
  | known => if isPlainTag tag then some ("ERRMSG " ++ known ++ " :Unknown query") else none

def textOf (m : IrcMessage) : Option (String × String × Bool) :=
  match m.command with
  | .privmsg target text => some (target, text, true)
  | .notice target text => some (target, text, false)
  | _ => none

def senderOf (m : IrcMessage) : String × Bool :=
  match m.source with
  | some (.nickname nick _ _) => (nick, true)
  | some (.serverName name) => (name, false)
  | none => ("server", false)

def showRequest (s : CtcpReplies) (sender : String) (user toChannel : Bool)
    (dest localTime tag params : String) : Handled :=
  let answer := if user && !toChannel && validNickname sender then s.answer localTime tag params
    else none
  { events := [.request (shownTag tag) (plain sender) dest answer.isSome]
    send := (answer.map fun body => .notice sender (delimiter ++ body ++ delimiter)).toList }

/-- A request or reply that may be shown, within the budget. -/
def limited (s : CtcpReplies) (sender : String) (user toChannel request : Bool)
    (dest localTime tag params : String) (now : ℕ) : CtcpReplies × Handled :=
  if request then
    let (requests, admission) := s.requests.admitEvent sender now
    let s := { s with requests }
    match admission with
    | .admitted => (s, s.showRequest sender user toChannel dest localTime tag params)
    | .refused => (s, { events := [.tooManyRequests (shownTag tag) (plain sender)] })
    | .muted => (s, {})
  else
    let (replies, admission) := s.replies.admitEvent sender now
    let s := { s with replies }
    match admission with
    | .admitted =>
      (s, { events := [.reply (shownTag tag) (plain sender) dest (shownParams params)] })
    | .refused => (s, { events := [.tooManyReplies (shownTag tag) (plain sender)] })
    | .muted => (s, {})

/-- Handles a CTCP message other than ACTION, which goes no further then. -/
def observe (s : CtcpReplies) (m : IrcMessage) (currentNick : String) (replayed : Bool)
    (localTime : String) (now : ℕ) : CtcpReplies × Option Handled :=
  match textOf m with
  | none => (s, none)
  | some (target, text, request) =>
    match split text with
    | none => (s, none)
    | some (tag, params) =>
      let (sender, user) := senderOf m
      -- a STATUSMSG reaches part of a channel
      let toChannel := validChannel (trimStartMatches ['~', '@', '%', '+'] target)
      if eqIgnoreAsciiCase tag "ACTION" then (s, none)
      else if replayed || (user && s.casemapping.same sender currentNick) then (s, some {})
      else if !toChannel && !s.casemapping.same target currentNick then (s, some {})
      else
        match if !request && user && !toChannel && eqIgnoreAsciiCase tag "PING" then
          s.roundTrip sender params now else none with
        | some (s, line) => (s, some { events := [line] })
        | none =>
          let dest := if toChannel then " to " ++ plain target else ""
          let (s, handled) :=
            s.limited sender user toChannel request dest localTime tag params now
          (s, some handled)

end CtcpReplies

end CayenChat.Ctcp
