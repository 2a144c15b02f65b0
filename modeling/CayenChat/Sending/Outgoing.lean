import CayenChat.Charset.Lines

/-! # What is queued for the worker, and its checks

A message to others must fit into a line together with the prefix the server
puts in front of it when relaying.
-/

namespace CayenChat.Sending

open Charset

theorem trimEnd_append {cs rest : List Char} {ch : Char} {p : Char → Bool} (h : p ch = false) :
    ((cs ++ ch :: rest).reverse.dropWhile p).reverse =
      cs ++ ch :: (rest.reverse.dropWhile p).reverse := by
  rw [List.reverse_append, List.reverse_cons, List.append_assoc, List.dropWhile_append]
  split
  · rename_i he
    rw [List.isEmpty_iff.mp he, List.singleton_append,
      List.dropWhile_cons_of_neg (by simp [h])]
    simp
  · simp

/-- A message to a channel or a user; its encoding was fixed when it was accepted. -/
structure ChatMessage (ε : Type*) where
  target : String
  text : String
  displayText : String
  notice : Bool
  /-- The encoding of the text (`none` is the server's). -/
  encoder : Option ε
  deriving DecidableEq

/-- What the worker is asked to do. -/
inductive Outgoing (ε : Type*)
  | message (message : ChatMessage ε)
  | raw (message : IrcMessage)
  /-- The messages of a paste of several lines. -/
  | lines (lines : List (ChatMessage ε))
  /-- Our own CTCP request to a user; the worker adds the token of a timed PING. -/
  | ctcp (nick tag args : String)
  | ownAvatar (url : Option String)
  | shareAvatar (url : Option String)
  | queryAvatar (nickname : String)
  | setName (realname : String)
  | olderHistory (channel : String)
  | checkAlive
  | quit
  /-- Quit with the reason the user typed instead of the configured one. -/
  | quitWith (reason : String)
  | sleepQuit (reason : String)
  deriving DecidableEq

def realnameDefault : String := "CayenChat"

def baseRealname (configured : String) : String :=
  let configured := trim configured
  if configured = "" then realnameDefault else configured

def maxLine : ℕ := 512

def ctcpQuote : String := (Char.ofNat 1).toString

def ChatMessage.command {ε : Type*} (m : ChatMessage ε) : IrcCommand :=
  if m.notice then .notice m.target m.text else .privmsg m.target m.text

/-- How lines are written: the connection's encoding, by its label, and those of the texts. -/
structure Wire (ε : Type*) where
  label : String
  charsets : Option (List Char → Option ε)

section Checks

variable {ε : Type*} [DecidableEq ε] (c : Encoders ε) (name : ε → String)

/-- A text as it goes on the wire, or why it cannot be sent. -/
def encodeStrict (text : String) (wire : Wire ε) : Except String (List UInt8) :=
  match c.resolve wire.label with
  | none => .error ("Unsupported character encoding: " ++ wire.label)
  | some charset =>
    match encodeLine c text charset wire.charsets with
    | (bytes, none) => .ok bytes
    | (_, some failed) =>
      let name := if failed = charset then wire.label else name failed
      .error ("Text contains a character that cannot be encoded as " ++ name ++ ".")

def validateWire (text : String) (wire : Wire ε) : Except String Unit := do
  let bytes ← encodeStrict c name text wire
  if bytes.length > maxLine then throw "IRC command exceeds the 512-byte wire limit."

def thirdPart (line : String) : Option String :=
  (splitOnce ' ' line).bind fun split => (splitOnce ' ' split.2).map Prod.snd

/-- Whether the server writes a `:` that the line goes out without: a text of one word has none. -/
def relayedColon (text : String) : Bool :=
  (thirdPart (trimEndMatches ['\r', '\n'] text)).any fun text => !startsWithAny [':'] text

/-- The check of a message to others: it must also fit behind the prefix the server adds. -/
def validateRelayedWire (text : String) (wire : Wire ε) (prefixBytes : ℕ) : Except String Unit := do
  validateWire c name text wire
  let bytes ← encodeStrict c name text wire
  let needed := bytes.length + if relayedColon text then 1 else 0
  if needed + prefixBytes > maxLine then
    throw ("Message is too long: " ++ toString (maxLine - prefixBytes) ++
      " bytes of the 512-byte line remain for the command and text once the server adds your " ++
      "nick!user@host, but it needs " ++ toString needed ++ ".")

/-- The command something queued is checked as; `none` when there is nothing to check. -/
def Outgoing.checkedAs : Outgoing ε → Option IrcMessage
  | message m => some { command := m.command }
  | raw m => some m
  -- The longest form: PING carries a token.
  | ctcp nick tag args =>
    let text := ctcpQuote ++ tag ++ " " ++ args ++ " 0123456789abcdef0123" ++ ctcpQuote
    some { command := .privmsg nick text }
  | ownAvatar url => some { command := .raw "METADATA" (["*", "SET", "avatar"] ++ url.toList) }
  | shareAvatar url =>
    let text := ctcpQuote ++ "AVATAR " ++ url.getD "" ++ ctcpQuote
    some { command := .notice "*" text }
  | queryAvatar nickname =>
    some { command := .privmsg nickname (ctcpQuote ++ "AVATAR" ++ ctcpQuote) }
  -- Built and checked by the worker, whose reference types decide it.
  | olderHistory channel => some { command := .raw "CHATHISTORY" ["BEFORE", channel, "*", "1"] }
  -- The mark of an avatar is checked by the worker; this is the lower bound.
  | setName realname => some { command := .raw "SETNAME" [baseRealname realname] }
  -- Each line was checked on its own.
  | quit | checkAlive | lines _ => none
  | quitWith reason | sleepQuit reason => some { command := .quit (some reason) }

/-- Checks what is about to be queued. -/
def validateOutgoingRelayed (outgoing : Outgoing ε) (wire : Wire ε) (prefixBytes : ℕ) :
    Except String Unit :=
  match outgoing.checkedAs with
  | none => .ok ()
  | some message =>
    match outgoing with
    | .message m =>
      validateRelayedWire c name message.toLine { wire with charsets := some fun _ => m.encoder }
        prefixBytes
    | _ => validateWire c name message.toLine wire

end Checks

end CayenChat.Sending

/-! ## How much of a line the server takes for itself

The server puts `:nick!user@host ` in front of a message it relays. Our user
and host are learned from our own lines, the welcome text, `CHGHOST` and the
reply about a hidden host; until then the usual sizes are assumed.
-/

namespace CayenChat.Sending

open Charset

def assumedUserBytes : ℕ := 10

def assumedHostBytes : ℕ := 63

def maxMaskPartBytes : ℕ := 255

@[match_pattern] abbrev rplHostHidden : Response := ⟨396⟩

def isPlausible (part : String) : Bool :=
  part ≠ "" && byteLen part ≤ maxMaskPartBytes &&
    !part.toList.any fun c => isWhitespace c || isControl c || c == '!' || c == '@'

/-- Our user and host as the server relays them; `none` while unknown. -/
structure OwnMask where
  user : Option String := none
  host : Option String := none
  deriving DecidableEq, Repr

def welcomeMask (args : List String) : Option (String × String) := do
  let text ← args.getLast?
  let word ← (splitWhitespace text).getLast?
  let (nick, userHost) ← splitOnce '!' word
  if args.head? = some nick then splitOnce '@' userHost else none

def hiddenHost (args : List String) (currentNick : String) : Option String :=
  match args with
  | nick :: host :: _ => if nick = currentNick then some host else none
  | _ => none

namespace OwnMask

def setMask (m : OwnMask) (user host : String) : OwnMask × Bool :=
  if !(isPlausible user && isPlausible host) then (m, false)
  else
    let changed := m.user ≠ some user || m.host ≠ some host
    if changed then (⟨some user, some host⟩, true) else (m, false)

def setHost (m : OwnMask) (host : String) : OwnMask × Bool :=
  if !isPlausible host || m.host = some host then (m, false)
  else ({ m with host := some host }, true)

def observeSource (m : OwnMask) (message : IrcMessage) (currentNick : String) : OwnMask × Bool :=
  match message.source with
  | some (.nickname nick user host) =>
    if nick = currentNick then m.setMask user host else (m, false)
  | _ => (m, false)

/-- Learns from a message what our user and host are, and whether the mask changed. -/
def observe (m : OwnMask) (message : IrcMessage) (currentNick : String) : OwnMask × Bool :=
  let own := message.sourceNickname = some currentNick
  match message.command with
  | .other "CHGHOST" [user, host] =>
    if own then m.setMask user host else m.observeSource message currentNick
  | .response .rplWelcome args =>
    match welcomeMask args with
    | some (user, host) => m.setMask user host
    | none => (m, false)
  | .response rplHostHidden args =>
    match hiddenHost args currentNick with
    | some host => m.setHost host
    | none => (m, false)
  | _ => m.observeSource message currentNick

section PrefixBytes

variable {ε : Type*} [DecidableEq ε] (c : Encoders ε) (name : ε → String)

/-- The size of a text in the connection's encoding; its UTF-8 size when it cannot be encoded. -/
def wireLen (text label : String) : ℕ :=
  match encodeStrict c name text ⟨label, none⟩ with
  | .ok bytes => bytes.length
  | .error _ => byteLen text

/-- Bytes the server adds in front of a line we send. -/
def prefixBytes (m : OwnMask) (nick label : String) : ℕ :=
  let user := match m.user with
    | some user => wireLen c name user label
    | none => assumedUserBytes
  let host := match m.host with
    | some host => wireLen c name host label
    | none => assumedHostBytes
  4 + wireLen c name nick label + user + host

end PrefixBytes

end OwnMask

end CayenChat.Sending
