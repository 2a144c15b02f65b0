import CayenChat.Cap.Coherence
import CayenChat.Cap.Link
import CayenChat.Lib.Machine

/-! # A client connected to a server

The negotiation runs against a server that handles the requests in order and
may withdraw and announce capabilities at any time. Each line is read by the
client as the library hands it over.
-/

namespace CayenChat

open Capability

def isWord (token : String) : Bool :=
  token != "" && token.toList.all fun c => !isWhitespace c

namespace ServerLine

/-- A line as the client receives it. -/
def message : ServerLine → IrcMessage
  | offers true tokens => { command := .cap (some "*") .ls (some (joinWith " " tokens)) none }
  | offers false tokens =>
    { command := .cap (some "*") .ls (some "*") (some (joinWith " " tokens)) }
  | ack token => { command := .cap (some "*") .ack (some token) none }
  | nak name => { command := .cap (some "*") .nak (some name) none }
  | new tokens => { command := .cap (some "*") .new (some (joinWith " " tokens)) none }
  | del names => { command := .cap (some "*") .del (some (joinWith " " names)) none }
  | other m => m

/-- The lines of a server's answer to `CAP LS`. -/
def listing (parts : List (List String)) : List ServerLine :=
  parts.dropLast.map (.offers false) ++ [.offers true (parts.getLast?.getD [])]

end ServerLine

/-- A command of the client as a request in flight, with the server's lines still in flight. -/
def Ask.ofCommand (lines : List ServerLine) : IrcCommand → Option Ask
  | .cap none .ls _ none => some .ls
  | .cap none .req none (some name) =>
    match stripFirst '-' name with
    | some name => some (.off name)
    | none => some (.on name (decide (∃ line ∈ lines, name ∈ line.withdraws)))
  | _ => none

/-- The negotiation of a client and its server. -/
structure Connection where
  client : CapNegotiation
  /-- What the server offers. -/
  offered : Finset String
  /-- What the server considers enabled. -/
  enabled : Finset String := ∅
  requests : List Ask := []
  replies : List ServerLine := []

/-- What happens on a connection. -/
inductive ConnectionAct
  /-- The server handles the next request; a listing is split into the parts. -/
  | serve (parts : List (List String))
  /-- The client reads the next line. -/
  | deliver (random : Option (List UInt8))
  | withdraw (names : List String)
  | announce (tokens : List String)
  /-- The server sends a line that is no CAP reply. -/
  | say (m : IrcMessage)
  | derived (d : Scram.Derived)
  | registered

namespace Connection

def opened (options : Ircv3Options) (credentials : Option SaslCredentials) (utf8 : Bool)
    (offered : Finset String) : Connection :=
  let (client, cmd) := (CapNegotiation.new options credentials utf8).start
  { client, offered, requests := (Ask.ofCommand [] cmd).toList }

def send (s : Connection) (client : CapNegotiation) (lines : List ServerLine) (step : CapStep) :
    Connection :=
  { s with client, replies := lines,
           requests := s.requests ++ step.send.filterMap (Ask.ofCommand lines) }

def serve (s : Connection) (parts : List (List String)) : Connection :=
  match s.requests with
  | [] => s
  | .ls :: asks =>
    if parts.flatten.all isWord ∧
        (parts.flatten.map CapNegotiation.offerName).toFinset = s.offered then
      { s with requests := asks, replies := s.replies ++ ServerLine.listing parts }
    else s
  | .on name _ :: asks =>
    if name ∈ s.offered then
      { s with requests := asks, enabled := insert name s.enabled,
               replies := s.replies ++ [.ack name] }
    else { s with requests := asks, replies := s.replies ++ [.nak name] }
  | .off name :: asks =>
    { s with requests := asks, enabled := s.enabled.erase name,
             replies := s.replies ++ [.ack ("-" ++ name)] }

def step (c : Crypto) (s : Connection) : ConnectionAct → Except Refusal Connection
  | .serve parts => .ok (s.serve parts)
  | .deliver random =>
    match s.replies with
    | [] => .ok s
    | line :: lines =>
      (s.client.observe c random line.message).map fun (client, step) => s.send client lines step
  | .withdraw names =>
    .ok (if names.all isWord then
      { s with
        offered := s.offered.filter fun name => name ∉ names
        enabled := s.enabled.filter fun name => name ∉ names
        requests := s.requests.map (Ask.crossBy names)
        replies := s.replies ++ [.del names] }
    else s)
  | .announce tokens =>
    .ok (if tokens.all isWord then
      { s with
        offered := s.offered ∪ (tokens.map CapNegotiation.offerName).toFinset
        replies := s.replies ++ [.new tokens] }
    else s)
  | .say m =>
    .ok (if capReply m.command = none then { s with replies := s.replies ++ [.other m] } else s)
  | .derived d => (s.client.derived c d).map fun (client, step) => s.send client s.replies step
  | .registered => s.client.registered.map fun client => { s with client }

def crossedRefused (offered : Finset String) : Ask → Bool
  | .on name true => decide (name ∉ offered)
  | _ => true

def Uncrossed (s : Connection) : ConnectionAct → Prop
  | .serve _ => ∀ ask ∈ s.requests.head?, crossedRefused s.offered ask = true
  | _ => True

instance (s : Connection) : (act : ConnectionAct) → Decidable (s.Uncrossed act)
  | .serve _ => inferInstanceAs (Decidable (∀ ask ∈ s.requests.head?, _))
  | .deliver _ | .withdraw _ | .announce _ | .say _ | .derived _ | .registered => isTrue trivial

end Connection

end CayenChat
