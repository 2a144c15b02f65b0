import CayenChat.Sasl.Handshake
import Mathlib

/-! # Capability negotiation

One negotiation for each connection attempt. Every capability is requested on
its own; registration is ended once all requests are answered and SASL is
complete. A refusal ends the connection.
-/

namespace CayenChat

namespace Capability

def sasl : String := "sasl"
def messageTags : String := "message-tags"
def serverTime : String := "server-time"
def batch : String := "batch"
def echoMessage : String := "echo-message"
def labeledResponse : String := "labeled-response"
def accountNotify : String := "account-notify"
def extendedJoin : String := "extended-join"
def accountTag : String := "account-tag"
def setname : String := "setname"
def metadata : String := "draft/metadata-2"
def chathistory : String := "draft/chathistory"

def needsBatch (name : String) : Bool :=
  name == metadata || name == chathistory || name == labeledResponse

/-- Extensions that make the client want `name` without its own opt-in. -/
def dependents (name : String) : List String :=
  if name = batch then [metadata, chathistory, labeledResponse]
  else if name = messageTags then [chathistory, echoMessage, labeledResponse]
  else if name = serverTime then [chathistory, echoMessage]
  else []

end Capability

def maxOffered : ℕ := 256

def maxValueBytes : ℕ := 512

/-- The opt-in extensions of one connection. -/
structure Ircv3Options where
  messageTags : Bool := false
  serverTime : Bool := false
  batch : Bool := false
  metadata : Bool := false
  chathistory : Bool := false
  confirmedSending : Bool := false
  accounts : Bool := false
  deriving DecidableEq, Repr

inductive CapPhase
  | inactive | listing | requesting | ended
  deriving DecidableEq, Repr

/-- What one line makes the client do. -/
structure CapStep where
  send : List IrcCommand := []
  notes : List String := []
  derive : Option Scram.Job := none
  deriving DecidableEq, Repr

namespace CapStep

/-- A step followed by another one. -/
instance : Append CapStep where
  append s t := { send := s.send ++ t.send, notes := s.notes ++ t.notes,
                  derive := t.derive.or s.derive }

@[simp] theorem send_append (s t : CapStep) : (s ++ t).send = s.send ++ t.send := rfl

def ofOut (out : Out) : CapStep := { send := out.send, notes := out.notes, derive := out.derive }

@[simp] theorem send_ofOut (out : Out) : (ofOut out).send = out.send := rfl

end CapStep

/-- The command that asks for a capability, or with `-` to disable it. -/
def request (name : String) : IrcCommand := .cap none .req none (some name)

def capEnd : IrcCommand := .cap none .ending none none

/-- A server's CAP reply as subcommand, continuation and list. The arguments are read by
position, as the library takes a nickname for a subcommand. -/
def capReply : IrcCommand → Option (String × Bool × String)
  | .cap first subcommand third fourth =>
    match first.toList ++ subcommand.toStr :: third.toList ++ fourth.toList with
    | [_, subcommand] => some (toAsciiUppercase subcommand, false, "")
    | [_, subcommand, list] => some (toAsciiUppercase subcommand, false, list)
    | [_, subcommand, "*", list] => some (toAsciiUppercase subcommand, true, list)
    | _ => none
  | _ => none

structure CapNegotiation where
  phase : CapPhase := .inactive
  /-- Extensions still wanted, in request order. -/
  optional : List String
  /-- Extensions the user opted into directly; the others need a dependent on offer. -/
  explicit : List String
  sasl : Option SaslHandshake
  offered : AList fun _ : String => Option String := ∅
  enabled : Finset String := ∅
  /-- Requests without an answer yet. -/
  pending : List String := []
  /-- The relevant tokens of a multiline ACK until its last line. -/
  ackLines : List String := []

namespace CapNegotiation

open Capability

def new (options : Ircv3Options) (sasl : Option SaslCredentials) (utf8 : Bool) :
    CapNegotiation :=
  let keep (b : Bool) (names : List String) : List String := if b then names else []
  let optional :=
    keep ((options.messageTags || options.chathistory || options.confirmedSending) && utf8)
      [messageTags] ++
    keep (options.serverTime || options.chathistory || options.confirmedSending) [serverTime] ++
    keep (options.batch || options.metadata || options.chathistory ||
      options.confirmedSending && utf8) [batch] ++
    keep options.metadata [metadata] ++
    keep options.confirmedSending [echoMessage] ++
    keep (options.confirmedSending && utf8) [labeledResponse] ++
    keep options.accounts [accountNotify, extendedJoin] ++
    keep options.chathistory [chathistory]
  let explicit :=
    keep (options.messageTags && utf8) [messageTags] ++
    keep options.serverTime [serverTime] ++
    keep options.batch [batch] ++
    keep options.metadata [metadata] ++
    keep options.confirmedSending [echoMessage] ++
    keep (options.confirmedSending && utf8) [labeledResponse] ++
    keep options.accounts [accountNotify, extendedJoin] ++
    keep options.chathistory [chathistory]
  -- Asked for only when a negotiation happens anyway.
  let also := keep (sasl.isSome || optional ≠ []) (keep utf8 [accountTag] ++ [setname])
  { optional := optional ++ also, explicit := explicit ++ also
    sasl := sasl.map SaslHandshake.new }

def start (n : CapNegotiation) : CapNegotiation × IrcCommand :=
  if n.sasl.isSome || n.optional ≠ [] then
    ({ n with phase := .listing }, .cap none .ls (some "302") none)
  else (n, capEnd)

def saslDone (n : CapNegotiation) : Bool := n.sasl.all SaslHandshake.complete

def registered (n : CapNegotiation) : Except Refusal CapNegotiation :=
  if n.sasl.any fun sasl => !sasl.complete then
    .error { reason := "SASL authentication did not complete before registration." }
  else .ok { n with sasl := none, phase := if n.phase ≠ .inactive then .ended else n.phase }

/-- Whether `acknowledge` would act on a token. -/
def relevant (n : CapNegotiation) (token : String) : Bool :=
  match stripFirst '-' token with
  | some name => decide (name ∈ n.enabled)
  | none => decide (token ∈ n.pending)

def appendAck (n : CapNegotiation) (list : String) : CapNegotiation :=
  (splitWhitespace list).foldl (fun n token =>
    if n.relevant token && decide (token ∉ n.ackLines) then
      { n with ackLines := n.ackLines ++ [token] }
    else n) n

/-- One advertised token. What this connection may request is always kept. -/
def rememberOffer (n : CapNegotiation) (token : String) : CapNegotiation :=
  let (name, value) := match splitOnce '=' token with
    | some (name, value) => (name, some value)
    | none => (token, none)
  let wanted := decide (name = Capability.sasl ∨ name ∈ n.optional)
  if name = "" ∨ !wanted ∧ name ∉ n.offered ∧ maxOffered ≤ n.offered.entries.length then n
  else
    -- An overlong `sasl` list offers no mechanism, where a bare `sasl` would offer any.
    let value := match value with
      | some value =>
        if byteLen value ≤ maxValueBytes then some value
        else if name = Capability.sasl then some "" else none
      | none => none
    { n with offered := n.offered.insert name value }

def rememberOffers (n : CapNegotiation) (list : String) : CapNegotiation :=
  (splitWhitespace list).foldl rememberOffer n

/-- Whether an extension is to be requested now. -/
def requestable (n : CapNegotiation) (name : String) : Bool :=
  decide (name ∈ n.offered) && decide (name ∉ n.enabled) && decide (name ∉ n.pending) &&
    (!needsBatch name || decide (batch ∈ n.enabled)) &&
    (name != labeledResponse || decide (messageTags ∈ n.enabled)) &&
    (decide (name ∈ n.explicit) ||
      (dependents name).any fun dependent =>
        decide (dependent ∈ n.optional) && decide (dependent ∈ n.offered))

def requestEach : List String → CapNegotiation → CapNegotiation × CapStep
  | [], n => (n, {})
  | name :: names, n =>
    if n.requestable name then
      let (n', step) := requestEach names { n with pending := n.pending ++ [name] }
      (n', { send := [request name] } ++ step)
    else requestEach names n

def requestOptional (n : CapNegotiation) : CapNegotiation × CapStep := requestEach n.optional n

/-- Whether the server lists the mechanism; a bare `sasl` lists every one. -/
def offersMechanism (n : CapNegotiation) (wanted : String) : Bool :=
  match n.offered.lookup Capability.sasl with
  | some none => true
  | some (some mechanisms) => (splitChar ',' mechanisms).any (eqIgnoreAsciiCase · wanted)
  | none => false

def requestAfterListing (n : CapNegotiation) : Except Refusal (CapNegotiation × CapStep) :=
  let n := { n with phase := .requesting }
  match n.sasl with
  | none => .ok n.requestOptional
  | some handshake =>
    let wanted := handshake.mechanism.name
    if n.offersMechanism wanted then
      let (n', step) := { n with pending := n.pending ++ [Capability.sasl] }.requestOptional
      .ok (n', { send := [request Capability.sasl],
                 notes := ["SASL " ++ wanted ++ " is offered; requesting sasl."] } ++ step)
    else .error { reason := "Server does not offer SASL " ++ wanted ++ "." }

def grant (n : CapNegotiation) (name : String) : CapNegotiation :=
  { n with pending := n.pending.erase name, enabled := insert name n.enabled }

/-- One token of an acknowledgement. -/
def acknowledgeToken (c : Crypto) (random : Option (List UInt8)) (n : CapNegotiation)
    (token : String) : Except Refusal (CapNegotiation × CapStep) :=
  match stripFirst '-' token with
  | some name => .ok ({ n with enabled := n.enabled.erase name }, {})
  | none =>
    if token ∈ n.pending then
      let n := n.grant token
      let step : CapStep := { notes := ["Capability " ++ token ++ " enabled."] }
      if token = Capability.sasl then
        match n.sasl with
        | some handshake => (handshake.start c random).map fun (handshake, out) =>
            ({ n with sasl := some handshake }, step ++ CapStep.ofOut out)
        | none => .ok (n, step)
      else if token = batch ∨ token = messageTags then
        -- What needs the capability may follow now.
        let (n, more) := n.requestOptional
        .ok (n, step ++ more)
      else .ok (n, step)
    else .ok (n, {})

def acknowledge (c : Crypto) (random : Option (List UInt8)) :
    List String → CapNegotiation → Except Refusal (CapNegotiation × CapStep)
  | [], n => .ok (n, {})
  | token :: tokens, n => do
    let (n, step) ← n.acknowledgeToken c random token
    let (n, more) ← acknowledge c random tokens n
    return (n, step ++ more)

/-- The names of a refused request. -/
def decline : List String → CapNegotiation → Except Refusal (CapNegotiation × CapStep)
  | [], n => .ok (n, {})
  | name :: names, n =>
    if name ∈ n.pending then
      if name = Capability.sasl then .error { reason := "Server rejected SASL capability." }
      else (decline names { n with pending := n.pending.erase name }).map fun (n, step) =>
        (n, { notes := ["Server declined optional capability " ++ name ++
          "; continuing without it."] } ++ step)
    else decline names n

/-- The capabilities the server withdraws. -/
def withdraw : List String → CapNegotiation → CapNegotiation × CapStep
  | [], n => (n, {})
  | name :: names, n =>
    let (n', step) := withdraw names { n with
      offered := n.offered.erase name, pending := n.pending.filter (· != name),
      enabled := n.enabled.erase name }
    (n', (if name ∈ n.enabled then { notes := ["Server withdrew capability " ++ name ++ "."] }
      else {}) ++ step)

def dropEach : List String → CapNegotiation → CapNegotiation × CapStep
  | [], n => (n, {})
  | name :: names, n =>
    if name ∈ n.enabled ∨ name ∈ n.pending then
      let (n', step) := dropEach names { n with
        enabled := n.enabled.erase name, pending := n.pending.filter (· != name) }
      (n', { send := [request ("-" ++ name)],
             notes := ["Capability " ++ batch ++ " is gone; disabling " ++ name ++
               ", which requires it."] } ++ step)
    else dropEach names n

def enforceDependencies (n : CapNegotiation) : CapNegotiation × CapStep :=
  if batch ∈ n.enabled then (n, {}) else dropEach [metadata, chathistory, labeledResponse] n

def endIfSettled (n : CapNegotiation) : CapNegotiation × CapStep :=
  if n.phase = .requesting ∧ n.pending = [] ∧ n.saslDone then
    ({ n with phase := .ended }, { send := [capEnd] })
  else (n, {})

def settle (n : CapNegotiation) : CapNegotiation × CapStep :=
  let (n, step) := n.enforceDependencies
  let (n, more) := n.endIfSettled
  (n, step ++ more)

/-- A CAP reply. -/
def capLine (c : Crypto) (random : Option (List UInt8)) (n : CapNegotiation)
    (subcommand : String) (continued : Bool) (list : String) :
    Except Refusal (CapNegotiation × CapStep) :=
  if subcommand = "LS" ∧ n.phase = .listing then
    let n := n.rememberOffers list
    if continued then .ok (n, {}) else n.requestAfterListing
  else if subcommand = "ACK" then
    let n := n.appendAck list
    if continued then .ok (n, {}) else acknowledge c random n.ackLines { n with ackLines := [] }
  else if subcommand = "NAK" then decline (splitWhitespace list) n
  else if subcommand = "NEW" then
    let n := n.rememberOffers list
    .ok (if n.phase ≠ .listing then n.requestOptional else (n, {}))
  else if subcommand = "DEL" then .ok (withdraw (splitWhitespace list) n)
  else .ok (n, {})

/-- A line, before what follows every line. -/
def line (c : Crypto) (random : Option (List UInt8)) (n : CapNegotiation) (m : IrcMessage) :
    Except Refusal (CapNegotiation × CapStep) :=
  match capReply m.command with
  | some (subcommand, continued, list) => n.capLine c random subcommand continued list
  | none =>
    match n.sasl with
    | some handshake => (handshake.observe c m).map fun (handshake, out) =>
        ({ n with sasl := some handshake }, CapStep.ofOut out)
    | none => .ok (n, {})

/-- Advances the negotiation by a line from the server. -/
def observe (c : Crypto) (random : Option (List UInt8)) (n : CapNegotiation) (m : IrcMessage) :
    Except Refusal (CapNegotiation × CapStep) :=
  if n.phase = .inactive then .ok (n, {})
  else do
    let (n, step) ← n.line c random m
    let (n, more) := n.settle
    return (n, step ++ more)

def derived (c : Crypto) (n : CapNegotiation) (d : Scram.Derived) :
    Except Refusal (CapNegotiation × CapStep) :=
  match n.sasl with
  | none => .error { reason := "Unexpected SCRAM result." }
  | some handshake => (handshake.derived c d).map fun (handshake, out) =>
      ({ n with sasl := some handshake }, CapStep.ofOut out)

def started (options : Ircv3Options) (sasl : Option SaslCredentials) (utf8 : Bool) :
    CapNegotiation := (new options sasl utf8).start.1

end CapNegotiation

/-- What the connection calls after the start. -/
inductive CapCall
  | line (m : IrcMessage) (random : Option (List UInt8))
  | derived (d : Scram.Derived)
  | registered
  deriving DecidableEq, Repr

namespace CapNegotiation

def call (c : Crypto) (n : CapNegotiation) : CapCall → Except Refusal (CapNegotiation × CapStep)
  | .line m random => n.observe c random m
  | .derived d => n.derived c d
  | .registered => n.registered.map fun n => (n, {})

end CapNegotiation

/-- A connection without SASL uses no cryptography. -/
def noCrypto : Crypto where
  encode _ := ""
  decode _ := none
  saslprep _ := none
  digest _ _ := []
  hmac _ _ _ := []
  pbkdf2 _ _ _ _ := []
  keyIsValid _ := false
  sign _ _ := .error ""

end CayenChat
