import CayenChat.Sasl.Scram
import CayenChat.Wire.Message

/-! # The SASL exchange

The handshake after the capability is acknowledged, for each mechanism. An
error ends it, with the notes of the failure.
-/

namespace CayenChat

inductive SaslMechanism
  | plain | scramSha1 | scramSha256 | scramSha512 | ecdsaNist256pChallenge
  deriving DecidableEq, Repr

namespace SaslMechanism

def name : SaslMechanism → String
  | plain => "PLAIN"
  | scramSha1 => "SCRAM-SHA-1"
  | scramSha256 => "SCRAM-SHA-256"
  | scramSha512 => "SCRAM-SHA-512"
  | ecdsaNist256pChallenge => "ECDSA-NIST256P-CHALLENGE"

def scramHash : SaslMechanism → Option Scram.Hash
  | plain | ecdsaNist256pChallenge => none
  | scramSha1 => some .sha1
  | scramSha256 => some .sha256
  | scramSha512 => some .sha512

end SaslMechanism

structure SaslCredentials where
  mechanism : SaslMechanism
  username : String
  password : String
  deriving DecidableEq, Repr

/-- One `AUTHENTICATE` line carries at most this many base64 characters. -/
def saslChunk : ℕ := 400

def maxIncoming : ℕ := 8 * 1024
def challengeBytes : ℕ := 32

def ecdsaKeyUnreadable : String :=
  "The SASL private key is missing or unreadable; set a key for this server."

def saslFailed : String := "SASL authentication failed."

def saslKeyRefused : String :=
  "SASL authentication failed: the server refused the key. " ++
    "Check that the key is registered for this account."

inductive SaslPhase
  | idle | starting | scramFirst | keyDerivation | scramFinal | ecdsaChallenge | waitingForResult
  | complete
  deriving DecidableEq, Repr

/-- What one incoming message makes the handshake do. -/
structure Out where
  send : List IrcCommand := []
  notes : List String := []
  derive : Option Scram.Job := none
  deriving DecidableEq, Repr

/-- Why an exchange or a negotiation ended, with the notes it leaves. -/
structure Refusal where
  reason : String
  notes : List String := []
  deriving DecidableEq, Repr

structure SaslHandshake where
  mechanism : SaslMechanism
  username : String
  password : String
  phase : SaslPhase := .idle
  scram : Option Scram := none
  /-- Base64 of the server message being received. -/
  incoming : String := ""
  deriving DecidableEq, Repr

namespace SaslHandshake

def new (credentials : SaslCredentials) : SaslHandshake :=
  { mechanism := credentials.mechanism, username := credentials.username,
    password := credentials.password }

def complete (s : SaslHandshake) : Bool := s.phase == .complete

def stage (s : SaslHandshake) : String :=
  match s.phase with
  | .idle => "waiting for the sasl capability"
  | .starting => "waiting for the server's AUTHENTICATE + (before client-first)"
  | .scramFirst => "waiting for the SCRAM server-first message (client-first sent)"
  | .keyDerivation => "deriving the SCRAM keys (server-first accepted)"
  | .scramFinal => "waiting for the SCRAM server-final message (client-final sent)"
  | .ecdsaChallenge => "waiting for the ECDSA challenge (account name sent)"
  | .waitingForResult => "waiting for the SASL result"
  | .complete => "complete"

def chunks (n : ℕ) : ℕ → List Char → List (List Char)
  | 0, _ => []
  | fuel + 1, l => if l = [] then [] else l.take n :: chunks n fuel (l.drop n)

/-- `AUTHENTICATE` lines; a message that fills its last line ends with `+`. -/
def authenticateLines (c : Crypto) (payload : List UInt8) : List IrcCommand :=
  let encoded := (c.encode payload).toList
  (chunks saslChunk encoded.length encoded).map (fun l => .authenticate (String.ofList l)) ++
    if encoded.length % saslChunk = 0 then [.authenticate "+"] else []

def safeText (text : String) : String :=
  let text := String.ofList ((text.toList.filter (!isControl ·)).take 120)
  if text = "" then "none given" else text

def knownServerErrors : List String :=
  ["invalid-encoding", "extensions-not-supported", "invalid-proof", "channel-bindings-dont-match",
    "server-does-not-support-channel-binding", "channel-binding-not-supported",
    "unsupported-channel-binding-type", "unknown-user", "invalid-username-encoding",
    "no-resources", "other-error"]

/-- The `e=` value of a SCRAM message as a fixed label. A comma and the known labels are ASCII, so
that the bytes decide. -/
def serverErrorValue (payload : List UInt8) : String :=
  let value := (payload.splitOnP (· == 44)).findSome? fun part =>
    match part with
    | 101 :: 61 :: value => some value
    | _ => none
  (knownServerErrors.find? fun known => utf8Bytes known == value.getD []).getD
    "unrecognized value (not shown)"

/-- A failure of the client's own protocol checks, not a server refusal. -/
def clientError (s : SaslHandshake) (stage error : String) (notes : List String) : Refusal :=
  { reason := error
    notes := notes ++ ["SASL: " ++ s.mechanism.name ++ " stopped by a client-side check while " ++
      stage ++ ": " ++ error] }

/-- Starts the exchange: the mechanism is named. -/
def start (c : Crypto) (random : Option (List UInt8)) (s : SaslHandshake) :
    Except Refusal (SaslHandshake × Out) :=
  let ecdsa := s.mechanism == .ecdsaNist256pChallenge
  let readable := c.keyIsValid s.password
  let notes := if ecdsa then
    ["SASL ECDSA: the private key " ++
      (if readable then "was read" else "is missing or unreadable") ++ "."] else []
  let scram : Except String (Option Scram) := match s.mechanism.scramHash with
    | some hash => (Scram.new c random hash s.username s.password).map some
    | none => .ok none
  if ecdsa && !readable then .error { reason := ecdsaKeyUnreadable, notes }
  else
    match scram with
    | .error reason => .error { reason }
    | .ok scram =>
      .ok ({ s with scram, phase := .starting },
        { send := [.authenticate s.mechanism.name]
          notes := notes ++ ["SASL: starting " ++ s.mechanism.name ++ " (TLS-protected exchange)."] })

def finishIncoming (c : Crypto) (s : SaslHandshake) :
    Except String (SaslHandshake × List UInt8) :=
  match c.decode s.incoming with
  | some payload => .ok ({ s with incoming := "" }, payload)
  | none => .error "The SASL challenge from the server is not base64."

/-- Reassembles a server message: a line of 400 characters continues, a shorter one ends it. -/
def receive (c : Crypto) (s : SaslHandshake) (chunk : String) :
    Except String (SaslHandshake × Option (List UInt8)) :=
  if s.phase = .idle ∨ s.phase = .complete then .ok (s, none)
  else if chunk = "+" then (s.finishIncoming c).map fun (s, payload) => (s, some payload)
  else if saslChunk < byteLen chunk ∨ maxIncoming < byteLen s.incoming + byteLen chunk then
    .error "The SASL challenge from the server is too long."
  else
    let s := { s with incoming := s.incoming ++ chunk }
    if byteLen chunk = saslChunk then .ok (s, none)
    else (s.finishIncoming c).map fun (s, payload) => (s, some payload)

/-- A complete server message; an error comes with the notes of the message so far. -/
def handle (c : Crypto) (s : SaslHandshake) (payload : List UInt8) :
    Except (String × List String) (SaslHandshake × Out) :=
  match s.phase with
  | .starting =>
    if payload ≠ [] then .error ("The server's first SASL challenge was not empty.", [])
    else
      let initial (s : SaslHandshake) (response : List UInt8) : SaslHandshake × Out :=
        ({ s with password := "" },
          { send := authenticateLines c response
            notes := ["SASL: sending the " ++ s.mechanism.name ++ " initial response (" ++
              toString response.length ++ " bytes)."] })
      match s.scram with
      | some scram => .ok (initial { s with phase := .scramFirst } (utf8Bytes scram.firstMessage))
      | none =>
        if s.mechanism = .ecdsaNist256pChallenge then
          .ok ({ s with phase := .ecdsaChallenge },
            { send := authenticateLines c (utf8Bytes s.username)
              notes := ["SASL ECDSA: sending the account name (" ++
                toString (byteLen s.username) ++ " bytes)."] })
        else
          .ok (initial { s with phase := .waitingForResult }
            (0 :: utf8Bytes s.username ++ 0 :: utf8Bytes s.password))
  | .ecdsaChallenge =>
    if payload.length ≠ challengeBytes then
      .error ("The ECDSA challenge from the server is " ++ toString payload.length ++
        " bytes, not 32.", [])
    else
      let received := "SASL ECDSA: challenge received (" ++ toString payload.length ++ " bytes)."
      match c.sign s.password payload with
      | .error error => .error ("The ECDSA challenge could not be signed: " ++ error, [received])
      | .ok signature =>
        .ok ({ s with password := "", phase := .waitingForResult },
          { send := authenticateLines c signature
            notes := [received, "SASL ECDSA: challenge signed; sending the signature (" ++
              toString signature.length ++ " bytes)."] })
  | .scramFirst =>
    match s.scram with
    | none => .error ("Unexpected SASL state.", [])
    | some scram =>
      match scram.serverFirst c payload with
      | .error error => .error (error, [])
      | .ok (scram, job) =>
        .ok ({ s with scram := some scram, phase := .keyDerivation },
          { notes := ["SASL SCRAM: server-first accepted (" ++ toString payload.length ++
              " bytes, " ++ toString scram.iterations ++ " iterations)."]
            derive := some job })
  | .scramFinal =>
    match s.scram with
    | none => .error ("Unexpected SASL state.", [])
    | some scram =>
      match scram.serverFinal c payload with
      | .error error => .error (error, [])
      | .ok _ =>
        .ok ({ s with scram := none, phase := .waitingForResult },
          { send := [.authenticate "+"], notes := ["SASL SCRAM: server signature verified."] })
  | _ => .error ("Unexpected SASL challenge while " ++ s.stage ++ ".", [])

/-- An `AUTHENTICATE` line. -/
def observeChunk (c : Crypto) (s : SaslHandshake) (chunk : String) :
    Except Refusal (SaslHandshake × Out) :=
  match s.receive c chunk with
  | .error error => .error (s.clientError s.stage error [])
  | .ok (s', none) => .ok (s', {})
  | .ok (s', some payload) =>
    match s'.handle c payload with
    | .ok result => .ok result
    | .error (error, notes) =>
      if error ≠ Scram.rejected then .error (s.clientError s.stage error notes)
      else
        .error {
          reason := saslFailed
          notes := notes ++ ["SASL: the server rejected " ++ s.mechanism.name ++ " while " ++
            s.stage ++ " (SCRAM error: " ++ serverErrorValue payload ++ ")."] }

def isRefusal (r : Response) : Bool :=
  [Response.errNickLocked, .errSaslFail, .errSaslTooLong, .errSaslAbort, .errSaslAlready].contains r

/-- A line from the server. -/
def observe (c : Crypto) (s : SaslHandshake) (m : IrcMessage) :
    Except Refusal (SaslHandshake × Out) :=
  match m.command with
  | .authenticate chunk => s.observeChunk c chunk
  | .response response args =>
    if response = .rplSaslSuccess then
      match s.phase with
      | .waitingForResult =>
        .ok ({ s with phase := .complete }, { notes := ["SASL: authentication succeeded (903)."] })
      | .idle | .complete => .ok (s, {})
      | _ => .error { reason := "The server reported SASL success while " ++ s.stage ++ "." }
    else if response = .rplSaslMechs ∧ s.phase ≠ .idle then
      .ok (s, { notes := ["SASL: the server lists mechanisms (908): " ++
        safeText (args[1]?.getD "") ++ "."] })
    else if isRefusal response then
      .error {
        reason := if s.mechanism = .ecdsaNist256pChallenge then saslKeyRefused else saslFailed
        notes := ["SASL: the server refused " ++ s.mechanism.name ++ " with " ++
          toString response.code ++ " while " ++ s.stage ++ " (reason: " ++
          safeText (args.getLast?.getD "") ++ ")."] }
    else .ok (s, {})
  | _ => .ok (s, {})

/-- The finished derivation: client-final is sent. -/
def derived (c : Crypto) (s : SaslHandshake) (d : Scram.Derived) :
    Except Refusal (SaslHandshake × Out) :=
  match s.scram with
  | none => .error { reason := "Unexpected SASL state." }
  | some scram =>
    if s.phase ≠ .keyDerivation then .error { reason := "Unexpected SCRAM derivation result." }
    else
      let (scram, response) := scram.derived c d
      .ok ({ s with scram := some scram, phase := .scramFinal },
        { send := authenticateLines c (utf8Bytes response)
          notes := ["SASL SCRAM: client proof computed; sending client-final (" ++
            toString (byteLen response) ++ " bytes)."] })

/-! ## What a step of the exchange does -/

/-- The exchange sends `AUTHENTICATE` lines only. -/
def Authenticates (send : List IrcCommand) : Prop := ∀ cmd ∈ send, ∃ data, cmd = .authenticate data

theorem authenticates_nil : Authenticates [] := by simp [Authenticates]

theorem authenticates_singleton (data : String) : Authenticates [.authenticate data] := by
  simp [Authenticates]

theorem authenticates_lines (c : Crypto) (payload : List UInt8) :
    Authenticates (authenticateLines c payload) := by
  intro cmd h
  simp only [authenticateLines, List.mem_append, List.mem_map] at h
  rcases h with ⟨l, -, rfl⟩ | h
  · exact ⟨_, rfl⟩
  · split at h
    · exact ⟨"+", List.mem_singleton.mp h⟩
    · cases h

section Effects

variable {c : Crypto} {s s' : SaslHandshake} {out : Out} {m : IrcMessage}

theorem start_ok {random : Option (List UInt8)} (h : s.start c random = .ok (s', out)) :
    s'.phase = .starting ∧ Authenticates out.send := by
  unfold start at h
  dsimp only at h
  split at h
  · cases h
  · split at h
    · cases h
    · cases h
      exact ⟨rfl, authenticates_singleton _⟩

theorem finishIncoming_ok {payload : List UInt8} (h : s.finishIncoming c = .ok (s', payload)) :
    s'.phase = s.phase := by
  unfold finishIncoming at h
  split at h <;> cases h
  rfl

theorem receive_ok {chunk : String} {payload : Option (List UInt8)}
    (h : s.receive c chunk = .ok (s', payload)) : s'.phase = s.phase := by
  have finish (s₀ : SaslHandshake) (hs : s₀.phase = s.phase)
      (h : (s₀.finishIncoming c).map (fun r => (r.1, some r.2)) = .ok (s', payload)) :
      s'.phase = s.phase := by
    cases hf : s₀.finishIncoming c with
    | error e => rw [hf] at h; cases h
    | ok r => rw [hf] at h; cases h; exact (finishIncoming_ok hf).trans hs
  unfold receive at h
  split at h
  · cases h; rfl
  · split at h
    · exact finish s rfl h
    · split at h
      · cases h
      · dsimp only at h
        split at h
        · cases h; rfl
        · exact finish { s with incoming := s.incoming ++ chunk } rfl h

theorem handle_ok {payload : List UInt8} (h : s.handle c payload = .ok (s', out)) :
    s'.phase ≠ .complete ∧ Authenticates out.send := by
  unfold handle at h
  split at h
  · split at h
    · cases h
    · dsimp only at h
      split at h
      · cases h
        exact ⟨by simp, authenticates_lines c _⟩
      · split at h <;> cases h <;> exact ⟨by simp, authenticates_lines c _⟩
  · split at h
    · cases h
    · dsimp only at h
      split at h <;> cases h
      exact ⟨by simp, authenticates_lines c _⟩
  · split at h
    · cases h
    · split at h <;> cases h
      exact ⟨by simp, authenticates_nil⟩
  · split at h
    · cases h
    · split at h <;> cases h
      exact ⟨by simp, authenticates_singleton _⟩
  · cases h

theorem observeChunk_ok {chunk : String} (h : s.observeChunk c chunk = .ok (s', out)) :
    (s'.complete → s.complete) ∧ Authenticates out.send := by
  unfold observeChunk at h
  split at h
  · cases h
  · rename_i hr
    cases h
    exact ⟨fun hc => by rwa [complete, ← receive_ok hr], authenticates_nil⟩
  · split at h
    · rename_i hh
      cases h
      exact ⟨fun hc => absurd (by simpa [complete] using hc) (handle_ok hh).1, (handle_ok hh).2⟩
    · split at h <;> cases h

/-- Whether the server's confirmation of the exchange reaches a client that waits for it. -/
def confirms (s : SaslHandshake) (m : IrcMessage) : Bool :=
  s.phase == .waitingForResult &&
    match m.command with
    | .response response _ => response == .rplSaslSuccess
    | _ => false

theorem observe_ok (h : s.observe c m = .ok (s', out)) :
    (s'.complete → s.complete ∨ s.confirms m) ∧ Authenticates out.send := by
  unfold observe at h
  split at h
  · exact ⟨fun hc => .inl ((observeChunk_ok h).1 hc), (observeChunk_ok h).2⟩
  · rename_i response args hm
    split at h
    · rename_i hr
      subst hr
      split at h <;> cases h
      · rename_i hp
        exact ⟨fun _ => .inr (by simp [confirms, hp, hm]), authenticates_nil⟩
      · exact ⟨.inl, authenticates_nil⟩
      · exact ⟨.inl, authenticates_nil⟩
    · split at h
      · cases h
        exact ⟨.inl, authenticates_nil⟩
      · split at h <;> cases h
        exact ⟨.inl, authenticates_nil⟩
  · cases h
    exact ⟨.inl, authenticates_nil⟩

theorem derived_ok {d : Scram.Derived} (h : s.derived c d = .ok (s', out)) :
    s'.phase ≠ .complete ∧ Authenticates out.send := by
  unfold derived at h
  split at h
  · cases h
  · split at h
    · cases h
    · dsimp only at h
      cases h
      exact ⟨by simp, authenticates_lines c _⟩

end Effects

end SaslHandshake

end CayenChat
