import Mathlib.Data.List.Basic

/-! # Connecting a server again

The flags and the token of one session that decide whether it connects: acts
of the user, ends of its connection, timers, answers of the credential store,
and notices of sleep and wake-up. What the configurations and the store hold
is an input: whether the settings changed, what is missing, whether a start
fails.
-/

namespace CayenChat.Reconnect

/-- What a password dialog goes on with. -/
inductive Resume
  /-- A new connection. -/
  | fresh
  /-- The last connection of the server, again. -/
  | reconnect
  deriving DecidableEq

/-- The passwords a configuration still lacks. -/
structure Missing where
  server : Bool := false
  sasl : Bool := false
  /-- There is no key to sign with. -/
  key : Bool := false
  deriving DecidableEq

def Missing.any (m : Missing) : Bool := m.server || m.sasl

/-- A read of the credential store that has not answered. -/
inductive Read
  /-- The passwords of the last connection. -/
  | reconnect (token : ℕ)
  /-- What is saved for a server that is connected by hand, or at startup. -/
  | saved
  | startup
  /-- The channel keys for a dialog that was submitted. -/
  | keys (resume : Resume)
  deriving DecidableEq

/-- What a read makes of the connection it is for. -/
inductive Found
  /-- The settings changed while it was queued. -/
  | stale
  /-- The settings make no configuration. -/
  | unusable
  | config (missing : Missing) (fails : Bool)
  deriving DecidableEq

structure CredentialPrompt where
  resume : Resume
  /-- The channel keys are being read for the submission. -/
  submitting : Bool := false
  deriving DecidableEq

structure ServerSession where
  /-- The connection, by its generation. -/
  irc : Option ℕ := none
  /-- There was a connection attempt, whose configuration is kept. -/
  activeConfig : Bool := false
  manualDisconnect : Bool := false
  /-- A startup connection is shown as connecting. -/
  starting : Bool := false
  /-- What is saved is being read to connect by hand. -/
  readingSaved : Bool := false
  /-- The connection was ended before the machine slept. -/
  asleep : Bool := false
  retryPending : Bool := false
  retryAttempt : ℕ := 0
  retryToken : ℕ := 0
  generation : ℕ := 0
  deriving DecidableEq

def ServerSession.used (s : ServerSession) : Bool := s.irc.isSome || s.activeConfig

/-- The chat window, as far as one session goes. -/
structure Chat where
  session : ServerSession := {}
  prompt : Option CredentialPrompt := none
  nickPrompt : Bool := false
  /-- The tokens of the timers that have not fired. -/
  timers : List ℕ := []
  reads : List Read := []
  /-- The connections that have neither ended nor been given up. -/
  live : List ℕ := []
  /-- The connection was told to end. -/
  quitting : Bool := false
  /-- How many connections were started. -/
  attempts : ℕ := 0
  /-- How many errors were shown. -/
  errors : ℕ := 0
  deriving DecidableEq

/-- How a connection ends. -/
inductive End
  | disconnected
  | closed
  /-- A refusal of the server, of a password or another one. -/
  | refused (password changed : Bool)
  deriving DecidableEq

inductive Act
  | connect (missing : Missing) (fails : Bool)
  | reconnect (changed : Bool)
  | disconnect
  | quit
  | retryNickname (changed : Bool)
  | submit (accepted changed : Bool)
  | cancel
  deriving DecidableEq

inductive Input
  | act (act : Act)
  | ended (generation : ℕ) (how : End)
  | registered (generation : ℕ)
  | nicknameRejected (generation : ℕ)
  | timer (token : ℕ) (changed : Bool)
  | answered (read : Read) (found : Found)
  | sleep
  | wake (changed : Bool)
  deriving DecidableEq

namespace Chat

def raiseError (c : Chat) : Chat := { c with errors := c.errors + 1 }

/-- A retry, unless the user or the sleep of the machine ended the connection. -/
def scheduleRetry (c : Chat) : Chat :=
  if c.session.manualDisconnect || c.session.asleep || !c.session.activeConfig then c
  else
    { c with
      session := { c.session with
        retryPending := true
        retryAttempt := c.session.retryAttempt + 1
        retryToken := c.session.retryToken + 1 }
      timers := c.timers ++ [c.session.retryToken + 1] }

/-- Starts a connection for the session as it is. -/
def start (c : Chat) (fails : Bool) : Chat :=
  let c := { c with attempts := c.attempts + 1 }
  if fails then c.scheduleRetry
  else
    { c with
      session := { c.session with irc := some c.session.generation }
      live := c.live ++ [c.session.generation]
      quitting := false }

def takeConnection (c : Chat) : Chat :=
  { c with
    session := { c.session with irc := none }
    live := c.live.filter fun g => c.session.irc ≠ some g }

def startReconnectWith (c : Chat) (fails : Bool) : Chat :=
  let c := c.takeConnection
  { c with
    session := { c.session with
      retryPending := false
      asleep := false
      generation := c.session.generation + 1 }
    -- A dialog from an earlier attempt would act on this connection.
    prompt := none }.start fails

/-- Starts a fresh session. -/
def applyConnection (c : Chat) (fails : Bool) : Chat :=
  let c := c.takeConnection
  { c with
    session := { c.session with
      activeConfig := true
      manualDisconnect := false
      asleep := false
      retryPending := false
      retryAttempt := 0
      retryToken := c.session.retryToken + 1
      generation := c.session.generation + 1 }
    prompt := none
    nickPrompt := false }.start fails

def openCredentialPrompt (c : Chat) (resume : Resume) : Chat := { c with prompt := some { resume } }

/-- Reads the stored passwords for the last connection, unless its settings changed. -/
def reconnectWithStoredSecrets (c : Chat) (changed : Bool) : Chat :=
  let c := { c with session := { c.session with
    retryPending := false
    retryToken := c.session.retryToken + 1 } }
  if changed then c.raiseError
  else { c with reads := c.reads ++ [.reconnect c.session.retryToken] }

def startReconnect (c : Chat) (changed : Bool) : Chat :=
  if c.session.activeConfig then c.reconnectWithStoredSecrets changed else c

def connectFresh (c : Chat) (missing : Missing) (fails : Bool) : Chat :=
  if missing.key then c.raiseError
  else if missing.any then c.openCredentialPrompt .fresh
  else c.applyConnection fails

def readSaved (c : Chat) : Chat :=
  { c with
    session := { c.session with readingSaved := true }
    reads := c.reads ++ [.saved] }

/-- The last configuration again, or the saved settings of a server without one. -/
def reconnect (c : Chat) (changed : Bool) : Chat :=
  if !c.session.activeConfig then
    -- A start whose passwords are being read is not started again.
    if c.session.readingSaved then c else c.readSaved
  else
    { c with session := { c.session with
      manualDisconnect := false
      retryPending := false
      retryAttempt := 0
      retryToken := c.session.retryToken + 1 } }.startReconnect changed

def disconnect (c : Chat) : Chat :=
  { c with
    session := { c.session with
      manualDisconnect := true
      asleep := false
      retryPending := false
      retryToken := c.session.retryToken + 1 }
    quitting := c.quitting || c.session.irc.isSome }

/-- Retries registration with another nickname; only a closed link is connected again. -/
def retryNickname (c : Chat) (changed : Bool) : Chat :=
  let c := { c with nickPrompt := false }
  if c.session.irc.isSome then c
  else
    { c with session := { c.session with
      manualDisconnect := false
      retryAttempt := 0
      retryToken := c.session.retryToken + 1 } }.startReconnect changed

/-- The dialog is answered; the connection is a new one when its settings changed. -/
def submit (c : Chat) (accepted changed : Bool) : Chat :=
  match c.prompt with
  | none => c
  | some prompt =>
    if prompt.submitting || !accepted then c
    else
      { c with
        prompt := some { prompt with submitting := true }
        reads := c.reads ++ [.keys (if changed then .fresh else prompt.resume)] }

/-- Gives up the attempt of the dialog. -/
def cancel (c : Chat) : Chat :=
  if c.prompt.isNone then c
  else
    { c with
      prompt := none
      session := { c.session with
        manualDisconnect := true
        retryPending := false
        retryToken := c.session.retryToken + 1 } }

/-- Whether the windows offer an act. -/
def offers (c : Chat) : Act → Bool
  | .connect .. => c.session.irc.isNone && !c.session.retryPending
  | .reconnect _ => c.session.irc.isNone
  | .disconnect => c.session.irc.isSome || c.session.retryPending
  | .quit => c.session.irc.isSome
  | .retryNickname _ => c.nickPrompt
  | .submit .. | .cancel => c.prompt.isSome

def perform (c : Chat) : Act → Chat
  | .connect missing fails => c.connectFresh missing fails
  | .reconnect changed => c.reconnect changed
  | .disconnect => c.disconnect
  | .quit => { c with quitting := true }
  | .retryNickname changed => c.retryNickname changed
  | .submit accepted changed => c.submit accepted changed
  | .cancel => c.cancel

/-- The connection ended. -/
def ended (c : Chat) (how : End) : Chat :=
  let byUser := how = .closed ∧ c.session.asleep = false
  let c := { c with
    session := { c.session with
      manualDisconnect := c.session.manualDisconnect || byUser
      irc := none }
    live := c.live.filter fun g => c.session.irc ≠ some g }
  match how with
  | .refused true changed => c.startReconnect changed
  | .refused false _ => c
  | .disconnected | .closed => c.scheduleRetry

def timerFired (c : Chat) (token : ℕ) (changed : Bool) : Chat :=
  let due := c.session.retryToken = token ∧ c.session.manualDisconnect = false ∧
    c.session.asleep = false ∧ c.session.irc = none
  let c := { c with timers := c.timers.erase token }
  if due then c.startReconnect changed else c

def storedSecretsRead (c : Chat) (token : ℕ) (missing : Missing) (fails : Bool) : Chat :=
  if c.session.retryToken ≠ token ∨ c.session.manualDisconnect = true then c
  else if missing.key then c.raiseError
  else if missing.any then c.openCredentialPrompt .reconnect
  else c.startReconnectWith fails

def savedRead (c : Chat) (found : Found) : Chat :=
  if c.session.used then c
  else match found with
    | .stale => c.readSaved
    | .unusable => c.raiseError
    | .config missing fails => c.connectFresh missing fails

/-- The channel keys were read for a dialog that was submitted. -/
def finishCredentialPrompt (c : Chat) (resume : Resume) (found : Found) : Chat :=
  match c.prompt with
  | none => c
  | some prompt =>
    if !prompt.submitting then c
    else match found, resume with
      | .config _ fails, .fresh => { c with prompt := none }.applyConnection fails
      | .config _ fails, .reconnect => { c with prompt := none }.startReconnectWith fails
      | _, _ => { c with prompt := some { prompt with submitting := false } }

def readAnswered (c : Chat) (read : Read) (found : Found) : Chat :=
  let c := { c with reads := c.reads.erase read }
  match read, found with
  | .reconnect token, .config missing fails => c.storedSecretsRead token missing fails
  | .reconnect token, _ => c.storedSecretsRead token { server := true } false
  | .saved, found =>
    { c with session := { c.session with readingSaved := false } }.savedRead found
  | .startup, found => { c with session := { c.session with starting := false } }.savedRead found
  | .keys resume, found => c.finishCredentialPrompt resume found

/-- Just before the machine sleeps. -/
def prepareForSleep (c : Chat) : Chat :=
  if c.session.manualDisconnect || c.session.asleep then c
  else if c.session.irc.isSome then
    { c with session := { c.session with asleep := true }, quitting := true }
  else if c.session.retryPending then
    -- The timer could connect right before the machine sleeps.
    { c with session := { c.session with
      asleep := true
      retryPending := false
      retryToken := c.session.retryToken + 1 } }
  else c

/-- After waking from sleep. -/
def checkConnectionsAfterWake (c : Chat) (changed : Bool) : Chat :=
  if c.session.manualDisconnect then { c with session := { c.session with asleep := false } }
  else if c.session.asleep then
    { c with session := { c.session with
      retryAttempt := 0
      retryToken := c.session.retryToken + 1 } }.startReconnect changed
  else c

def hasEnded (c : Chat) (generation : ℕ) (how : End) : Bool :=
  c.session.irc = some generation && c.session.generation = generation &&
    (how ≠ .closed || c.quitting)

def step (c : Chat) : Input → Chat
  | .act act => if c.offers act then c.perform act else c
  | .ended generation how => if c.hasEnded generation how then c.ended how else c
  | .registered generation =>
    if c.session.irc = some generation ∧ c.session.generation = generation then
      { c with
        session := { c.session with retryAttempt := 0 }
        prompt := none
        nickPrompt := false }
    else c
  | .nicknameRejected generation =>
    if c.session.irc = some generation ∧ c.session.generation = generation then
      { c with nickPrompt := true }
    else c
  | .timer token changed => if token ∈ c.timers then c.timerFired token changed else c
  | .answered read found => if read ∈ c.reads then c.readAnswered read found else c
  | .sleep => c.prepareForSleep
  | .wake changed => c.checkConnectionsAfterWake changed

end Chat

end CayenChat.Reconnect
