import CayenChat.Lib.Machine
import CayenChat.Wire.Message

/-! # The worker's queues of outgoing messages

Messages wait in one queue while it is not known whether the link is alive, and
pasted lines wait in another for their turn. Times are in milliseconds.
-/

namespace CayenChat

namespace Worker

def maxHeldCommands : ℕ := 128

def maxSendLines : ℕ := 100

def pacedBurst : ℕ := 4

def pacedInterval : ℕ := 2000

def maxPacedLines : ℕ := maxSendLines + maxHeldCommands

/-- A message as the connection handle accepted it; the encoder is fixed in it. -/
structure Message where
  target : String
  text : String
  displayText : String
  notice : Bool := false
  encoder : Option String := none
  deriving DecidableEq, Repr

/-- The outgoing messages the queues are about. -/
inductive Outgoing
  | message (m : Message)
  | lines (ms : List Message)
  deriving DecidableEq, Repr

/-- What the worker is asked; only messages can be held back. -/
inductive Command
  | outgoing (o : Outgoing)
  | checkAlive (timeout : ℕ)
  deriving DecidableEq, Repr

def Outgoing.messages : Outgoing → List Message
  | message m => [m]
  | lines ms => ms

/-- What the worker tells the application. -/
inductive Event
  | serverLine (text : String)
  | disconnected (reason : String)
  deriving DecidableEq, Repr

/-- What the worker does; an event tells of the messages it says are not sent. -/
inductive Effect
  | handed (m : Message)
  | emitted (event : Event) (unsent : List Message)
  | noted (text : String)
  | pinged (token : String)
  deriving DecidableEq, Repr

/-- What is outside of the worker: readings of the clock, whether the application still takes an
event, and whether the link still takes a PING. -/
structure World where
  clock : ℕ → ℕ
  listens : ℕ → Bool
  writes : ℕ → Bool

end Worker

open Worker

/-- The part of the worker that passes messages on, with what it did so far. -/
structure Worker where
  registered : Bool := false
  aliveCheck : Option ℕ := none
  aliveChecks : ℕ := 0
  aliveNonce : String
  aliveToken : String := ""
  held : List Outgoing := []
  paced : List Message := []
  burst : ℕ := pacedBurst
  pacedReady : ℕ
  readings : ℕ := 0
  events : ℕ := 0
  running : Bool := true
  log : List Effect := []
  deriving DecidableEq, Repr

namespace Worker

def tooManyLines : String := "Lines not sent: too many are waiting to be sent."
def beingChecked : String := "Command not sent: the connection is being checked."
def aliveCheckFailed : String := "No response from the server after waking from sleep."
def reasonLost : String := "The connection to the server was lost."

def new (e : World) (nonce : String) : Worker :=
  { aliveNonce := nonce, pacedReady := e.clock 0, readings := 1 }

def act (w : Worker) (effect : Effect) : Worker := { w with log := w.log ++ [effect] }

def note (w : Worker) (text : String) : Worker := w.act (.noted text)

/-- `events.send` without a look at whether the application is gone. -/
def notify (w : Worker) (event : Event) (unsent : List Message) : Worker :=
  { w.act (.emitted event unsent) with events := w.events + 1 }

def emit (e : World) (w : Worker) (event : Event) (unsent : List Message) : Worker :=
  { w.notify event unsent with running := e.listens w.events }

def disconnect (w : Worker) (reason : String) : Worker :=
  { w.notify (.disconnected reason) [] with running := false }

def sendMessage (e : World) (w : Worker) (m : Message) : Worker :=
  { w.act (.handed m) with events := w.events + 1, running := e.listens w.events }

/-- When the next waiting line may go; nothing while none waits or the link is not known to be
usable. -/
def pacedDeadline (w : Worker) (now : ℕ) : Option ℕ :=
  if w.paced ≠ [] ∧ w.registered ∧ w.aliveCheck = none then
    some (if 0 < w.burst then now else w.pacedReady)
  else none

def pacedDue (w : Worker) (now : ℕ) : Bool :=
  (w.pacedDeadline now).any fun due => 0 < w.burst || due ≤ now

/-- Sends those of the waiting lines that are due. -/
def sendPacedLines (e : World) : List Message → Worker → Worker
  | [], w => w
  | m :: rest, w =>
    if w.pacedDue (e.clock w.readings) then
      let w := sendMessage e
        { w with
          paced := rest
          burst := w.burst - 1
          pacedReady := e.clock (w.readings + 1) + pacedInterval
          readings := w.readings + 2 } m
      if w.running then sendPacedLines e rest w else w
    else { w with readings := w.readings + 1 }

def sendPaced (e : World) (w : Worker) : Worker := sendPacedLines e w.paced w

/-- Queues pasted lines behind any still waiting and sends those due. -/
def queueLines (e : World) (w : Worker) (lines : List Message) : Worker :=
  if maxPacedLines < w.paced.length + lines.length then
    w.emit e (.serverLine tooManyLines) lines
  else
    let burst := if w.paced = [] ∧ w.pacedReady ≤ e.clock w.readings then pacedBurst else w.burst
    sendPaced e
      { w with burst, paced := w.paced ++ lines, readings := w.readings + 1 }

/-- Asks the server for a `PONG`; ignored before registration and while a check is running. -/
def startAliveCheck (e : World) (w : Worker) (timeout : ℕ) : Worker :=
  if !w.registered || w.aliveCheck.isSome then w
  else
    let count := w.aliveChecks + 1
    let token := "cayenchat-wake-" ++ w.aliveNonce ++ "-" ++ toString count
    let w := { w with aliveChecks := count, aliveToken := token }
    if e.writes count then
      ({ w.act (.pinged token) with
        aliveCheck := some (e.clock w.readings + timeout)
        readings := w.readings + 1 }).note "Checking that the server still answers."
    else w.disconnect reasonLost

def onCommand (e : World) (w : Worker) : Command → Worker
  | .checkAlive timeout => w.startAliveCheck e timeout
  | .outgoing o =>
    if w.aliveCheck.isSome then
      if maxHeldCommands ≤ w.held.length then w.emit e (.serverLine beingChecked) o.messages
      else { w with held := w.held ++ [o] }
    else
      match o with
      | .lines ms => w.queueLines e ms
      | .message m => if w.paced ≠ [] then w.queueLines e [m] else w.sendMessage e m

/-- Ends a running check when the `PONG` carries its token. -/
def aliveCheckAnswered (w : Worker) (first : String) (second : Option String) : Worker :=
  if w.aliveCheck.isSome ∧ (first = w.aliveToken ∨ second = some w.aliveToken) then
    { w with aliveCheck := none }.note "The server answered the connection check."
  else w

/-- Tells the application that held commands were dropped with the link. -/
def reportHeld (w : Worker) : Worker :=
  let count := w.held.length
  let unsent := w.held.flatMap Outgoing.messages
  let w := { w with held := [] }
  if 0 < count then
    w.notify
      (.serverLine (toString count ++ " command(s) not sent: the connection was lost.")) unsent
  else w

def onAliveDeadline (w : Worker) : Worker :=
  let w := { w with aliveCheck := none }.reportHeld
  (w.note "The server did not answer the connection check.").disconnect aliveCheckFailed

def flushHeldCommands (e : World) : List Outgoing → Worker → Worker
  | [], w => w
  | o :: rest, w =>
    let w := onCommand e { w with held := rest } (.outgoing o)
    if w.running then flushHeldCommands e rest w else w

def flushHeld (e : World) (w : Worker) : Worker := flushHeldCommands e w.held w

/-- What the loop of the connection waits for. -/
inductive Input
  | command (c : Command)
  | welcome
  | pong (first : String) (second : Option String)
  | pacedTimer
  | aliveTimer
  deriving DecidableEq, Repr

/-- One branch of the loop; a timer fires at its deadline. -/
def branch (e : World) (w : Worker) : Input → Worker
  | .command c => w.onCommand e c
  | .welcome => { w with registered := true }
  | .pong first second => w.aliveCheckAnswered first second
  | .pacedTimer =>
    if (w.pacedDeadline (e.clock w.readings)).any (· ≤ e.clock w.readings) then w.sendPaced e
    else w
  | .aliveTimer =>
    if w.aliveCheck.any (· ≤ e.clock w.readings) then w.onAliveDeadline else w

def step (e : World) (w : Worker) (i : Input) : Worker :=
  if w.running then
    let w := w.branch e i
    if w.running ∧ w.aliveCheck = none ∧ w.held ≠ [] then w.flushHeld e else w
  else w

end Worker

end CayenChat
