import CayenChat.Lib.Bounded
import CayenChat.Wire.Names
import CayenChat.Wire.Text
import CayenChat.Wire.Tags

/-! # Echoes of sent messages

A sent message waits for its echo under a label of its own or under its text.
A line that carries a label, or is in a batch opened with one, is matched by
label only.
-/

namespace CayenChat

def maxPending : ℕ := 32

def pendingTtl : ℕ := 60000

def maxLabelBatches : ℕ := 16

/-- A message waiting for its echo. -/
structure Pending where
  localId : ℕ
  label : Option String
  target : String
  notice : Bool
  text : String
  keepText : Bool
  sent : Instant
  deriving DecidableEq, Repr

/-- How a sent message was settled. -/
inductive EchoEvent
  | outgoingConfirmed (localId : ℕ) (text action msgid : Option String)
      (serverTime : Option SystemTime)
  | outgoingFailed (localId : ℕ) (reason : String)
  deriving DecidableEq, Repr

def EchoEvent.localId : EchoEvent → ℕ
  | outgoingConfirmed id .. => id
  | outgoingFailed id _ => id

structure Echoes where
  pending : List Pending := []
  nextLabel : ℕ := 0
  /-- Open batches started with one of our labels. -/
  batches : List (String × String) := []
  deriving DecidableEq, Repr

/-- `char::from_digit` in base 36. -/
def fromDigit (d : ℕ) : Char :=
  if d < 10 then Char.ofNat ('0'.toNat + d) else Char.ofNat ('a'.toNat + (d - 10))

def labelDigits : ℕ → ℕ → List ℕ
  | 0, _ => []
  | fuel + 1, n => n % 36 :: if n / 36 = 0 then [] else labelDigits fuel (n / 36)

/-- A label: `c` and the counter in base 36. -/
def labelFor (counter : ℕ) : String :=
  String.ofList ('c' :: ((labelDigits (counter + 1) counter).map fromDigit).reverse)

namespace Echoes

/-- Registers a message about to be sent, with its label; `none` when too many wait. -/
def track (e : Echoes) (localId : ℕ) (target : String) (notice : Bool) (text : String)
    (keepText labeled : Bool) (now : Instant) : Echoes × Option (Option String) :=
  if maxPending ≤ e.pending.length then (e, none)
  else
    let nextLabel := if labeled then e.nextLabel + 1 else e.nextLabel
    let label := if labeled then some (labelFor nextLabel) else none
    ({ e with
        nextLabel
        pending := e.pending ++ [⟨localId, label, target, notice, text, keepText, now⟩] },
      some label)

def untrack (e : Echoes) (localId : ℕ) : Echoes :=
  { e with pending := e.pending.filter (·.localId != localId) }

def outstanding (e : Echoes) : List ℕ := e.pending.map Pending.localId

def nextDeadline (e : Echoes) : Option Instant := e.pending.head?.map (·.sent + pendingTtl)

def expire (e : Echoes) (now : Instant) : Echoes × List EchoEvent :=
  let late := fun p : Pending => decide (pendingTtl ≤ now - p.sent)
  ({ e with pending := e.pending.dropWhile late },
    (e.pending.takeWhile late).map fun p =>
      .outgoingFailed p.localId "The server did not confirm the message.")

def reset (e : Echoes) : Echoes × List EchoEvent :=
  ({ e with batches := [], pending := [] },
    e.pending.map fun p => .outgoingFailed p.localId "The server stopped confirming messages.")

def messageText (m : IrcMessage) : Option (String × String × Bool) :=
  match m.command with
  | .privmsg target text => some (target, text, false)
  | .notice target text => some (target, text, true)
  | _ => none

def confirmed (p : Pending) (m : Option IrcMessage) : EchoEvent :=
  match m.bind fun m => (messageText m).map fun t => (m, t.2.1) with
  | some (m, text) =>
    .outgoingConfirmed p.localId (if text != p.text && !p.keepText then some text else none)
      (actionText text) (Tags.msgid m) (Tags.serverTime m true)
  | none => .outgoingConfirmed p.localId none none none none

def isError (r : Response) : Bool := decide (400 ≤ r.code ∧ r.code < 600)

def ours (m : IrcMessage) (currentNick : String) : Bool :=
  m.sourceNickname.any (sameNickname · currentNick)

/-- The event a labeled line settles its message with. -/
def labeledEvent (m : IrcMessage) (currentNick : String) (p : Pending) : Option EchoEvent :=
  match m.command with
  | .privmsg .. | .notice .. => if ours m currentNick then some (confirmed p (some m)) else none
  | .raw verb args =>
    if eqIgnoreAsciiCase verb "ACK" then some (confirmed p none)
    else if eqIgnoreAsciiCase verb "FAIL" then
      some (.outgoingFailed p.localId (args.getLast?.getD ""))
    else none
  | .response response args =>
    if isError response then some (.outgoingFailed p.localId (args.getLast?.getD "")) else none
  | _ => none

def settleFirst (e : Echoes) (matching : Pending → Bool) (event : Pending → Option EchoEvent) :
    Echoes × Option (List EchoEvent) :=
  match (e.pending.find? matching).bind event with
  | some event => ({ e with pending := e.pending.eraseP matching }, some [event])
  | none => (e, none)

/-- The start and the end of a batch opened with one of our labels. -/
def observeBatch (e : Echoes) (m : IrcMessage) (reference : String) :
    Echoes × Option (List EchoEvent) :=
  match stripFirst '+' reference with
  | some reference =>
    match Tags.tagValue m "label" with
    | some label =>
      if e.pending.any (·.label == some label) && Tags.followedBatch reference then
        let batches := if maxLabelBatches ≤ e.batches.length then e.batches.drop 1 else e.batches
        ({ e with batches := batches.filter (·.1 != reference) ++ [(reference, label)] }, some [])
      else (e, none)
    | none => (e, none)
  | none =>
    match stripFirst '-' reference with
    | some reference =>
      if e.batches.any (·.1 == reference) then
        ({ e with batches := e.batches.eraseP (·.1 == reference) }, some [])
      else (e, none)
    | none => (e, none)

def lineLabel (e : Echoes) (m : IrcMessage) : Option String :=
  (Tags.tagValue m "label").or
    ((m.batchTag.bind fun reference => e.batches.find? (·.1 == reference)).map Prod.snd)

/-- Looks at an incoming line; `some` means that it belonged to a message we sent. -/
def observe (e : Echoes) (m : IrcMessage) (currentNick : String) (labeled : Bool) :
    Echoes × Option (List EchoEvent) :=
  match m.command with
  | .batch reference _ _ => e.observeBatch m reference
  | _ =>
    match e.lineLabel m with
    | some label => e.settleFirst (·.label == some label) (labeledEvent m currentNick)
    | none =>
      match messageText m with
      | some (target, text, notice) =>
        if ours m currentNick then
          e.settleFirst
            (fun p => (p.label.isNone || !labeled) && p.notice == notice &&
              sameNickname p.target target && p.text == text)
            fun p => some (confirmed p (some m))
        else (e, none)
      | none => (e, none)

end Echoes

example : labelFor 1 = "c1" := by decide
example : labelFor 1295 = "czz" := by decide

end CayenChat
