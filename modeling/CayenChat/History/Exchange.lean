import CayenChat.History.Lines

/-! # Requests and a server that answers in order

The server answers the commands it received one after the other, each with one
batch about its target or with one refusal. Lines arrive in the order they are
sent, so that the next line of an answer always belongs to the first command
whose answer was not received in full.
-/

namespace CayenChat

/-- A command the server was sent, by its place in the order of commands. -/
structure Sent where
  serial : ℕ
  channel : String
  page : Page
  deriving DecidableEq, Repr

/-- The requests of a connection, the command of the outstanding one, the commands whose answer was
not received in full, and the open batches of the answer being received: its own one and those
inside it. -/
structure Exchange where
  history : HistoryRequests
  sent : ℕ := 0
  current : Option ℕ := none
  unanswered : List Sent := []
  answering : Option (String × List String) := none

/-- A call of the client, or a line: the answer to the first unanswered command begins, continues,
ends or is a refusal, or the line belongs to no answer. -/
inductive ExchangeInput
  | call (c : HistoryCall)
  | begins (m : IrcMessage)
  | inside (m : IrcMessage)
  | ends (m : IrcMessage)
  | refuses (m : IrcMessage)
  | other (m : IrcMessage)

def HistoryCall.isLine : HistoryCall → Bool
  | observe _ => true
  | _ => false

namespace Exchange

open HistoryRequests

def start (resume : List HistoryResume) (wire : Option Encoding) : Exchange :=
  { history := withResume resume wire }

def become (w : Exchange) (h : HistoryRequests) : Exchange :=
  { w with history := h, current := if h.outstanding.isSome then w.current else none }

def line (w : Exchange) (m : IrcMessage) : Exchange := w.become (w.history.observe m).1

def childrenAfter (children : List String) (m : IrcMessage) : List String :=
  match closedBatch m, openedBatch m with
  | some reference, _ => children.erase reference
  | none, some reference => children ++ [reference]
  | none, none => children

def next (w : Exchange) : ExchangeInput → Exchange
  | .call c =>
    match w.history.handedOut c with
    | [] => w.become (w.history.next c)
    | (channel, page) :: _ =>
      { w with
        history := w.history.next c
        sent := w.sent + 1
        current := some w.sent
        unanswered := w.unanswered ++ [⟨w.sent, channel, page⟩] }
  | .begins m => { w.line m with answering := (openedBatch m).map fun r => (r, []) }
  | .inside m =>
    { w.line m with answering := w.answering.map fun a => (a.1, childrenAfter a.2 m) }
  | .ends m => { w.line m with unanswered := w.unanswered.tail, answering := none }
  | .refuses m => { w.line m with unanswered := w.unanswered.tail }
  | .other m => w.line m

def openBatches (w : Exchange) : List String :=
  match w.answering with
  | some (r, children) => r :: children
  | none => []

def head (w : Exchange) : Option Sent := w.unanswered.head?

def givenUp (w : Exchange) (s : Sent) : Bool := w.current != some s.serial

def batchKind (m : IrcMessage) : Option String :=
  match m.command with
  | .batch _ kind _ => kind.map BatchSubCommand.toStr
  | _ => none

def batchTarget (m : IrcMessage) : Option String :=
  match m.command with
  | .batch _ _ params => params.bind List.head?
  | _ => none

def about (h : HistoryRequests) (s : Sent) (m : IrcMessage) : Bool :=
  if s.page.isTargets then batchKind m == some targetsBatch
  else batchKind m == some "CHATHISTORY" && (batchTarget m).any (h.names s.channel)

def rejects (m : IrcMessage) : Bool := (failure m "").isSome

/-- What the server sends: each command is answered once, in order, by a batch whose inner batches
are closed before it and have references of their own, or by a refusal; no other line belongs to an
answer or looks like one. -/
def Served (w : Exchange) : ExchangeInput → Prop
  | .call c => c.isLine = false
  | .begins m => w.answering = none ∧ (openedBatch m).isSome ∧ w.head.any (about w.history · m) = true
  | .inside m => m.batchTag.any w.openBatches.contains = true ∧ (isBatchLine m = true →
      (closedBatch m).any (fun c => w.openBatches.tail.contains c) = true ∨
        (openedBatch m).any (fun n => !w.openBatches.contains n) = true)
  | .ends m => (closedBatch m).map (fun r => [r]) = some w.openBatches
  | .refuses m => w.answering = none ∧ w.head.isSome ∧ rejects m = true
  | .other m => m.batchTag.any w.openBatches.contains = false ∧ rejects m = false ∧
      (closedBatch m).any w.openBatches.contains = false ∧
      batchKind m ≠ some targetsBatch ∧ batchKind m ≠ some "CHATHISTORY"

/-- What keeps late answers apart: the answer to a command that was given up is a batch about a
remembered target that no waiting request is about; the batches of an answer are followed, with room
for those of a late one; no request times out after its answer overflowed, and no withdrawal comes in
the middle of an answer. -/
def Apart (w : Exchange) : ExchangeInput → Prop
  | .call (.tick now) => (w.history.outstanding.any fun o =>
      decide (o.sent + responseTimeout ≤ now) && o.reference.isSome && o.nestedOverflowed) = false
  | .call .reset => w.answering = none
  | .call _ => True
  | .begins m => (openedBatch m).any Tags.followedBatch = true ∧ (w.head.any w.givenUp = true →
      w.head.any (·.page.isTargets) = false ∧ (batchTarget m).any (fun target =>
        !(w.history.outstanding.any fun o => o.reference.isNone && w.history.names o.channel target)
          && w.history.abandoned.any (w.history.names · target)) = true)
  | .inside m => (openedBatch m).isSome → (openedBatch m).any Tags.followedBatch = true ∧
      (w.head.any w.givenUp = true → w.history.discarding.length < maxNested + 1)
  | .refuses _ => w.head.any w.givenUp = false
  | _ => True

/-- What a line of the answer to the command may become: consumed, or part of the very request while
the command was not given up. -/
def Belongs (w : Exchange) (s : Sent) : Observed → Prop
  | .consumed => True
  | .unrelated => False
  | .message line => w.givenUp s = false ∧ line.channel = s.channel ∧ line.page = s.page
  | .finished f => w.givenUp s = false ∧ f.channel = s.channel ∧ f.page = s.page

def Attributed (w : Exchange) : ExchangeInput → Prop
  | .call _ => True
  | .other m => (w.history.observe m).2 = .unrelated ∨ (w.history.observe m).2 = .consumed
  | .begins m | .inside m | .ends m | .refuses m =>
    ∀ s ∈ w.head, w.Belongs s (w.history.observe m).2

instance (w : Exchange) (i : ExchangeInput) : Decidable (w.Served i) := by
  cases i <;> dsimp only [Served] <;> infer_instance

instance (w : Exchange) (i : ExchangeInput) : Decidable (w.Apart i) := by
  rcases i with c | _ | _ | _ | _ | _
  · cases c <;> dsimp only [Apart] <;> infer_instance
  all_goals dsimp only [Apart]; infer_instance

instance (w : Exchange) (s : Sent) (what : Observed) : Decidable (w.Belongs s what) := by
  cases what <;> dsimp only [Belongs] <;> infer_instance

instance (w : Exchange) (i : ExchangeInput) : Decidable (w.Attributed i) := by
  cases i <;> dsimp only [Attributed] <;> infer_instance

end Exchange

end CayenChat
