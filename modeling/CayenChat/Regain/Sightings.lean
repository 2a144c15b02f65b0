import CayenChat.Lib.Machine
import CayenChat.Regain.OpRegain

/-! # What was seen of a channel

A run of the table with a clock that only goes forward, and beside it what was
seen of every channel, latest first: our JOINs, the rosters, the topics, the
attempts, and that the channel was forgotten because we left it. Channels that
a new case mapping folds alike are one channel from then on.
-/

namespace CayenChat

namespace OpRegain

/-- What the table is told, and time going by. -/
inductive Call
  | elapse (time : ℕ)
  | setCasemapping (mapping : CaseMapping)
  | joined (name : String)
  | parted (name : String)
  | leaving (name : String)
  | topic (name topic : String)
  | joinFailed (name : String)
  | roster (name : String) (users : List String) (nick : String) (complete : Bool)
  | poll (ready : Bool) (flagsOf : String → Option String)

/-- The table after a call at the given time, and what the worker is to do. -/
def call (r : OpRegain) (now : ℕ) (i : TableOrder × Call) : OpRegain × List Step :=
  match i.2 with
  | .elapse _ => (r, [])
  | .setCasemapping mapping => (r.setCasemapping i.1 mapping, [])
  | .joined name => (r.joined name, [])
  | .parted name => r.parted name
  | .leaving name => (r.leaving name, [])
  | .topic name topic => (r.topic name topic, [])
  | .joinFailed name => r.joinFailed name
  | .roster name users nick complete => r.roster name users nick complete now
  | .poll ready flagsOf => r.poll i.1 now ready flagsOf

inductive Sighting
  | joined
  | roster (time : ℕ) (users : List String) (nick : String) (complete : Bool)
  | topic (topic : String)
  | rejoined
  | forgotten
  deriving DecidableEq

namespace Sighting

def op : Sighting → Bool
  | roster _ users nick _ => showsOp users nick
  | _ => false

/-- A roster held us without operator status and nobody else; anything else is no roster. -/
def onlyUs : Sighting → Bool
  | roster _ users nick _ => showsAlone users nick && !showsOp users nick
  | _ => true

/-- Seen less than the given time before now; only rosters are looked at. -/
def within (now span : ℕ) : Sighting → Bool
  | roster time _ _ _ => decide (now < time + span)
  | _ => false

def isRoster : Sighting → Bool
  | roster .. => true
  | _ => false

def isComplete : Sighting → Bool
  | roster _ _ _ complete => complete
  | _ => false

def topicText : Sighting → Option String
  | topic text => some text
  | _ => none

end Sighting

def stay (seen : List Sighting) : List Sighting := seen.takeWhile (· != .joined)

def topicOf (seen : List Sighting) : String := ((stay seen).findSome? Sighting.topicText).getD ""

def attempted (seen : List Sighting) : Bool :=
  (seen.takeWhile fun s => !s.op && s != .forgotten).contains .rejoined

/-- The channel may be acted on: it was ours alone for long enough, as the last roster of this stay
still shows, its topic can be put back, and no attempt is under way or was in vain. -/
def Ours (seen : List Sighting) (now : ℕ) : Prop :=
  (∀ s ∈ seen, s.within now stableTime = true → s.onlyUs = true) ∧
  ((stay seen).find? Sighting.isRoster).any Sighting.onlyUs = true ∧
  (stay seen).any Sighting.isComplete = true ∧
  byteLen (topicOf seen) ≤ maxTopic ∧
  attempted seen = false

instance (seen : List Sighting) (now : ℕ) : Decidable (Ours seen now) :=
  inferInstanceAs (Decidable (_ ∧ _ ∧ _ ∧ _ ∧ _))

def rejoins (steps : List Step) : List String :=
  steps.filterMap fun
    | .rejoin channel => some channel
    | _ => none

/-- The table, the time, and what was seen of every channel. -/
structure Watch where
  regain : OpRegain
  now : ℕ := 0
  seen : String → List Sighting := fun _ => []

namespace Watch

def steps (w : Watch) (i : TableOrder × Call) : List Step := (w.regain.call w.now i).2

def after (w : Watch) (i : TableOrder × Call) : OpRegain := (w.regain.call w.now i).1

def saw (w : Watch) (name : String) (s : Sighting) (key : String) : List Sighting :=
  if key = w.regain.mapping.fold name then s :: w.seen key else w.seen key

def lost (w : Watch) (i : TableOrder × Call) (key : String) : List Sighting :=
  if key ∈ w.regain.channels ∧ key ∉ (w.after i).channels then .forgotten :: w.seen key
  else w.seen key

/-- What is seen of the channels after a call. Under another mapping, what was seen of a channel is
what was seen of those it is made of. -/
def seenAfter (w : Watch) (i : TableOrder × Call) : String → List Sighting :=
  match i.2 with
  | .elapse _ => w.seen
  | .setCasemapping mapping => fun key =>
    ((Map.values w.regain.channels).filter fun c => mapping.fold c.name == key).flatMap fun c =>
      w.seen (w.regain.mapping.fold c.name)
  | .joined name => w.saw name .joined
  | .parted _ => w.lost i
  | .leaving _ => w.lost i
  | .topic name topic => w.saw name (.topic topic)
  | .joinFailed _ => w.seen
  | .roster name users nick complete => w.saw name (.roster w.now users nick complete)
  | .poll _ _ => fun key =>
    if key ∈ (rejoins (w.steps i)).map w.regain.mapping.fold then .rejoined :: w.seen key
    else w.seen key

def next (w : Watch) (i : TableOrder × Call) : Watch where
  regain := w.after i
  now := match i.2 with
    | .elapse time => w.now + time
    | _ => w.now
  seen := w.seenAfter i

def start (enabled : Bool) : Watch := { regain := { enabled := enabled } }

/-- A call acts only on channels that are ours alone: a ready poll that knows their flags, on a few
of them and on each once. -/
def Safe (w : Watch) (i : TableOrder × Call) : Prop :=
  match i.2 with
  | .poll ready flagsOf =>
    (rejoins (w.steps i)).length ≤ maxRejoinsPerPoll ∧
    ((rejoins (w.steps i)).map w.regain.mapping.fold).Nodup ∧
    ∀ name ∈ rejoins (w.steps i), ready = true ∧ (flagsOf name).isSome = true ∧
      Ours (w.seen (w.regain.mapping.fold name)) w.now
  | _ => rejoins (w.steps i) = []

instance (w : Watch) : (i : TableOrder × Call) → Decidable (w.Safe i)
  | (_, .poll ..) => inferInstanceAs (Decidable (_ ∧ _ ∧ _))
  | (_, .elapse _) | (_, .setCasemapping _) | (_, .joined _) | (_, .parted _) | (_, .leaving _)
  | (_, .topic ..) | (_, .joinFailed _) | (_, .roster ..) => inferInstanceAs (Decidable (_ = _))

/-- A new mapping folds no two tracked channels alike. -/
def KeepsApart (w : Watch) (i : TableOrder × Call) : Prop :=
  match i.2 with
  | .setCasemapping mapping =>
    ((Map.values w.regain.channels).map fun c => mapping.fold c.name).Nodup
  | _ => True

instance (w : Watch) : (i : TableOrder × Call) → Decidable (w.KeepsApart i)
  | (_, .setCasemapping _) => inferInstanceAs (Decidable (List.Nodup _))
  | (_, .elapse _) | (_, .poll ..) | (_, .joined _) | (_, .parted _) | (_, .leaving _)
  | (_, .topic ..) | (_, .joinFailed _) | (_, .roster ..) => isTrue trivial

/-- Two channels the server kept apart are folded alike; the one kept looks like ours alone, the
other one was not. -/
theorem merged_channel_rejoined :
    ¬Machine.Along Safe next (start true) ([.setCasemapping .ascii, .joined "#a[", .joined "#a\x7b",
      .roster "#a[" ["me"] "me" true, .elapse 1000, .roster "#a\x7b" ["me", "@bob"] "me" true,
      .roster "#a[" ["me"] "me" false, .setCasemapping .rfc1459, .elapse 4000,
      .poll true fun _ => some ""].map (TableOrder.standing, ·)) := by
  decide +kernel

end Watch

end OpRegain

end CayenChat
