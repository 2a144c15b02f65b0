import Mathlib
import CayenChat.Regain.Sightings

/-! # How attempts go on

Beside a run of the table, what happened to every channel, earliest first: our
JOINs and PARTs and what the worker was told to do. What happened since the
last attempt on a channel began says how that attempt went.
-/

namespace CayenChat

namespace OpRegain

def Step.channel : Step → String
  | .rejoin channel | .join channel | .restore channel _ _ | .status channel _ => channel

def Status.final : Status → Bool
  | .regained .. | .restoreFailed .. | .notRegained | .rejoinFailed => true
  | .rejoining | .topicTooLong => false

inductive Happening
  | joined
  | parted
  | leaving
  | rejoin (time : ℕ)
  | join
  | restore (time : ℕ)
  | ended
  deriving DecidableEq

namespace Happening

def isRejoin : Happening → Bool
  | rejoin _ => true
  | _ => false

def isRestore : Happening → Bool
  | restore _ => true
  | _ => false

end Happening

def Step.happening (now : ℕ) : Step → Option Happening
  | .rejoin _ => some (.rejoin now)
  | .join _ => some .join
  | .restore .. => some (.restore now)
  | .status _ s => if s.final then some .ended else none

def course (log : List Happening) : List Happening := log.rtakeWhile fun h => !h.isRejoin

/-- The attempt ended in a final status, or the channel was left after the PART of it. -/
def Over (a : List Happening) : Prop := .ended ∈ a ∨ .leaving ∈ a ∨ 2 ≤ a.count .parted

instance (a : List Happening) : Decidable (Over a) := inferInstanceAs (Decidable (_ ∨ _ ∨ _))

/-- Our PART was confirmed before the attempt ended and before the user left. -/
def confirmed (a : List Happening) : Bool :=
  (a.takeWhile fun h => h != .ended && h != .leaving).contains .parted

/-- While the attempt lasts we join only after our PART was confirmed and before the topic and
flags are put back. -/
def Undisturbed (a : List Happening) : Prop :=
  ∀ n < a.length, a[n]? = some .joined →
    Over (a.take n) ∨ .parted ∈ a.take n ∧ (a.take n).any Happening.isRestore = false

instance (a : List Happening) : Decidable (Undisturbed a) :=
  inferInstanceAs (Decidable (∀ n < a.length, _))

def due (log : List Happening) : Option ℕ :=
  log.foldl (fun d h => match h with
    | .rejoin time => some (time + attemptTimeout)
    | .restore time => some (time + restoreWait)
    | _ => d) none

/-- The table, the time, and what happened to every channel. -/
structure Journal where
  regain : OpRegain
  now : ℕ := 0
  log : String → List Happening := fun _ => []

namespace Journal

def steps (j : Journal) (i : TableOrder × Call) : List Step := (j.regain.call j.now i).2

def after (j : Journal) (i : TableOrder × Call) : OpRegain := (j.regain.call j.now i).1

def told (j : Journal) (i : TableOrder × Call) (key : String) : List Happening :=
  match i.2 with
  | .joined name => if key = j.regain.mapping.fold name then [.joined] else []
  | .parted name => if key = j.regain.mapping.fold name then [.parted] else []
  | .leaving name => if key = j.regain.mapping.fold name then [.leaving] else []
  | _ => []

def did (j : Journal) (steps : List Step) (key : String) : List Happening :=
  (steps.filter fun s => j.regain.mapping.fold s.channel == key).filterMap (Step.happening j.now)

/-- What happened to the channels after a call. Under another mapping, what happened to a channel
is what happened to those it is made of. -/
def logAfter (j : Journal) (i : TableOrder × Call) : String → List Happening :=
  match i.2 with
  | .setCasemapping mapping => fun key =>
    ((Map.values j.regain.channels).filter fun c => mapping.fold c.name == key).flatMap fun c =>
      j.log (j.regain.mapping.fold c.name)
  | _ => fun key => j.log key ++ j.told i key ++ j.did (j.steps i) key

def next (j : Journal) (i : TableOrder × Call) : Journal where
  regain := j.after i
  now := match i.2 with
    | .elapse time => j.now + time
    | _ => j.now
  log := j.logAfter i

def start (enabled : Bool) : Journal := { regain := { enabled := enabled } }

/-- A new mapping folds no two tracked channels alike. -/
def KeepsApart (j : Journal) (i : TableOrder × Call) : Prop :=
  match i.2 with
  | .setCasemapping mapping =>
    ((Map.values j.regain.channels).map fun c => mapping.fold c.name).Nodup
  | _ => True

instance (j : Journal) : (i : TableOrder × Call) → Decidable (j.KeepsApart i)
  | (_, .setCasemapping _) => inferInstanceAs (Decidable (List.Nodup _))
  | (_, .elapse _) | (_, .poll ..) | (_, .joined _) | (_, .parted _) | (_, .leaving _)
  | (_, .topic ..) | (_, .joinFailed _) | (_, .roster ..) => isTrue trivial

/-- Every JOIN follows a PART of its own, and nothing is put back without a JOIN before it. -/
def Preceded (j : Journal) (i : TableOrder × Call) : Prop :=
  ∀ key, ((j.next i).log key).count .join ≤ ((j.next i).log key).countP Happening.isRejoin ∧
    ((j.next i).log key).countP Happening.isRestore ≤ ((j.next i).log key).count .join

/-- The attempt still lasts and the worker wakes up for it in time; a poll leaves none that is
due. -/
def Scheduled (j : Journal) (i : TableOrder × Call) (key : String) : Prop :=
  ∃ d, due ((j.next i).log key) = some d ∧
    (∃ e, (j.next i).regain.nextDeadline = some e ∧ e ≤ d) ∧
    ∀ ready flagsOf, i.2 = .poll ready flagsOf → j.now < d

/-- Every attempt is carried through: the JOIN is sent once our PART is confirmed, and only then,
and there is one final status, unless the channel is left or the attempt still lasts. -/
def Carried (j : Journal) (i : TableOrder × Call) : Prop :=
  ∀ key, ((j.next i).log key).any Happening.isRejoin = true →
    Undisturbed (course ((j.next i).log key)) →
    (course ((j.next i).log key)).count .join =
      (if confirmed (course ((j.next i).log key)) then 1 else 0) ∧
    (course ((j.next i).log key)).count .ended ≤ 1 ∧
    (Over (course ((j.next i).log key)) ∨ j.Scheduled i key)

end Journal

end OpRegain

end CayenChat
