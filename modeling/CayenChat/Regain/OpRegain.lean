import CayenChat.Lib.Map
import CayenChat.Wire.Names

/-! # Getting operator status back

A channel we are alone in without operator status is parted and joined again:
where an empty channel disappears, its next creator becomes operator. The
table of channels is told what the worker sees and says what to send. Times
are in milliseconds.
-/

namespace CayenChat

namespace OpRegain

/-- How long a roster must stay "only us, no operator" before acting. -/
def stableTime : ℕ := 5000

def attemptTimeout : ℕ := 30000

def restoreWait : ℕ := 5000

def maxRejoinsPerPoll : ℕ := 4

def rejoinSpacing : ℕ := 2000

def maxTracked : ℕ := 512

def maxTopic : ℕ := 400

def restoredFlags : String := "imnpst"

def privileged (entry : String) : Bool := startsWithAny ['~', '&', '@', '%'] entry

/-- Channels worth an attempt: those whose creator is made operator. -/
def eligible (name : String) : Bool := startsWithAny ['#', '&'] name && validChannel name

/-- Where an attempt is. -/
inductive Status
  | rejoining
  | regained (modes topic : Bool)
  | restoreFailed (modes topic : Bool)
  | topicTooLong
  | notRegained
  | rejoinFailed
  deriving DecidableEq, Repr

/-- What the worker is to do next. -/
inductive Step
  | rejoin (channel : String)
  | join (channel : String)
  | restore (channel flags : String) (topic : Option String)
  | status (channel : String) (status : Status)
  deriving DecidableEq, Repr

inductive Stage
  | watching
  | settling (due : ℕ)
  | attempt (due : ℕ) (parted joined : Bool)
  | restoring (due : ℕ) (flags : String) (topic : Option String) (topicSeen : Bool)
  deriving DecidableEq, Repr

def Stage.due : Stage → Option ℕ
  | watching => none
  | settling due => some due
  | attempt due _ _ => some due
  | restoring due _ _ _ => some due

structure Restore where
  flags : String
  topic : Option String
  deriving DecidableEq, Repr

structure Channel where
  name : String
  tried : Bool := false
  inChannel : Bool := false
  synced : Bool := false
  op : Bool := false
  alone : Bool := false
  topic : String := ""
  stage : Stage := .watching
  restore : Option Restore := none
  deriving DecidableEq, Repr

def display (entry : String) : String := trimStartMatches ['~', '&', '@', '%', '+'] entry

def entriesOf (users : List String) : List String := users.filter fun user => display user != ""

def ownEntry (users : List String) (nick : String) : Option String :=
  (entriesOf users).find? fun entry => sameNickname (display entry) nick

def showsOp (users : List String) (nick : String) : Bool := (ownEntry users nick).any privileged

def showsAlone (users : List String) (nick : String) : Bool :=
  (entriesOf users).length == 1 && (ownEntry users nick).isSome

namespace Channel

/-- Alone and opless in a channel whose roster is known, and nothing tried yet. -/
def qualifies (c : Channel) : Bool := !c.tried && c.alone && !c.op && c.synced && c.inChannel

/-- Our own JOIN. -/
def join (c : Channel) (name : String) : Channel :=
  { c with
    name := name
    inChannel := true
    synced := false
    op := false
    alone := false
    topic := ""
    stage := match c.stage with
      | .attempt due true _ => .attempt due true true
      | _ => .watching }

/-- The topic, and whether it is the one to be restored. -/
def withTopic (c : Channel) (topic : String) : Channel :=
  { c with
    topic := topic
    stage := match c.stage with
      | .restoring due flags (some expected) topicSeen =>
        .restoring due flags (some expected) (topicSeen || expected == topic)
      | stage => stage }

def see (c : Channel) (users : List String) (nick : String) (complete : Bool) : Channel :=
  { c with
    synced := c.synced || complete
    op := showsOp users nick
    alone := showsAlone users nick
    tried := c.tried && !showsOp users nick }

/-- A complete roster ends the attempt after whose JOIN it comes. -/
def finish (c : Channel) (now : ℕ) : Channel × List Step :=
  if !c.op then
    ({ c with stage := .watching, restore := none }, [.status c.name .notRegained])
  else
    let restore := c.restore.getD { flags := "", topic := none }
    if restore.flags = "" ∧ restore.topic = none then
      ({ c with stage := .watching, restore := none }, [.status c.name (.regained false false)])
    else
      ({ c with
          stage := .restoring (now + restoreWait) restore.flags restore.topic false
          restore := none },
        [.restore c.name restore.flags restore.topic])

/-- The wait goes on, starts or ends, as the roster shows. -/
def settle (c : Channel) (now : ℕ) : Channel :=
  { c with
    stage :=
      if !c.tried && c.alone && !c.op then
        match c.stage with
        | .settling due => .settling due
        | _ => .settling (now + stableTime)
      else .watching }

/-- A roster of the channel; a complete one came from the end of NAMES. -/
def rosterChanged (c : Channel) (users : List String) (nick : String) (complete : Bool)
    (now : ℕ) : Channel × List Step :=
  if !c.inChannel then (c, [])
  else if !(c.synced || complete) then (c, [])
  else
    let c := c.see users nick complete
    match c.stage with
    | .attempt _ _ true => if complete then c.finish now else (c, [])
    | .attempt _ _ false => (c, [])
    | .restoring .. => (c, [])
    | _ => (c.settle now, [])

/-- The attempt on a channel that qualifies, unless as many were made by this poll as may be. -/
def attempt (c : Channel) (now : ℕ) (flags : String) (rejoins : ℕ) : Channel × List Step × ℕ :=
  if maxTopic < byteLen c.topic then
    ({ c with tried := true, stage := .watching }, [.status c.name .topicTooLong], rejoins)
  else if maxRejoinsPerPoll ≤ rejoins then
    ({ c with stage := .settling (now + rejoinSpacing) }, [], rejoins)
  else
    let flags := String.ofList (flags.toList.filter restoredFlags.toList.contains)
    let topic := if c.topic = "" then none else some c.topic
    ({ c with
        restore := some { flags := flags, topic := topic }
        tried := true
        stage := .attempt (now + attemptTimeout) false false },
      [.rejoin c.name, .status c.name .rejoining], rejoins + 1)

/-- The restored flags and topic are judged by what the server showed. -/
def judge (c : Channel) (now : ℕ) (flags : String) (topic : Option String) (topicSeen : Bool)
    (known : String) : Channel × List Step :=
  let stage := if c.qualifies then .settling (now + stableTime) else .watching
  let modesFailed := flags.toList.any (!known.toList.contains ·)
  let topicFailed := topic.isSome && !topicSeen
  ({ c with stage := stage },
    [.status c.name (if modesFailed || topicFailed then .restoreFailed modesFailed topicFailed
      else .regained (flags != "") topic.isSome)])

/-- What a poll does with a channel, given how many attempts it made before. -/
def poll (c : Channel) (now : ℕ) (ready : Bool) (flagsOf : String → Option String)
    (rejoins : ℕ) : Channel × List Step × ℕ :=
  match c.stage with
  | .settling due =>
    if due ≤ now then
      match flagsOf c.name, ready with
      | some flags, true =>
        if c.qualifies then c.attempt now flags rejoins
        else ({ c with stage := .watching }, [], rejoins)
      | _, _ => ({ c with stage := .settling (now + stableTime) }, [], rejoins)
    else (c, [], rejoins)
  | .attempt due _ _ =>
    if due ≤ now then
      ({ c with stage := .watching, restore := none },
        [.status c.name (if c.inChannel then .notRegained else .rejoinFailed)], rejoins)
    else (c, [], rejoins)
  | .restoring due flags topic topicSeen =>
    if due ≤ now then
      let (c, steps) := c.judge now flags topic topicSeen ((flagsOf c.name).getD "")
      (c, steps, rejoins)
    else (c, [], rejoins)
  | .watching => (c, [], rejoins)

end Channel

end OpRegain

/-- The tracked channels by folded name, and when the next is due. -/
structure OpRegain where
  enabled : Bool
  mapping : CaseMapping := .rfc1459
  channels : Map String OpRegain.Channel := ∅
  deadline : Option ℕ := none

namespace OpRegain

/-- The order in which one call goes through the table. -/
structure TableOrder where
  keys : List String → List String
  keys_perm : ∀ l, (keys l).Perm l

def TableOrder.standing : TableOrder := ⟨fun l => l, fun _ => List.Perm.refl _⟩

def touch (r : OpRegain) : OpRegain :=
  { r with deadline := ((Map.values r.channels).filterMap fun c => c.stage.due).min? }

/-- Channel names are compared under another mapping from now on; of channels that fold alike the
first one met is kept. -/
def setCasemapping (r : OpRegain) (order : TableOrder) (mapping : CaseMapping) : OpRegain :=
  let old := (order.keys r.channels.keys).filterMap fun key => r.channels.lookup key
  let channels := old.foldl (fun channels c =>
    let key := mapping.fold c.name
    if key ∈ channels then channels else channels.insert key c) ∅
  ({ r with mapping := mapping, channels := channels } : OpRegain).touch

/-- Our own JOIN. -/
def joined (r : OpRegain) (name : String) : OpRegain :=
  if !r.enabled || !eligible name then r
  else
    let key := r.mapping.fold name
    if key ∉ r.channels ∧ maxTracked ≤ r.channels.entries.length then r
    else
      let c := (r.channels.lookup key).getD { name := name }
      ({ r with channels := r.channels.insert key (c.join name) } : OpRegain).touch

/-- Our own PART, or a KICK of us: the echo of an attempt is followed by the JOIN, any other
forgets the channel. -/
def parted (r : OpRegain) (name : String) : OpRegain × List Step :=
  let key := r.mapping.fold name
  match r.channels.lookup key with
  | none => (r, [])
  | some c =>
    match c.stage with
    | .attempt due false false =>
      (({ r with
          channels := r.channels.insert key
            { c with stage := .attempt due true false, inChannel := false } } : OpRegain).touch,
        [.join c.name])
    | _ => (({ r with channels := r.channels.erase key } : OpRegain).touch, [])

def leaving (r : OpRegain) (name : String) : OpRegain :=
  let key := r.mapping.fold name
  if key ∈ r.channels then ({ r with channels := r.channels.erase key } : OpRegain).touch else r

def topic (r : OpRegain) (name topic : String) : OpRegain :=
  { r with
    channels := Map.adjust r.channels (r.mapping.fold name) fun c => c.withTopic topic }

/-- The server refused our JOIN. -/
def joinFailed (r : OpRegain) (name : String) : OpRegain × List Step :=
  let key := r.mapping.fold name
  match r.channels.lookup key with
  | some c =>
    match c.stage with
    | .attempt .. =>
      (({ r with
          channels := r.channels.insert key
            { c with stage := .watching, inChannel := false } } : OpRegain).touch,
        [.status c.name .rejoinFailed])
    | _ => (r.touch, [])
  | none => (r.touch, [])

def roster (r : OpRegain) (name : String) (users : List String) (nick : String)
    (complete : Bool) (now : ℕ) : OpRegain × List Step :=
  let key := r.mapping.fold name
  match r.channels.lookup key with
  | none => (r.touch, [])
  | some c =>
    let (c, steps) := c.rosterChanged users nick complete now
    (({ r with channels := r.channels.insert key c } : OpRegain).touch, steps)

/-- One channel of a poll: the table, what to do, and the attempts made so far. -/
def pollChannel (now : ℕ) (ready : Bool) (flagsOf : String → Option String)
    (acc : Map String Channel × List Step × ℕ) (key : String) :
    Map String Channel × List Step × ℕ :=
  match acc.1.lookup key with
  | none => acc
  | some c =>
    let (c, steps, rejoins) := c.poll now ready flagsOf acc.2.2
    (acc.1.insert key c, acc.2.1 ++ steps, rejoins)

def poll (r : OpRegain) (order : TableOrder) (now : ℕ) (ready : Bool)
    (flagsOf : String → Option String) : OpRegain × List Step :=
  let (channels, steps, _) := (order.keys r.channels.keys).foldl (pollChannel now ready flagsOf)
    (r.channels, [], 0)
  (({ r with channels := channels } : OpRegain).touch, steps)

def nextDeadline (r : OpRegain) : Option ℕ := r.deadline

end OpRegain

end CayenChat
