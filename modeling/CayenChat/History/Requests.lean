import Mathlib
import CayenChat.Wire.Names
import CayenChat.Lib.Bounded
import CayenChat.Wire.Tags

/-! # History requests

Requests for channel history wait in one bounded queue and are sent one at a
time. The outstanding request owns the reply batch it is answered by; requests
given up are remembered, so that a late reply can be swallowed.
-/

namespace CayenChat

def historyLimit : ℕ := 50
def maxHistoryLines : ℕ := 100
def maxQueued : ℕ := 64
def maxDiscovered : ℕ := 16
def maxTargetEntries : ℕ := 64
def targetsBatch : String := "DRAFT/CHATHISTORY-TARGETS"

def responseTimeout : ℕ := 30000

def maxAbandoned : ℕ := 8
def maxNested : ℕ := 16
def maxMsgidBytes : ℕ := 128
def endTag : String := "draft/chathistory-end"
def maxResume : ℕ := 1024

def resumeSkew : SystemTime := 5000

def minSystemTime : SystemTime := -(2 ^ 63 * 1000)

/-- One line of requested history. -/
structure HistoryMessage where
  sender : String
  text : String
  notice : Bool
  serverTime : Option SystemTime
  msgid : Option String
  account : Option String
  deriving DecidableEq, Repr

/-- A message the application holds, as a reference for a request. -/
structure MessageReference where
  msgid : Option String := none
  time : Option SystemTime := none
  deriving DecidableEq, Repr

/-- Where a channel's log stopped when the previous connection ended. -/
structure HistoryResume where
  channel : String
  after : MessageReference
  deriving DecidableEq, Repr

/-- How an older-page request ended. -/
inductive OlderHistoryStatus | more | beginning | failed
  deriving DecidableEq, Repr

/-- What a request asked for. -/
inductive Page
  | latest
  | resume
  | before (request : ℕ)
  | targets (since upto : SystemTime)
  deriving DecidableEq, Repr

namespace Page

def isLatest : Page → Bool
  | latest | resume => true
  | _ => false

def isBefore : Page → Bool
  | before _ => true
  | _ => false

def isTargets : Page → Bool
  | targets .. => true
  | _ => false

def request : Page → Option ℕ
  | before request => some request
  | _ => none

end Page

/-- One conversation named by a reply about targets. -/
structure HistoryTarget where
  name : String
  latest : SystemTime
  deriving DecidableEq, Repr

/-- A request that ended. -/
structure Finished where
  channel : String
  page : Page
  lines : ℕ := 0
  targets : ℕ := 0
  ended : Bool := false
  incomplete : Bool := false
  failed : Bool := false
  note : Option String := none
  deriving DecidableEq, Repr

namespace Finished

def failure (channel : String) (page : Page) (note : Option String) : Finished :=
  { channel, page, failed := true, note }

def failedOlder (channel : String) (request : ℕ) : Finished :=
  failure channel (.before request)
    (some ("Older history for " ++ channel ++ " is not available on this connection."))

def olderStatus (f : Finished) : OlderHistoryStatus :=
  if f.failed then .failed else if f.ended || f.lines == 0 then .beginning else .more

end Finished

/-- A line of a reply that arrived while its request is still being answered. -/
structure Streamed where
  channel : String
  page : Page
  message : HistoryMessage
  deriving DecidableEq, Repr

/-- What became of an incoming line. -/
inductive Observed
  | unrelated
  | consumed
  | message (line : Streamed)
  | finished (request : Finished)
  deriving DecidableEq, Repr

def Observed.ended : Observed → List Finished
  | finished request => [request]
  | _ => []

/-- A request waiting to be sent. -/
structure Queued where
  channel : String
  page : Page
  selector : String
  limit : ℕ
  deriving DecidableEq, Repr

/-- The request being answered. -/
structure Outstanding where
  channel : String
  page : Page
  sent : Instant
  reference : Option String := none
  ended : Bool := false
  limit : ℕ
  nested : List String := []
  nestedOverflowed : Bool := false
  kept : ℕ := 0
  targets : List HistoryTarget := []
  dropped : ℕ := 0
  deriving DecidableEq, Repr

/-- Which reference types the server accepts. -/
structure ReferenceTypes where
  msgid : Bool := true
  timestamp : Bool := true
  deriving DecidableEq, Repr

/-- A character encoding of the connection, given by its codec: the bytes of a text with
whether some of it has none, and the text of any bytes. -/
structure Encoding where
  encode : String → List UInt8 × Bool
  decode : List UInt8 → String

structure HistoryRequests where
  serverLimit : Option ℕ := none
  referenceTypes : ReferenceTypes := {}
  queue : List Queued := []
  outstanding : Option Outstanding := none
  resume : List HistoryResume := []
  /-- Channels of the requests given up before their reply began. -/
  abandoned : List String := []
  /-- The batches of late replies being swallowed. -/
  discarding : List String := []
  casemapping : CaseMapping := .rfc1459
  wire : Option Encoding := none

/-- `Vec::swap_remove`: the last entry takes the place of the removed one. -/
def swapRemove {α : Type*} (l : List α) (index : ℕ) : List α :=
  match l.getLast? with
  | some last => (l.set index last).dropLast
  | none => []

namespace HistoryRequests

def withResume (resume : List HistoryResume) (wire : Option Encoding) : HistoryRequests :=
  { resume := resume.take maxResume, wire }

def setCasemapping (h : HistoryRequests) (casemapping : CaseMapping) : HistoryRequests :=
  { h with casemapping }

def foldByte (mapping : CaseMapping) (byte : UInt8) : UInt8 :=
  if byte ≤ 0x7f then (mapping.foldChar (Char.ofNat byte.toNat)).toNat.toUInt8 else byte

/-- Whether a decoded target is the channel as a server that folds encoded bytes returns it. -/
def sameOnWire (h : HistoryRequests) (channel target : String) : Bool :=
  match h.wire with
  | none => false
  | some encoding =>
    if isAscii channel then false
    else
      let (bytes, unmappable) := encoding.encode channel
      if unmappable then false
      else [CaseMapping.ascii, h.casemapping].any fun mapping =>
        encoding.decode (bytes.map (foldByte mapping)) == target

def names (h : HistoryRequests) (channel target : String) : Bool :=
  h.casemapping.same channel target || h.sameOnWire channel target

def isupportToken (h : HistoryRequests) (token : String) : HistoryRequests :=
  if eqIgnoreAsciiCase token "-CHATHISTORY" then { h with serverLimit := none }
  else if eqIgnoreAsciiCase token "-MSGREFTYPES" then { h with referenceTypes := {} }
  else
    match splitOnce '=' token with
    | none => h
    | some (name, value) =>
      if eqIgnoreAsciiCase name "CHATHISTORY" then
        { h with serverLimit := parseUnsigned (2 ^ 64 - 1) value }
      else if eqIgnoreAsciiCase name "MSGREFTYPES" then
        let listed := (splitChar ',' value).contains
        { h with referenceTypes := ⟨listed "msgid", listed "timestamp"⟩ }
      else h

def isupport (h : HistoryRequests) (m : IrcMessage) : HistoryRequests :=
  match m.command with
  | .response .rplIsupport args =>
    ((args.drop 1).flatMap splitWhitespace).foldl isupportToken h
  | _ => h

/-- Lines to ask for: our own limit, lowered by the server's. -/
def limit (h : HistoryRequests) : ℕ :=
  match h.serverLimit with
  | some limit => if 0 < limit then min limit historyLimit else historyLimit
  | none => historyLimit

/-- The selector for a reference, within what the server accepts. -/
def selector (h : HistoryRequests) (reference : MessageReference) : Option String :=
  let msgid := reference.msgid.filter fun id =>
    id != "" && decide (byteLen id ≤ maxMsgidBytes) && asciiGraphic id
  match h.referenceTypes.msgid, msgid with
  | true, some id => some ("msgid=" ++ id)
  | _, _ =>
    match h.referenceTypes.timestamp, reference.time with
    | true, some time => some ("timestamp=" ++ Tags.formatServerTime time)
    | _, _ => none

def requested (h : HistoryRequests) (kind : Page → Bool) (channel : String) : Bool :=
  (h.queue.any fun q => kind q.page && h.casemapping.same q.channel channel) ||
    h.outstanding.any fun o => kind o.page && h.casemapping.same o.channel channel

def takeResume (h : HistoryRequests) (channel : String) : HistoryRequests × Option HistoryResume :=
  match h.resume.findIdx? fun r => h.casemapping.same r.channel channel with
  | none => (h, none)
  | some index => ({ h with resume := swapRemove h.resume index }, h.resume[index]?)

def skewed (after : MessageReference) : MessageReference :=
  { after with
    time := after.time.map fun time =>
      if minSystemTime ≤ time - resumeSkew then time - resumeSkew else 0 }

/-- Queues a request for the latest lines of a channel, unless there is one. -/
def enqueue (h : HistoryRequests) (channel : String) : HistoryRequests × Option String :=
  if h.requested Page.isLatest channel then (h, none)
  else if maxQueued ≤ h.queue.length then
    (h, some ("History for " ++ channel ++ " was not requested: 64 requests are already waiting."))
  else
    let (h, resume) := h.takeResume channel
    let (page, selector) :=
      match resume.bind fun resume => h.selector (skewed resume.after) with
      | some selector => (Page.resume, selector)
      | none => (Page.latest, "*")
    ({ h with queue := h.queue ++ [⟨channel, page, selector, historyLimit⟩] }, none)

/-- Queues a request for the conversations with messages, ahead of everything else. -/
def enqueueTargets (h : HistoryRequests) (since now : SystemTime) : HistoryRequests :=
  if maxQueued ≤ h.queue.length then h
  else
    let page := Page.targets (min since now) (now + 300000)
    { h with queue := ⟨"*", page, "", maxDiscovered⟩ :: h.queue }

/-- The direct-message peers worth asking history for, the newest first. -/
def directTargets (targets : List HistoryTarget) : List String :=
  let peers := targets.filter fun target =>
    !validChannel target.name && validNickname target.name && !containsAny ['!', '@'] target.name
  (peers.insertionSort fun a b => b.latest ≤ a.latest).foldl
    (fun names target =>
      if names.length == maxDiscovered || names.any (sameNickname · target.name) then names
      else names ++ [target.name]) []

/-- A resumed request failed: the channel still gets its latest lines. -/
def fallBack (h : HistoryRequests) (finished : Finished) : HistoryRequests :=
  if finished.page = .resume ∧ h.queue.length < maxQueued then
    { h with queue := h.queue ++ [⟨finished.channel, .latest, "*", historyLimit⟩] }
  else h

/-- Queues an older-page request ahead of the others; what cannot be queued ends at once. -/
def enqueueOlder (h : HistoryRequests) (channel : String) (request : ℕ)
    (reference : MessageReference) (limit : ℕ) : HistoryRequests × Except Finished Unit :=
  let fail (note : String) := Finished.failure channel (.before request) (some note)
  match h.selector reference with
  | none =>
    (h, .error (fail ("Older history for " ++ channel ++
      " was not requested: the server accepts no reference this client has.")))
  | some selector =>
    if h.requested Page.isBefore channel then
      (h, .error (fail ("Older history for " ++ channel ++ " is already being requested.")))
    else if maxQueued ≤ h.queue.length then
      (h, .error (fail ("Older history for " ++ channel ++
        " was not requested: 64 requests are already waiting.")))
    else
      ({ h with queue := ⟨channel, .before request, selector, max limit 1⟩ :: h.queue }, .ok ())

/-- A queued older-page request that ends without being sent. -/
def unsent (q : Queued) : Option Finished :=
  if q.page.isBefore then some (Finished.failure q.channel q.page none) else none

def forget (h : HistoryRequests) (channel : String) : HistoryRequests × List Finished :=
  let left := fun q : Queued => h.casemapping.same q.channel channel
  ({ h with queue := h.queue.filter (!left ·) }, (h.queue.filter left).filterMap unsent)

/-- The command that sends a request. -/
def requestCommand (q : Queued) (limit : ℕ) : IrcCommand :=
  match q.page with
  | .targets since upto =>
    .raw "CHATHISTORY" ["TARGETS", "timestamp=" ++ Tags.formatServerTime since,
      "timestamp=" ++ Tags.formatServerTime upto, toString limit]
  | page =>
    .raw "CHATHISTORY"
      [if page.isBefore then "BEFORE" else "LATEST", q.channel, q.selector, toString limit]

/-- The next request when none is being answered. -/
def nextRequest (h : HistoryRequests) (now : Instant) :
    HistoryRequests × Option (String × Page × IrcCommand) :=
  match h.outstanding, h.queue with
  | none, q :: queue =>
    let limit := min q.limit h.limit
    ({ h with
        queue
        outstanding := some { channel := q.channel, page := q.page, sent := now, limit } },
      some (q.channel, q.page, requestCommand q limit))
  | _, _ => (h, none)

def nextDeadline (h : HistoryRequests) : Option Instant :=
  h.outstanding.map (·.sent + responseTimeout)

def timeoutNote (o : Outstanding) : String :=
  if 0 < o.kept then
    "History for " ++ o.channel ++ " did not end within 30 s; the " ++ toString o.kept ++
      " lines received stay shown."
  else "History for " ++ o.channel ++ " was not answered within 30 s."

/-- The outstanding request is given up; the rest of its reply, or all of it, is swallowed. -/
def giveUp (h : HistoryRequests) (o : Outstanding) : HistoryRequests :=
  match o.reference with
  | some reference =>
    { h with outstanding := none, discarding := h.discarding ++ reference :: o.nested }
  | none =>
    { h with
      outstanding := none
      abandoned := Bounded.push maxAbandoned h.abandoned o.channel }

/-- Gives up the outstanding request if it timed out. -/
def tick (h : HistoryRequests) (now : Instant) : HistoryRequests × Option Observed :=
  match h.outstanding with
  | none => (h, none)
  | some o =>
    if now < o.sent + responseTimeout then (h, none)
    else
      let finished :=
        { Finished.failure o.channel o.page (some (timeoutNote o)) with lines := o.kept }
      ((h.giveUp o).fallBack finished, some (.finished finished))

def reset (h : HistoryRequests) : HistoryRequests × List Finished :=
  ({ serverLimit := h.serverLimit, referenceTypes := h.referenceTypes,
      casemapping := h.casemapping, wire := h.wire, resume := h.resume },
    h.outstanding.toList.map (fun o => Finished.failure o.channel o.page none) ++
      h.queue.filterMap unsent)

theorem isupport_eq (h : HistoryRequests) (m : IrcMessage) :
    ∃ limit types, h.isupport m = { h with serverLimit := limit, referenceTypes := types } := by
  have token (h : HistoryRequests) (t : String) : ∃ limit types,
      h.isupportToken t = { h with serverLimit := limit, referenceTypes := types } := by
    unfold isupportToken
    split_ifs
    · exact ⟨_, _, rfl⟩
    · exact ⟨_, _, rfl⟩
    · split
      · exact ⟨_, _, rfl⟩
      · split_ifs <;> exact ⟨_, _, rfl⟩
  have tokens (l : List String) (h : HistoryRequests) : ∃ limit types,
      l.foldl isupportToken h = { h with serverLimit := limit, referenceTypes := types } := by
    induction l generalizing h with
    | nil => exact ⟨_, _, rfl⟩
    | cons t l ih =>
      obtain ⟨limit, types, ht⟩ := token h t
      rw [List.foldl_cons, ht]
      exact ih _
  unfold isupport
  split
  · exact tokens _ h
  · exact ⟨_, _, rfl⟩

end HistoryRequests

end CayenChat
