import CayenChat.Lib.Totals

/-! # The preview cache

The record of previews: what is ready, loading, queued or failed. Instants are
milliseconds, a cancel flag is named by the serial of its job, and a hash map
hands its entries out in no particular order, so released images are a
multiset.
-/

namespace CayenChat.Media

abbrev Instant := ℕ

/-- Why a preview is unavailable. -/
inductive LoadError
  | blocked
  | network
  | status (code : ℕ)
  | tooManyRedirects
  | notImage
  | unsupported
  | tooLarge
  | malformed
  | cancelled
  deriving DecidableEq, Repr

def LoadError.isTransient : LoadError → Bool
  | .network => true
  | .status code => code = 408 || code = 429 || (500 ≤ code && code ≤ 599)
  | _ => false

structure CacheLimits where
  /-- Jobs at the same time. -/
  maxInFlight : ℕ := 2
  /-- Requests waiting for a job. -/
  maxQueued : ℕ := 16
  /-- Records of every state together. -/
  maxRecords : ℕ := 256
  /-- Bytes charged for ready images. -/
  budgetBytes : ℕ := 32 * 1024 * 1024
  /-- Rows remembered per record. -/
  maxWaiters : ℕ := 4
  retryAfter : ℕ := 300000
  /-- Loads per record, including the first. -/
  maxAttempts : Option ℕ := some 2
  /-- Report a load as pending only once it is confirmed to be an image. -/
  pendingAfterConfirmation : Bool := false
  deriving DecidableEq, Repr

/-- What a row should show for its link. -/
inductive Lookup (T : Type*)
  | ready (value : T)
  | pending
  | none
  deriving DecidableEq, Repr

/-- Work handed out. -/
structure Job (K : Type*) where
  source : K
  generation : ℕ
  serial : ℕ
  deriving DecidableEq, Repr

/-- A fetcher's report that the source of a load is an image. -/
structure Confirmation (K : Type*) where
  source : K
  generation : ℕ
  serial : ℕ
  deriving DecidableEq, Repr

def Job.confirmation {K : Type*} (job : Job K) : Confirmation K :=
  ⟨job.source, job.generation, job.serial⟩

/-- The outcome of a job. -/
structure Finished (R : Type*) where
  /-- Whether the record changed. -/
  applied : Bool := false
  /-- Whether the waiting rows were drawn without the placeholder. -/
  measuredAsText : Bool := false
  /-- Rows that showed the record while it was pending. -/
  waiters : List R := []
  deriving DecidableEq, Repr

inductive State (T : Type*)
  | queued
  /-- The serial of the job, and whether the source was confirmed to be an image. -/
  | loading (serial : ℕ) (confirmed : Bool)
  | ready (value : T) (bytes : ℕ)
  | failed (since : Instant) (transient : Bool)
  deriving DecidableEq, Repr

namespace State

variable {T : Type*}

def isQueued : State T → Bool
  | queued => true
  | _ => false

def isLoading : State T → Bool
  | loading .. => true
  | _ => false

def isReady : State T → Bool
  | ready .. => true
  | _ => false

def charge : State T → ℕ
  | ready _ bytes => bytes
  | _ => 0

def image : State T → Multiset T
  | ready value _ => {value}
  | _ => 0

def flag : State T → Finset ℕ
  | loading serial _ => {serial}
  | _ => ∅

end State

structure Record (T R : Type*) where
  state : State T
  lastUsed : ℕ
  attempts : ℕ := 0
  waiters : List R
  deriving DecidableEq

/-- Counters for tests and measurements. -/
structure Stats where
  jobsStarted : ℕ := 0
  ready : ℕ := 0
  failed : ℕ := 0
  stale : ℕ := 0
  evicted : ℕ := 0
  droppedFromQueue : ℕ := 0
  deriving DecidableEq, Repr

def addWaiter {R : Type*} [BEq R] (waiters : List R) (waiter : R) (max : ℕ) : List R :=
  if waiters.contains waiter || max = 0 then waiters
  else (if max ≤ waiters.length then waiters.tail else waiters) ++ [waiter]

structure PreviewCache (T R K : Type*) where
  limits : CacheLimits
  enabled : Bool := false
  generation : ℕ := 0
  /-- Numbers the jobs. -/
  jobs : ℕ := 0
  records : Map K (Record T R) := ∅
  /-- Queued requests, oldest first. -/
  queue : List K := []
  inFlight : ℕ := 0
  readyBytes : ℕ := 0
  clock : ℕ := 0
  /-- Ready images to be released. -/
  released : Multiset T := 0
  /-- Serials of the jobs that were told to stop. -/
  cancelled : Finset ℕ := ∅
  stats : Stats := {}

namespace PreviewCache

variable {T R K : Type*} [DecidableEq K]

/-- Turning previews off hands every ready image back. -/
def setEnabled (c : PreviewCache T R K) (enabled : Bool) : PreviewCache T R K :=
  if enabled = c.enabled then c
  else if enabled then { c with enabled }
  else
    { c with
      enabled
      generation := c.generation + 1
      queue := []
      records := ∅
      released := c.released + Map.total (fun r => r.state.image) c.records
      cancelled := (Map.values c.records).foldl (fun l r => l ∪ r.state.flag) c.cancelled
      readyBytes := 0 }

section Evicting

/-- Takes a record out; its ready image is to be released. -/
def remove (c : PreviewCache T R K) (source : K) : PreviewCache T R K :=
  match c.records.lookup source with
  | some record =>
    { c with
      records := c.records.erase source
      readyBytes := c.readyBytes - record.state.charge
      released := c.released + record.state.image }
  | none => c

def overfull (c : PreviewCache T R K) : Bool :=
  c.limits.budgetBytes < c.readyBytes || c.limits.maxRecords < c.records.entries.length

/-- Whether a record may be dropped; failures only count against the record limit. -/
def evictable (c : PreviewCache T R K) : State T → Bool
  | .ready .. => true
  | .failed .. => c.limits.maxRecords < c.records.entries.length
  | .queued | .loading .. => false

def victim (c : PreviewCache T R K) (keep : Option K) : Option K :=
  ((c.records.entries.filter fun e => some e.1 ≠ keep && c.evictable e.2.state).argmin
    fun e => e.2.lastUsed).map Sigma.fst

def evictOne (c : PreviewCache T R K) (source : K) : PreviewCache T R K :=
  { c.remove source with stats := { c.stats with evicted := c.stats.evicted + 1 } }

/-- Drops records while the limits are exceeded, at most `fuel` of them. -/
def evictFrom : ℕ → Option K → PreviewCache T R K → PreviewCache T R K
  | 0, _, c => c
  | fuel + 1, keep, c =>
    if c.overfull then
      match c.victim keep with
      | some source => evictFrom fuel keep (c.evictOne source)
      | none => c
    else c

/-- Drops the least recently used ready or failed records until the limits hold. -/
def evict (c : PreviewCache T R K) (keep : Option K) : PreviewCache T R K :=
  evictFrom c.records.entries.length keep c

end Evicting

section Requesting

/-- A row waits for a pending record; a request seen again is taken out of the queue. -/
def await [BEq R] (c : PreviewCache T R K) (source : K) (record : Record T R) (waiter : R)
    (queued : Bool) : PreviewCache T R K × Bool :=
  ({ c with
      queue := c.queue.erase source
      records := c.records.insert source
        { record with waiters := addWaiter record.waiters waiter c.limits.maxWaiters } },
    queued || source ∈ c.queue)

def retries (c : PreviewCache T R K) (record : Record T R) (since : Instant) (transient : Bool)
    (now : Instant) : Bool :=
  transient && c.limits.maxAttempts.all (record.attempts < ·) && c.limits.retryAfter ≤ now - since

/-- A row asks for a source: whether it is to be queued, and whether it is pending. -/
def touch [BEq R] (c : PreviewCache T R K) (source : K) (waiter : R) (now : Instant) :
    PreviewCache T R K × Bool × Bool :=
  match c.records.lookup source with
  | some record =>
    let record := { record with lastUsed := c.clock }
    let kept := { c with records := c.records.insert source record }
    match record.state with
    | .ready .. => (kept, false, false)
    | .queued | .loading .. =>
      let r := c.await source record waiter false
      (r.1, r.2, true)
    | .failed since transient =>
      if c.retries record since transient now then
        let r := c.await source { record with state := .queued } waiter true
        (r.1, r.2, true)
      else (kept, false, false)
  | none =>
    ({ c with
        records := c.records.insert source
          { state := .queued, lastUsed := c.clock, waiters := [waiter] } }, true, true)

/-- Queues a request; a full queue drops its oldest one. -/
def enqueue (c : PreviewCache T R K) (source : K) : PreviewCache T R K :=
  match c.queue ++ [source] with
  | oldest :: rest =>
    if c.limits.maxQueued < (oldest :: rest).length then
      { c with
        queue := rest
        records := c.records.erase oldest
        stats := { c.stats with droppedFromQueue := c.stats.droppedFromQueue + 1 } }
    else { c with queue := oldest :: rest }
  | [] => c

/-- What is shown for a source. -/
def look (c : PreviewCache T R K) (source : K) (pending : Bool) : Lookup T :=
  match (c.records.lookup source).map Record.state with
  | some (.ready value _) => .ready value
  | some .queued =>
    if c.limits.pendingAfterConfirmation || !pending then .none else .pending
  | some (.loading _ confirmed) =>
    if (c.limits.pendingAfterConfirmation && !confirmed) || !pending then .none else .pending
  | some (.failed ..) => if pending then .pending else .none
  | none => .none

/-- Looks a source up for a row being drawn and queues it if needed. -/
def request [BEq R] (c : PreviewCache T R K) (source : K) (waiter : R) (now : Instant) :
    PreviewCache T R K × Lookup T :=
  if !c.enabled then (c, .none)
  else
    let r := ({ c with clock := c.clock + 1 } : PreviewCache T R K).touch source waiter now
    let c := if r.2.1 then (r.1.enqueue source).evict (some source) else r.1
    (c, c.look source r.2.2)

end Requesting

section Loading

/-- Records that the source of a load is an image; the rows to update. -/
def confirm (c : PreviewCache T R K) (confirmation : Confirmation K) :
    PreviewCache T R K × List R :=
  if !c.enabled || confirmation.generation ≠ c.generation then (c, [])
  else
    match c.records.lookup confirmation.source with
    | some record =>
      match record.state with
      | .loading serial false =>
        if serial = confirmation.serial then
          ({ c with
              records := c.records.insert confirmation.source
                { record with state := .loading serial true } }, record.waiters)
        else (c, [])
      | _ => (c, [])
    | none => (c, [])

/-- The next load to run, if a slot is free; the newest request goes first. -/
def nextJob (c : PreviewCache T R K) : PreviewCache T R K × Option (Job K) :=
  if !c.enabled || c.limits.maxInFlight ≤ c.inFlight then (c, none)
  else
    match c.queue.getLast? with
    | none => (c, none)
    | some source =>
      let c := { c with queue := c.queue.dropLast }
      match c.records.lookup source with
      | none => (c, none)
      | some record =>
        let serial := c.jobs + 1
        ({ c with
            jobs := serial
            records := c.records.insert source
              { record with
                state := .loading serial false
                attempts := min (record.attempts + 1) 255 }
            inFlight := c.inFlight + 1
            stats := { c.stats with jobsStarted := c.stats.jobsStarted + 1 } },
          some ⟨source, c.generation, serial⟩)

/-- Whether a record is still the load of a job. -/
def loads (c : PreviewCache T R K) (job : Job K) : Option (Record T R × Bool) :=
  if c.enabled && job.generation = c.generation then
    (c.records.lookup job.source).bind fun record =>
      match record.state with
      | .loading serial confirmed => if serial = job.serial then some (record, confirmed) else none
      | _ => none
  else none

/-- Records a finished job; results of loads that are no longer wanted are dropped. -/
def finish (c : PreviewCache T R K) (job : Job K) (result : Except LoadError (T × ℕ))
    (now : Instant) : PreviewCache T R K × Finished R :=
  let c := { c with inFlight := c.inFlight - 1 }
  match c.loads job with
  | none => ({ c with stats := { c.stats with stale := c.stats.stale + 1 } }, {})
  | some (record, confirmed) =>
    let finished : Finished R := {
      applied := true
      measuredAsText := c.limits.pendingAfterConfirmation && !confirmed
      waiters := record.waiters }
    match result with
    | .ok (value, bytes) =>
      (({ c with
          records := c.records.insert job.source
            { record with state := .ready value bytes, waiters := [] }
          readyBytes := c.readyBytes + bytes
          stats := { c.stats with ready := c.stats.ready + 1 } } :
        PreviewCache T R K).evict (some job.source), finished)
    | .error error =>
      ({ c with
          records := c.records.insert job.source
            { record with state := .failed now error.isTransient, waiters := [] }
          stats := { c.stats with failed := c.stats.failed + 1 } }, finished)

end Loading

section Forgetting

def dropQueued (c : PreviewCache T R K) (source : K) : PreviewCache T R K :=
  { c with records := c.records.erase source, queue := c.queue.filter (· ≠ source) }

/-- Forgets rows that no longer exist; queued requests left without rows are dropped. -/
def retainWaiters (c : PreviewCache T R K) (keep : R → Bool) : PreviewCache T R K :=
  let records := Map.mapValues (fun r : Record T R => { r with waiters := r.waiters.filter keep })
    c.records
  let orphaned := (records.entries.filter fun e => e.2.waiters.isEmpty && e.2.state.isQueued).map
    Sigma.fst
  orphaned.foldl dropQueued { c with records }

/-- Drops a record; a load under way is told to stop. -/
def forgetOne (c : PreviewCache T R K) (source : K) : PreviewCache T R K :=
  { c.remove source with
    queue := c.queue.filter (· ≠ source)
    cancelled := c.cancelled ∪ ((c.records.lookup source).map (·.state.flag)).getD ∅ }

def forget (c : PreviewCache T R K) (gone : K → Bool) : PreviewCache T R K :=
  (c.records.keys.filter gone).foldl forgetOne c

def takeReleased (c : PreviewCache T R K) : PreviewCache T R K × Multiset T :=
  ({ c with released := 0 }, c.released)

end Forgetting

end PreviewCache

end CayenChat.Media
