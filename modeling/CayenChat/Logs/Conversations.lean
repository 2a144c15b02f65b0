import CayenChat.App.State
import CayenChat.Lib.Machine
import CayenChat.Storage.Profile

/-! # Logs of conversations

What is sent and received is handed to a logger while the log of its kind is on. A message of ours
waits for the server's echo; what ends the wait otherwise ends it for good.
-/

namespace CayenChat.Logs
open App Past Storage

/-- A line of a channel, or of a private conversation. -/
inductive Scope | channel | direct
  deriving DecidableEq, Repr

inductive RecordKind | msg | action | notice | join | part | quit | nick | kick | topic | mode
  deriving DecidableEq, Repr

/-- One line to log. -/
structure Record where
  time : SystemTime
  network : String
  scope : Scope
  conversation : String
  kind : RecordKind
  nick : String
  body : String
  deriving DecidableEq

/-- The settings of the logs. -/
structure ConversationLog where
  channels : Bool := false
  direct : Bool := false
  directory : Option String := none
  deriving DecidableEq

def ConversationLog.enabled (options : ConversationLog) : Bool := options.channels || options.direct

def ConversationLog.resolvedDirectory (default : Option String) (options : ConversationLog) :
    Option String :=
  (options.directory.filter (· ≠ "")).or default

def ConversationLog.records (options : ConversationLog) : Scope → Bool
  | .channel => options.channels
  | .direct => options.direct

/-! ## The time and the directory of a line -/

def serverTimeTolerance : ℤ := 24 * 60 * 60 * 10 ^ 9

def receivedTime (server : Option SystemTime) (now : SystemTime) : SystemTime :=
  match server with
  | some time => if |time - now| ≤ serverTimeTolerance then time else now
  | none => now

def Near (time now : SystemTime) : Prop := |time - now| ≤ serverTimeTolerance

theorem near_self (now : SystemTime) : Near now now := by
  rw [Near, sub_self, abs_zero]
  decide

theorem receivedTime_near (server : Option SystemTime) (now : SystemTime) :
    Near (receivedTime server now) now := by
  unfold receivedTime
  split
  · split_ifs with h
    · exact h
    · exact near_self now
  · exact near_self now

section Directories

variable (lowercase : String → String) (servers : List ServerProfile)

def directoryLabel (profile : ServerProfile) : String :=
  if profile.displayName = "" then profile.host else profile.displayName

def directoryMarked (profile : ServerProfile) : String :=
  directoryLabel profile ++ " (" ++ String.ofList (profile.id.toList.reverse.take 8).reverse ++ ")"

def directoryShared (profile : ServerProfile) : Bool :=
  servers.any fun other => other.id ≠ profile.id &&
    lowercase (directoryLabel other) = lowercase (directoryLabel profile)

def networkDirectory (profile : ServerProfile) : String :=
  if directoryShared lowercase servers profile then directoryMarked profile
  else directoryLabel profile

def ToldApart : Prop :=
  ∀ p ∈ servers, ∀ q ∈ servers, p.id ≠ q.id → directoryShared lowercase servers p = true →
    lowercase (directoryMarked p) ≠ lowercase
      (if directoryShared lowercase servers q then directoryMarked q else directoryLabel q)

theorem networkDirectory_ne_iff : (∀ p ∈ servers, ∀ q ∈ servers, p.id ≠ q.id →
    lowercase (networkDirectory lowercase servers p) ≠
      lowercase (networkDirectory lowercase servers q)) ↔ ToldApart lowercase servers := by
  constructor
  · intro h p hp q hq hne hshared
    have := h p hp q hq hne
    rwa [networkDirectory, if_pos hshared] at this
  · intro h p hp q hq hne heq
    by_cases hshared : directoryShared lowercase servers p = true
    · refine h p hp q hq hne hshared ?_
      rwa [networkDirectory, if_pos hshared] at heq
    by_cases hother : directoryShared lowercase servers q = true
    · refine h q hq p hp hne.symm hother ?_
      rw [networkDirectory.eq_def _ _ q, if_pos hother] at heq
      exact heq.symm
    -- two servers that share a label are both marked
    rw [networkDirectory, networkDirectory, if_neg hshared, if_neg hother] at heq
    apply hshared
    simp only [directoryShared, List.any_eq_true, Bool.and_eq_true, decide_eq_true_eq]
    exact ⟨q, hq, hne.symm, heq.symm⟩

end Directories

/-! ## The logger -/

/-- What a record takes from the window: the servers, the profile of a session, how a server folds
names, and the time. -/
structure Window where
  servers : List ServerProfile
  profile : NetworkId → Option ServerProfile
  casemapping : NetworkId → CaseMapping
  now : SystemTime

def pendingLimit : ℕ := 64

/-- The logger and the settings it was started with. -/
structure ConversationLogs where
  options : ConversationLog := {}
  directory : Option String := none
  logger : Bool := false
  /-- Our messages whose echo has not arrived. -/
  pending : Map (NetworkId × ℕ) Record := ∅

namespace ConversationLogs

variable (lowercase : String → String) (default : Option String) (s : ConversationLogs)

def stop : ConversationLogs := { s with logger := false, directory := none, pending := ∅ }

/-- Follows changed settings. -/
def apply (options : ConversationLog) : ConversationLogs :=
  let directory := options.resolvedDirectory default
  let wanted := options.enabled && directory.isSome
  let s := if !wanted || decide (s.directory ≠ directory) then s.stop else s
  let s := if wanted && !s.logger then { s with logger := true, directory } else s
  { s with
    options
    pending := Map.keepValues (fun record => options.records record.scope) s.pending }

def wants (scope : Scope) : Bool := s.logger && s.options.records scope

/-- The record for one line, when its kind of conversation is logged. -/
def logRecord (window : Window) (network : NetworkId) (scope : Scope) (conversation : String)
    (kind : RecordKind) (nick text : String) (time : Option SystemTime) : Option Record :=
  if !s.wants scope then none
  else (window.profile network).map fun profile =>
    { time := receivedTime time window.now
      network := networkDirectory lowercase window.servers profile
      scope
      conversation := match scope with
        | .channel => (window.casemapping network).fold conversation
        | .direct => nicknameKey conversation
      kind, nick
      body := stripFormatting text }

def writeLog (record : Option Record) : Option Record := record.filter fun r => s.wants r.scope

/-- CTCP other than ACTION is not a message. -/
def messageRecord (window : Window) (network : NetworkId) (scope : Scope)
    (conversation sender text : String) (kind : Kind) (time : Option SystemTime) : Option Record :=
  match kind with
  | .action => s.logRecord lowercase window network scope conversation .action sender text time
  | kind =>
    if text.toList.head? = some '\x01' then none
    else s.logRecord lowercase window network scope conversation
      (if kind = .notice then .notice else .msg) sender text time

def ownMessageRecord (window : Window) (network : NetworkId) (scope : Scope)
    (conversation own text : String) (notice : Bool) (action : Option String) : Option Record :=
  s.logRecord lowercase window network scope conversation
    (if action.isSome then .action else if notice then .notice else .msg) own
    (action.getD text) none

def holdOwnMessage (key : NetworkId × ℕ) (record : Record) : ConversationLogs :=
  if s.pending.entries.length < pendingLimit then
    { s with pending := s.pending.insert key record } else s

def echoed (text action : Option String) (serverTime : Option SystemTime) (now : SystemTime)
    (record : Record) : Record :=
  let text := if record.kind = .action then action else text
  { record with
    time := serverTime.elim record.time fun time => receivedTime (some time) now
    body := (text.map stripFormatting).getD record.body }

def releaseOwnMessage (key : NetworkId × ℕ) (text action : Option String)
    (serverTime : Option SystemTime) (now : SystemTime) : ConversationLogs × Option Record :=
  let s' := { s with pending := s.pending.erase key }
  (s', s'.writeLog ((s.pending.lookup key).map (echoed text action serverTime now)))

def dropOwnMessage (key : NetworkId × ℕ) : ConversationLogs :=
  { s with pending := s.pending.erase key }

def dropOwnMessages (network : NetworkId) : ConversationLogs :=
  { s with pending := Map.retain (fun key => key.1 ≠ network) s.pending }

end ConversationLogs

/-- What happens to the logs. -/
inductive LogCall
  | apply (options : ConversationLog)
  | stop
  | event (window : Window) (network : NetworkId) (scope : Scope) (conversation : String)
    (kind : RecordKind) (nick text : String) (time : Option SystemTime)
  | message (window : Window) (network : NetworkId) (scope : Scope)
    (conversation sender text : String) (kind : Kind) (time : Option SystemTime)
  /-- A message of ours, which is echoed when it has a local id. -/
  | own (window : Window) (network : NetworkId) (localId : Option ℕ) (scope : Scope)
    (conversation own text : String) (notice : Bool) (action : Option String)
  | release (key : NetworkId × ℕ) (text action : Option String) (serverTime : Option SystemTime)
    (now : SystemTime)
  | drop (key : NetworkId × ℕ)
  | dropAll (network : NetworkId)

def LogCall.now : LogCall → SystemTime
  | .event window .. | .message window .. | .own window .. => window.now
  | .release _ _ _ _ now => now
  | _ => 0

namespace ConversationLogs

variable (lowercase : String → String) (default : Option String)

/-- The logs after a call, and the record that is handed to the logger. -/
def step (s : ConversationLogs) : LogCall → ConversationLogs × Option Record
  | .apply options => (s.apply default options, none)
  | .stop => (s.stop, none)
  | .event window network scope conversation kind nick text time =>
    (s, s.writeLog (s.logRecord lowercase window network scope conversation kind nick text time))
  | .message window network scope conversation sender text kind time =>
    (s, s.writeLog
      (s.messageRecord lowercase window network scope conversation sender text kind time))
  | .own window network localId scope conversation own text notice action =>
    let record :=
      s.ownMessageRecord lowercase window network scope conversation own text notice action
    match localId, record with
    | some localId, some record => (s.holdOwnMessage (network, localId) record, none)
    | none, record => (s, s.writeLog record)
    | some _, none => (s, none)
  | .release key text action serverTime now => s.releaseOwnMessage key text action serverTime now
  | .drop key => (s.dropOwnMessage key, none)
  | .dropAll network => (s.dropOwnMessages network, none)

def run (options : ConversationLog) (calls : List LogCall) : ConversationLogs :=
  Machine.exec (fun s i => (s.step lowercase default i).1) (apply default {} options) calls

/-! ## What is held -/

/-- The message that a call puts among those that wait. -/
def held (s : ConversationLogs) : LogCall → Option ((NetworkId × ℕ) × Record)
  | .own window network (some localId) scope conversation own text notice action =>
    if s.pending.entries.length < pendingLimit then
      (s.ownMessageRecord lowercase window network scope conversation own text notice action).map
        fun record => ((network, localId), record)
    else none
  | _ => none

/-- A call leaves a message waiting: its log stays on in its directory, and the message is neither
confirmed nor refused, and its connection does not end. -/
def Stays (s : ConversationLogs) (key : NetworkId × ℕ) (scope : Scope) : LogCall → Prop
  | .apply options => options.records scope = true ∧
    s.directory = options.resolvedDirectory default ∧ s.directory.isSome = true
  | .stop => False
  | .release other .. | .drop other => other ≠ key
  | .dropAll network => network ≠ key.1
  | i => ∀ record, held lowercase s i ≠ some (key, record)

variable {lowercase default} {s : ConversationLogs} {i : LogCall} {key : NetworkId × ℕ}
  {record : Record} {options : ConversationLog} {calls before before' earlier : List LogCall}

theorem logRecord_some {window : Window} {network : NetworkId} {scope : Scope}
    {conversation nick text : String} {kind : RecordKind} {time : Option SystemTime}
    (h : s.logRecord lowercase window network scope conversation kind nick text time =
      some record) : Near record.time window.now := by
  unfold logRecord at h
  split at h
  · cases h
  · obtain ⟨profile, -, rfl⟩ := Option.map_eq_some_iff.mp h
    exact receivedTime_near time window.now

theorem messageRecord_some {window : Window} {network : NetworkId} {scope : Scope}
    {conversation sender text : String} {kind : Kind} {time : Option SystemTime}
    (h : s.messageRecord lowercase window network scope conversation sender text kind time =
      some record) : Near record.time window.now := by
  unfold messageRecord at h
  split at h
  · exact logRecord_some h
  · split at h
    · cases h
    · exact logRecord_some h

theorem held_near (h : held lowercase s i = some (key, record)) : Near record.time i.now := by
  unfold held at h
  split at h
  · split at h
    · obtain ⟨r, hr, hkey⟩ := Option.map_eq_some_iff.mp h
      cases hkey
      exact logRecord_some hr
    · cases h
  · cases h

theorem lookup_apply (h : (s.apply default options).pending.lookup key = some record) :
    s.pending.lookup key = some record ∧
      s.Stays lowercase default key record.scope (.apply options) := by
  unfold apply at h
  dsimp only at h
  rw [Map.lookup_keepValues, Option.filter_eq_some_iff] at h
  obtain ⟨h, hon⟩ := h
  have hpending : ∀ (c : Bool) (s : ConversationLogs) (directory : Option String),
      (if c then { s with logger := true, directory } else s).pending = s.pending := by
    intro c s directory
    cases c <;> rfl
  rw [hpending] at h
  split at h
  · simp [stop] at h
  · rename_i hkept
    simp only [Bool.or_eq_true, Bool.not_eq_true', Bool.and_eq_false_iff, decide_eq_true_eq,
      not_or, not_not, Bool.not_eq_false] at hkept
    exact ⟨h, hon, hkept.2, hkept.2 ▸ hkept.1.2⟩

theorem lookup_step (h : (s.step lowercase default i).1.pending.lookup key = some record) :
    held lowercase s i = some (key, record) ∨
      s.pending.lookup key = some record ∧ s.Stays lowercase default key record.scope i := by
  cases i with
  | apply options => exact .inr (lookup_apply h)
  | stop => simp [step, stop] at h
  | event | message => exact .inr ⟨h, fun _ hh => by cases hh⟩
  | own window network localId scope conversation own text notice action =>
    cases localId with
    | none => exact .inr ⟨h, fun _ hh => by cases hh⟩
    | some localId =>
      unfold step at h
      unfold Stays held
      dsimp only at h ⊢
      cases hr : s.ownMessageRecord lowercase window network scope conversation own text notice
        action with
      | none =>
        rw [hr] at h
        exact .inr ⟨h, by simp⟩
      | some r =>
        rw [hr] at h
        dsimp only [holdOwnMessage] at h
        split_ifs at h ⊢ with hroom
        · rw [Map.lookup_insert] at h
          split_ifs at h with hkey
          · cases h
            exact .inl (by rw [hkey]; rfl)
          · refine .inr ⟨h, fun r' hh => hkey ?_⟩
            cases hh
            rfl
        · exact .inr ⟨h, by simp⟩
  | release other text action serverTime now =>
    have h : (s.pending.erase other).lookup key = some record := h
    rw [Map.lookup_erase] at h
    split_ifs at h with hkey
    exact .inr ⟨h, Ne.symm hkey⟩
  | drop other =>
    have h : (s.pending.erase other).lookup key = some record := h
    rw [Map.lookup_erase] at h
    split_ifs at h with hkey
    exact .inr ⟨h, Ne.symm hkey⟩
  | dropAll network =>
    have h : (Map.retain (fun key : NetworkId × ℕ => decide (key.1 ≠ network))
      s.pending).lookup key = some record := h
    rw [Map.lookup_retain] at h
    split_ifs at h with hkey
    exact .inr ⟨h, Ne.symm (of_decide_eq_true hkey)⟩

def HeldAt (lowercase : String → String) (default : Option String) (options : ConversationLog)
    (key : NetworkId × ℕ) (record : Record) (before : List LogCall) (i : LogCall) : Prop :=
  held lowercase (run lowercase default options before) i = some (key, record)

def HeldSince (lowercase : String → String) (default : Option String) (options : ConversationLog)
    (key : NetworkId × ℕ) (record : Record) : List LogCall → List LogCall → LogCall → Prop :=
  Since (HeldAt lowercase default options key record) fun _ calls =>
    (run lowercase default options calls).Stays lowercase default key record.scope

theorem run_snoc : run lowercase default options (calls ++ [i]) =
    ((run lowercase default options calls).step lowercase default i).1 := by
  rw [run, Machine.exec, List.foldl_append]
  rfl

theorem heldSince (h : (run lowercase default options calls).pending.lookup key = some record) :
    ∃ before i, HeldSince lowercase default options key record calls before i := by
  induction calls using List.reverseRecOn with
  | nil =>
    have hstart : (∅ : Map (NetworkId × ℕ) Record).lookup key = some record ∧
      Stays lowercase default {} key record.scope (.apply options) := lookup_apply h
    simp at hstart
  | append_singleton calls i ih =>
    rw [run_snoc] at h
    obtain hheld | ⟨hold, hstays⟩ := lookup_step h
    · exact ⟨calls, i, since_snoc.mpr (.inl ⟨rfl, rfl, hheld⟩)⟩
    · obtain ⟨before, j, hsince⟩ := ih hold
      exact ⟨before, j, since_snoc.mpr (.inr ⟨hsince, hstays⟩)⟩

theorem pending_le :
    (run lowercase default options calls).pending.entries.length ≤ pendingLimit := by
  induction calls using List.reverseRecOn with
  | nil =>
    have hempty : ∀ a, ((run lowercase default options []).pending.lookup a).isSome →
        ((∅ : Map (NetworkId × ℕ) Record).lookup a).isSome := by
      intro a ha
      obtain ⟨record, ha⟩ := Option.isSome_iff_exists.mp ha
      have hstart : (∅ : Map (NetworkId × ℕ) Record).lookup a = some record ∧
        Stays lowercase default {} a record.scope (.apply options) := lookup_apply ha
      rw [hstart.1]
      rfl
    exact (Map.length_le_of_lookup hempty).trans (Nat.zero_le _)
  | append_singleton calls i ih =>
    rw [run_snoc]
    have hless : (∀ key record, held lowercase (run lowercase default options calls) i ≠
        some (key, record)) → ((run lowercase default options calls).step lowercase default
          i).1.pending.entries.length ≤ pendingLimit := by
      intro hno
      refine (Map.length_le_of_lookup fun a ha => ?_).trans ih
      obtain ⟨record, ha⟩ := Option.isSome_iff_exists.mp ha
      rw [((lookup_step ha).resolve_left (hno a record)).1]
      rfl
    cases hheld : held lowercase (run lowercase default options calls) i with
    | none => exact hless fun key record h => by rw [hheld] at h; cases h
    | some entry =>
      unfold held at hheld
      split at hheld
      · split at hheld
        · rename_i hroom
          obtain ⟨record, hr, -⟩ := Option.map_eq_some_iff.mp hheld
          unfold step
          dsimp only
          rw [hr]
          dsimp only [holdOwnMessage]
          rw [if_pos hroom]
          exact Map.length_insert_le.trans hroom
        · cases hheld
      · cases hheld

/-- A call hands a message to the logger that has been held since another call. -/
def Confirms (lowercase : String → String) (default : Option String) (options : ConversationLog)
    (earlier : List LogCall) (i : LogCall) (record : Record) (before : List LogCall)
    (j : LogCall) : Prop :=
  ∃ key text action serverTime now own, i = .release key text action serverTime now ∧
    HeldSince lowercase default options key own earlier before j ∧
      record = echoed text action serverTime now own ∧
        (Near record.time i.now ∨ Near record.time j.now)

theorem step_record (h : ((run lowercase default options calls).step lowercase default i).2 =
    some record) :
    ((run lowercase default options calls).step lowercase default i).1.wants record.scope = true ∧
      ((Near record.time i.now ∧ ∀ key text action serverTime now,
        i ≠ .release key text action serverTime now) ∨
        ∃ before j, Confirms lowercase default options calls i record before j) := by
  cases i with
  | apply | stop | drop | dropAll => cases h
  | event =>
    obtain ⟨hr, hw⟩ := Option.filter_eq_some_iff.mp h
    exact ⟨hw, .inl ⟨logRecord_some hr, fun _ _ _ _ _ hi => by cases hi⟩⟩
  | message =>
    obtain ⟨hr, hw⟩ := Option.filter_eq_some_iff.mp h
    exact ⟨hw, .inl ⟨messageRecord_some hr, fun _ _ _ _ _ hi => by cases hi⟩⟩
  | own window network localId scope conversation own text notice action =>
    unfold step at h ⊢
    dsimp only at h ⊢
    split at h
    · cases h
    · obtain ⟨hr, hw⟩ := Option.filter_eq_some_iff.mp h
      exact ⟨hw, .inl ⟨logRecord_some hr, fun _ _ _ _ _ hi => by cases hi⟩⟩
    · cases h
  | release key text action serverTime now =>
    obtain ⟨hr, hw⟩ := Option.filter_eq_some_iff.mp h
    obtain ⟨own, hown, rfl⟩ := Option.map_eq_some_iff.mp hr
    obtain ⟨before, j, hsince⟩ := heldSince hown
    refine ⟨hw, .inr ⟨before, j, key, text, action, serverTime, now, own, rfl, hsince, rfl, ?_⟩⟩
    cases serverTime with
    | none =>
      have hsent : Near own.time j.now := held_near hsince.holds
      exact .inr hsent
    | some time => exact .inl (receivedTime_near (some time) now)

theorem Confirms.before_le {i' : LogCall} {record' : Record} {j : LogCall}
    {later : List LogCall}
    (h : Confirms lowercase default options earlier i record before j)
    (h' : Confirms lowercase default options later i' record' before j)
    (hi : earlier ++ [i] <+: later) : False := by
  obtain ⟨key, text, action, serverTime, now, own, rfl, hsince, -, -⟩ := h
  obtain ⟨key', -, -, -, -, own', -, hsince', -, -⟩ := h'
  have hown : some (key, own) = some (key', own') := hsince.holds.symm.trans hsince'.holds
  cases hown
  obtain ⟨rest, rfl⟩ := hi
  exact hsince'.later (List.append_assoc ..) hsince.length_lt rfl

/-- A record is handed to the logger only while the log of its kind is on, with a time within 24
hours of when it is handled; a message of ours that is echoed only by its confirmation, once, when
it was held until then and its log stayed on in one directory; at most 64 wait. The directories of
the servers differ, also without regard to case, exactly when none that is marked has another's
name. -/
theorem logs_follow_switches (lowercase : String → String) (default : Option String)
    (options : ConversationLog) (servers : List ServerProfile) :
    (∀ calls, (run lowercase default options calls).pending.entries.length ≤ pendingLimit) ∧
    (∀ calls i record, ((run lowercase default options calls).step lowercase default i).2 =
      some record →
      (run lowercase default options (calls ++ [i])).wants record.scope = true ∧
        ((Near record.time i.now ∧ ∀ key text action serverTime now,
          i ≠ .release key text action serverTime now) ∨
          ∃ before j, Confirms lowercase default options calls i record before j)) ∧
    (∀ earlier i record later i' record' before j,
      Confirms lowercase default options earlier i record before j →
      Confirms lowercase default options later i' record' before j →
        ¬ earlier ++ [i] <+: later) ∧
    ((∀ p ∈ servers, ∀ q ∈ servers, p.id ≠ q.id → lowercase (networkDirectory lowercase servers p) ≠
      lowercase (networkDirectory lowercase servers q)) ↔ ToldApart lowercase servers) := by
  refine ⟨fun calls => pending_le, fun calls i record h => ?_, fun _ _ _ _ _ _ _ _ h h' hi => ?_,
    networkDirectory_ne_iff lowercase servers⟩
  · rw [run_snoc]
    exact step_record h
  · exact h.before_le h' hi

/-- A server is named as another one is marked. -/
theorem marked_name_taken :
    let a := { ServerProfile.new "custom-12345678" "a.example" with displayName := "Net" }
    let b := { ServerProfile.new "custom-87654321" "b.example" with displayName := "net" }
    let c := { ServerProfile.new "custom-11111111" "c.example" with
      displayName := "net (12345678)" }
    let servers := [a, b, c]
    (servers.map ServerProfile.id).Nodup ∧ toAsciiLowercase (networkDirectory toAsciiLowercase servers a) =
      toAsciiLowercase (networkDirectory toAsciiLowercase servers c) := by
  decide +kernel

/-! ## The logger and the settings -/

/-- The logger runs in the directory of the settings, and what waits is to be logged. -/
structure Serves (default : Option String) (s : ConversationLogs) : Prop where
  running : s.logger = s.directory.isSome
  directory : s.logger = true → s.directory = s.options.resolvedDirectory default
  waiting : ∀ key record, s.pending.lookup key = some record → s.wants record.scope = true

theorem apply_logger (s : ConversationLogs) :
    (s.apply default options).logger =
        (options.enabled && (options.resolvedDirectory default).isSome) ∧
      (s.apply default options).directory =
        if options.enabled && (options.resolvedDirectory default).isSome then
          options.resolvedDirectory default else none := by
  unfold apply stop
  dsimp only
  generalize (options.enabled && (options.resolvedDirectory default).isSome) = wanted
  cases wanted with
  | false => simp
  | true =>
    by_cases hd : s.directory = options.resolvedDirectory default <;>
      cases hl : s.logger <;> simp [hd, hl]

theorem apply_serves (s : ConversationLogs) : (s.apply default options).Serves default := by
  obtain ⟨hlogger, hdirectory⟩ := @apply_logger default options s
  have hoptions : (s.apply default options).options = options := rfl
  refine ⟨?_, fun hr => ?_, fun key record hp => ?_⟩
  · rw [hlogger, hdirectory]
    split_ifs with hwanted
    · rw [hwanted, (Bool.and_eq_true_iff.mp hwanted).2]
    · simpa using hwanted
  · rw [hdirectory, if_pos (hlogger ▸ hr), hoptions]
  · obtain ⟨-, hon, hd, hsome⟩ := @lookup_apply id _ _ _ _ _ hp
    have henabled : options.enabled = true := by
      unfold ConversationLog.enabled
      unfold ConversationLog.records at hon
      split at hon <;> simp [hon]
    unfold wants
    rw [hlogger, hoptions, henabled, ← hd, hsome, hon]
    rfl

theorem held_wants (h : held lowercase s i = some (key, record)) :
    s.wants record.scope = true := by
  unfold held at h
  split at h
  · split at h
    · obtain ⟨r, hr, hkey⟩ := Option.map_eq_some_iff.mp h
      cases hkey
      unfold ownMessageRecord logRecord at hr
      split at hr
      · cases hr
      · rename_i hwants
        obtain ⟨profile, -, rfl⟩ := Option.map_eq_some_iff.mp hr
        simpa using hwants
    · cases h
  · cases h

theorem step_serves (h : s.Serves default) : (s.step lowercase default i).1.Serves default := by
  have hpending : ∀ t : ConversationLogs, t.logger = s.logger → t.options = s.options →
      t.directory = s.directory → t = (s.step lowercase default i).1 → t.Serves default := by
    rintro t hl ho hd rfl
    refine ⟨by rw [hl, hd, h.running], fun hr => ?_, fun key record hp => ?_⟩
    · rw [hd, ho]
      exact h.directory (hl ▸ hr)
    · unfold wants
      rw [hl, ho]
      rcases lookup_step hp with hheld | ⟨hold, -⟩
      · exact held_wants hheld
      · exact h.waiting key record hold
  cases i with
  | apply options => exact apply_serves s
  | stop => exact ⟨rfl, by rintro ⟨⟩, fun key record hp => by simp [step, stop] at hp⟩
  | event | message | release | drop | dropAll => exact hpending _ rfl rfl rfl rfl
  | own window network localId scope conversation own text notice action =>
    refine hpending _ ?_ ?_ ?_ rfl <;> unfold step <;> dsimp only <;> split <;>
      first | rfl | (unfold holdOwnMessage; split_ifs <;> rfl)

/-- After any calls the logger runs exactly while it has a directory, that of the settings, and
every message that waits is of a kind that is logged; changed settings start and stop it. -/
theorem logger_serves (lowercase : String → String) (default : Option String)
    (options : ConversationLog) (calls : List LogCall) :
    (run lowercase default options calls).Serves default ∧ ∀ changed : ConversationLog,
      ((run lowercase default options calls).apply default changed).logger =
        (changed.enabled && (changed.resolvedDirectory default).isSome) := by
  refine ⟨?_, fun changed => (apply_logger _).1⟩
  induction calls using List.reverseRecOn with
  | nil => exact apply_serves _
  | append_singleton calls i ih =>
    rw [run_snoc]
    exact step_serves ih

end ConversationLogs

end CayenChat.Logs
