import CayenChat.Lib.Bounded
import CayenChat.Wire.Names

/-! # Log lines and the duplicate filter

What a source supplies with a line, the log lines made of it, their order by
the time of the source, and the bounded filter that recognizes a message that
is delivered again. Sequences are integers; a line's own time of day, its links,
its highlighted ranges and its account are left out.
-/

namespace CayenChat.App

def duplicateKeysPerConversation : ℕ := 512

def fingerprintTextBytes : ℕ := 512

def maxRetained : ℕ := 2000

def nativeIdMaxBytes : ℕ := 128

abbrev SystemTime := ℤ

abbrev Timestamp := ℕ

def timestampOf (time : SystemTime) : Option Timestamp :=
  if 0 ≤ time ∧ time.toNat / 1000000 < 2 ^ 64 then some (time.toNat / 1000000) else none

/-- A message's identifier at its source. -/
structure NativeMessageId where
  asStr : String
  usable : asStr ≠ "" ∧ byteLen asStr ≤ nativeIdMaxBytes ∧ asciiGraphic asStr = true
  deriving DecidableEq

/-- How a message reached the client. -/
inductive Provenance | live | replayed | requested
  deriving DecidableEq, Repr

def Provenance.isHistory (p : Provenance) : Bool := p ≠ .live

/-- How a line of text was sent. -/
inductive Kind | message | notice | action
  deriving DecidableEq, Repr

/-- What a timeline item is. -/
inductive Line | text | activity | alert
  deriving DecidableEq, Repr

/-- A timeline item's metadata as its source reported it. -/
structure MessageMeta where
  serverTime : Option SystemTime := none
  nativeId : Option NativeMessageId := none
  provenance : Provenance := .live
  deriving DecidableEq

/-- One incoming line, for callers that add several at once. -/
structure TimelineLine where
  sender : String
  text : String
  notice : Bool := false
  action : Bool := false
  attention : Bool := false
  info : MessageMeta := {}
  deriving DecidableEq

/-- A retained timeline item. -/
structure Message where
  sequence : ℤ := 0
  timestamp : Option Timestamp := none
  nativeId : Option NativeMessageId := none
  sender : String
  text : String
  activity : Bool := false
  alert : Bool := false
  notice : Bool := false
  action : Bool := false
  provenance : Provenance := .live
  deliveryFailed : Bool := false
  deriving DecidableEq

def Message.isHistory (m : Message) : Bool := m.provenance.isHistory

def isBidiControl (c : Char) : Bool :=
  (0x202A ≤ c.toNat && c.toNat ≤ 0x202E) || (0x2066 ≤ c.toNat && c.toNat ≤ 0x2069)

def neutralizeBidi (text : String) : String :=
  String.ofList (text.toList.map fun c => if isBidiControl c then Char.ofNat 0x200B else c)

def newMessage (sender text : String) (line : Line) (info : MessageMeta) : Message where
  timestamp := info.serverTime.bind timestampOf
  nativeId := info.nativeId
  sender
  text := neutralizeBidi text
  activity := line ≠ .text
  alert := line = .alert
  provenance := info.provenance

def noticeMarked (text : String) (kind : Kind) : String :=
  if kind = .notice then "[NOTICE] " ++ text else text

def requestedMessage (line : TimelineLine) : Message :=
  { newMessage line.sender line.text .text { line.info with provenance := .requested } with
    notice := line.notice
    action := line.action }

def heldTimes : Option Timestamp → List (Option Timestamp) → List (Option Timestamp)
  | _, [] => []
  | time, own :: rest => own.or time :: heldTimes (own.or time) rest

def timeLe : Option Timestamp → Option Timestamp → Prop
  | none, _ => True
  | some _, none => False
  | some a, some b => a ≤ b

instance : DecidableRel timeLe
  | none, _ => isTrue trivial
  | some _, none => isFalse id
  | some a, some b => inferInstanceAs (Decidable (a ≤ b))

/-- The order, as indexes, in which lines with these times go; lines of equal time keep theirs. -/
def serverTimeOrder (timestamps : List (Option Timestamp)) : List ℕ :=
  let times := heldTimes none timestamps
  (List.range times.length).insertionSort fun i j => timeLe times[i]?.join times[j]?.join

/-- Drops lines while there are too many, at most `fuel` times. -/
def drainLong : ℕ → List Message → List Message
  | 0, messages => messages
  | fuel + 1, messages =>
    if maxRetained < messages.length then drainLong fuel (messages.drop 1000) else messages

def trimRetained (messages : List Message) : List Message × Bool :=
  (drainLong messages.length messages, maxRetained < messages.length)

def pushBounded (messages : List Message) (message : Message) : List Message × Bool :=
  trimRetained (messages ++ [message])

/-- What a message is recognized by. The hash of the source is taken to be injective. -/
inductive MessageKey
  | native (id : NativeMessageId)
  | fingerprint (timestamp : Timestamp) (activity action : Bool) (sender : String) (length : ℕ)
      (text : List UInt8)
  deriving DecidableEq

/-- The most recent message keys of one conversation, oldest first. -/
structure DuplicateFilter where
  order : List MessageKey := []
  seen : Finset MessageKey := ∅

def Message.fingerprint (timestamp : Timestamp) (m : Message) : MessageKey :=
  let text := utf8Bytes m.text
  .fingerprint timestamp m.activity m.action m.sender text.length (text.take fingerprintTextBytes)

def Message.key (m : Message) : Option (MessageKey × Bool) :=
  match m.nativeId, m.timestamp with
  | some id, _ => some (.native id, true)
  | none, some timestamp => some (m.fingerprint timestamp, m.isHistory)
  | none, none => none

namespace DuplicateFilter

/-- Records a message and returns whether it is new. -/
def admitMessage (f : DuplicateFilter) (m : Message) : DuplicateFilter × Bool :=
  match m.key with
  | none => (f, true)
  | some (key, suppress) =>
    if key ∈ f.seen then (f, !suppress)
    else
      let f := match f.order with
        | oldest :: order =>
          if duplicateKeysPerConversation ≤ f.order.length then
            { f with order, seen := f.seen.erase oldest }
          else f
        | [] => f
      ({ f with order := f.order ++ [key], seen := insert key f.seen }, true)

/-- Whether `admitMessage` would drop a message. -/
def contains (f : DuplicateFilter) (m : Message) : Bool :=
  m.key.any fun (key, suppress) => suppress && key ∈ f.seen

end DuplicateFilter

/-! ## The window of keys -/

/-- The keys recorded for messages delivered one after the other: a key is recorded again once it is
not among the last ones. -/
def recordKey (keys : List MessageKey) (m : Message) : List MessageKey :=
  match m.key with
  | none => keys
  | some (key, _) =>
    if key ∈ keys.rtake duplicateKeysPerConversation then keys else keys ++ [key]

namespace DuplicateFilter

/-- The filter holds the last of the keys. -/
structure Holds (f : DuplicateFilter) (keys : List MessageKey) : Prop where
  order : f.order = keys.rtake duplicateKeysPerConversation
  seen : ∀ key, key ∈ f.seen ↔ key ∈ f.order
  nodup : f.order.Nodup

variable {f : DuplicateFilter} {keys : List MessageKey}

theorem Holds.admitMessage (h : f.Holds keys) (m : Message) :
    (f.admitMessage m).1.Holds (recordKey keys m) := by
  unfold DuplicateFilter.admitMessage recordKey
  cases m.key with
  | none => exact h
  | some entry =>
    obtain ⟨key, suppress⟩ := entry
    dsimp only
    rw [← h.order]
    by_cases hseen : key ∈ f.seen
    · rw [if_pos hseen, if_pos ((h.seen key).mp hseen)]
      exact h
    have hnew : key ∉ f.order := fun hk => hseen ((h.seen key).mpr hk)
    rw [if_neg hseen, if_neg hnew]
    have horder : Bounded.push duplicateKeysPerConversation f.order key =
        (keys ++ [key]).rtake duplicateKeysPerConversation := by
      rw [h.order]
      exact Bounded.push_rtake (by decide)
    have hsnoc : ∀ l : List MessageKey, key ∉ l → l.Nodup → (l ++ [key]).Nodup := by
      intro l hk hl
      rw [← List.concat_eq_append]
      exact List.Nodup.concat hk hl
    unfold Bounded.push at horder
    cases f with
    | mk order seen =>
      cases order with
      | nil => exact ⟨horder, by simp [h.seen], List.nodup_singleton key⟩
      | cons oldest order =>
        obtain ⟨hold, hnodup⟩ := List.nodup_cons.mp h.nodup
        have hmem := h.seen
        dsimp only at horder hnew hmem ⊢
        split_ifs at horder ⊢ with hfull
        · refine ⟨horder, fun other => ?_, ?_⟩
          · simp only [Finset.mem_insert, Finset.mem_erase, hmem, List.mem_cons, List.mem_append]
            grind
          · exact hsnoc order (fun hk => hnew (List.mem_cons_of_mem _ hk)) hnodup
        · refine ⟨horder, fun other => ?_, hsnoc _ hnew h.nodup⟩
          simp only [Finset.mem_insert, hmem, List.mem_append, List.mem_singleton]
          exact or_comm

/-- After any messages the filter holds the last keys recorded, each once, and drops a message
exactly when its key suppresses it and is among these. -/
theorem repeats_recognized (ms : List Message) (m : Message) :
    let f : DuplicateFilter := ms.foldl (fun f m => (f.admitMessage m).1) {}
    let keys := (ms.foldl recordKey []).rtake duplicateKeysPerConversation
    f.order = keys ∧ keys.Nodup ∧ (∀ key, key ∈ f.seen ↔ key ∈ keys) ∧
      (f.contains m = true ↔ (f.admitMessage m).2 = false) ∧
      ((f.admitMessage m).2 = false ↔ ∃ key ∈ keys, m.key = some (key, true)) := by
  have h : Holds (ms.foldl (fun f m => (f.admitMessage m).1) {}) (ms.foldl recordKey []) := by
    induction ms using List.reverseRecOn with
    | nil => exact ⟨rfl, fun key => by simp, List.nodup_nil⟩
    | append_singleton ms m ih =>
      rw [List.foldl_append, List.foldl_append]
      exact ih.admitMessage m
  intro f keys
  have hseen : ∀ key, key ∈ f.seen ↔ key ∈ keys := fun key => by rw [h.seen, h.order]
  have hdrop : (f.admitMessage m).2 = false ↔ ∃ key ∈ keys, m.key = some (key, true) := by
    unfold DuplicateFilter.admitMessage
    cases m.key with
    | none => simp
    | some entry =>
      obtain ⟨key, suppress⟩ := entry
      by_cases hk : key ∈ f.seen
      · simp [hk, (hseen key).mp hk]
      · have hkeys := mt (hseen key).mpr hk
        simp [hk, hkeys]
  have hnodup := h.nodup
  rw [h.order] at hnodup
  refine ⟨h.order, hnodup, hseen, ?_, hdrop⟩
  rw [hdrop]
  unfold contains
  cases m.key with
  | none => simp
  | some entry =>
    obtain ⟨key, suppress⟩ := entry
    simp [hseen, and_comm]

end DuplicateFilter

end CayenChat.App
