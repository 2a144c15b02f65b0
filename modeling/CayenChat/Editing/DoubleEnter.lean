import CayenChat.Lib.Machine

/-! # Sending with Enter twice

The first Enter in a draft waits and a second one soon after sends. What a press does is told by
what came before it: the last press that counted, and what has happened since.
-/

namespace CayenChat
open Machine Past

def doubleEnterWindow : ℕ := 700 * 1000000

namespace DoubleEnter

/-- A press of Enter in the draft of a conversation. -/
structure Pending (S : Type*) where
  selection : S
  text : String
  cursor : ℕ × ℕ
  instant : ℕ
  deriving DecidableEq

end DoubleEnter

structure DoubleEnter (S : Type*) where
  pending : Option (DoubleEnter.Pending S) := none
  /-- Enter is still down since the last press. -/
  held : Bool := false

namespace DoubleEnter

variable {S : Type*} [DecidableEq S]

def reset (keys : DoubleEnter S) : DoubleEnter S := { keys with pending := none }

def keyUp (keys : DoubleEnter S) : DoubleEnter S := { keys with held := false }

/-- The first Enter is dropped when another conversation is shown or the draft lost the focus. -/
def keepOnlyFor (keys : DoubleEnter S) (selection : S) (focused : Bool) : DoubleEnter S where
  held := keys.held && focused
  pending :=
    if !focused || keys.pending.any (·.selection != selection) then none else keys.pending

/-- The second press is soon enough behind the first and in the same draft. -/
def completes (first second : Pending S) : Bool :=
  first.selection == second.selection && first.text == second.text &&
    first.cursor == second.cursor && decide (second.instant - first.instant ≤ doubleEnterWindow)

def press (keys : DoubleEnter S) (now : Pending S) : Bool × DoubleEnter S :=
  if keys.held then (false, keys)
  else if keys.pending.any (completes · now) then (true, ⟨none, true⟩)
  else (false, ⟨some now, true⟩)

/-- What happens around the draft. -/
inductive Event (S : Type*)
  | press (now : Pending S)
  | keyUp
  | reset
  | keepOnlyFor (selection : S) (focused : Bool)

def step (keys : DoubleEnter S) : Event S → DoubleEnter S
  | .press now => (keys.press now).2
  | .keyUp => keys.keyUp
  | .reset => keys.reset
  | .keepOnlyFor selection focused => keys.keepOnlyFor selection focused

def state (events : List (Event S)) : DoubleEnter S := exec step {} events

def sends (events : List (Event S)) (now : Pending S) : Bool := ((state events).press now).1

/-! ## The events as a history -/

def Event.IsPress (e : Event S) : Prop := ∃ now, e = .press now

def Event.Releases (e : Event S) : Prop := e = .keyUp ∨ ∃ selection, e = .keepOnlyFor selection false

def Event.Drops (first : Pending S) (e : Event S) : Prop :=
  e = .reset ∨ ∃ selection focused, e = .keepOnlyFor selection focused ∧
    (focused = false ∨ selection ≠ first.selection)

/-- Enter is down: a press behind these events is a repeat, and ignored. -/
def Held (events : List (Event S)) : Prop :=
  ∃ before e, Since (fun _ e => e.IsPress) (fun _ _ e => ¬ e.Releases) events before e

def LastPress (events before : List (Event S)) (first : Pending S) : Prop :=
  Since (fun before e => e.IsPress ∧ ¬ Held before) (fun _ before e => e.IsPress → Held before)
    events before (.press first)

def Waiting (events before : List (Event S)) (first : Pending S) : Prop :=
  LastPress events before first ∧ sends before first = false ∧
    ∀ e ∈ events.drop (before.length + 1), ¬ e.Drops first

variable {events before later : List (Event S)} {first now next : Pending S} {e : Event S}
  {keys : DoubleEnter S}

@[simp] theorem state_nil : state ([] : List (Event S)) = {} := rfl

theorem state_snoc : state (events ++ [e]) = step (state events) e := by
  rw [state, exec_append]
  rfl

theorem completes_iff : completes first now = true ↔
    first.selection = now.selection ∧ first.text = now.text ∧ first.cursor = now.cursor ∧
      now.instant ≤ first.instant + doubleEnterWindow := by
  simp only [completes, Bool.and_eq_true, beq_iff_eq, decide_eq_true_eq, and_assoc,
    Nat.sub_le_iff_le_add']

/-! ## What the state says -/

omit [DecidableEq S] in
theorem not_drops_press : ¬ (Event.press now : Event S).Drops first := by
  rintro (h | ⟨selection, focused, h, -⟩) <;> cases h

omit [DecidableEq S] in
theorem held_snoc : Held (events ++ [e]) ↔ e.IsPress ∨ (Held events ∧ ¬ e.Releases) := by
  simp only [Held, since_snoc]
  constructor
  · rintro ⟨before, i, ⟨-, rfl, h⟩ | ⟨h, hno⟩⟩
    · exact Or.inl h
    · exact Or.inr ⟨⟨before, i, h⟩, hno⟩
  · rintro (h | ⟨⟨before, i, h⟩, hno⟩)
    · exact ⟨events, e, Or.inl ⟨rfl, rfl, h⟩⟩
    · exact ⟨before, i, Or.inr ⟨h, hno⟩⟩

theorem held_state : (state events).held = true ↔ Held events := by
  induction events using List.reverseRecOn with
  | nil => simp [Held]
  | append_singleton events e ih =>
    rw [state_snoc, held_snoc, ← ih]
    cases e with
    | press now =>
      have hpress : (Event.press now : Event S).IsPress := ⟨now, rfl⟩
      simp only [step, press, hpress, true_or, iff_true]
      split_ifs <;> first | rfl | assumption
    | keyUp => simp [step, keyUp, Event.IsPress, Event.Releases]
    | reset => simp [step, reset, Event.IsPress, Event.Releases]
    | keepOnlyFor selection focused =>
      simp [step, keepOnlyFor, Event.IsPress, Event.Releases]

omit [DecidableEq S] in
theorem lastPress_snoc : LastPress (events ++ [e]) before first ↔
    (before = events ∧ e = .press first ∧ ¬ Held events) ∨
      (LastPress events before first ∧ (e.IsPress → Held events)) := by
  rw [LastPress, since_snoc]
  constructor
  · rintro (⟨rfl, rfl, -, h⟩ | h)
    · exact Or.inl ⟨rfl, rfl, h⟩
    · exact Or.inr h
  · rintro (⟨rfl, rfl, h⟩ | h)
    · exact Or.inl ⟨rfl, rfl, ⟨first, rfl⟩, h⟩
    · exact Or.inr h

theorem waiting_snoc : Waiting (events ++ [e]) before first ↔
    (before = events ∧ e = .press first ∧ ¬ Held events ∧ sends events first = false) ∨
      (Waiting events before first ∧ (e.IsPress → Held events) ∧ ¬ e.Drops first) := by
  rw [Waiting, lastPress_snoc]
  constructor
  · rintro ⟨⟨rfl, rfl, h⟩ | ⟨hlast, hkey⟩, hno, hkept⟩
    · exact Or.inl ⟨rfl, rfl, h, hno⟩
    · have hlt : before.length + 1 ≤ events.length := Since.length_lt hlast
      rw [List.drop_append_of_le_length hlt] at hkept
      simp only [List.mem_append, List.mem_singleton] at hkept
      exact Or.inr ⟨⟨hlast, hno, fun i hi => hkept i (Or.inl hi)⟩, hkey, hkept e (Or.inr rfl)⟩
  · rintro (⟨rfl, rfl, h, hno⟩ | ⟨⟨hlast, hno, hkept⟩, hkey, hdrop⟩)
    · exact ⟨Or.inl ⟨rfl, rfl, h⟩, hno, by simp⟩
    · have hlt : before.length + 1 ≤ events.length := Since.length_lt hlast
      refine ⟨Or.inr ⟨hlast, hkey⟩, hno, ?_⟩
      rw [List.drop_append_of_le_length hlt]
      intro i hi
      rcases List.mem_append.mp hi with hi | hi
      · exact hkept i hi
      · rw [List.mem_singleton.mp hi]
        exact hdrop

omit [DecidableEq S] in
theorem drops_keepOnlyFor {selection : S} {focused : Bool} :
    (Event.keepOnlyFor selection focused).Drops first ↔
      focused = false ∨ selection ≠ first.selection := by
  constructor
  · rintro (h | ⟨_, _, h, hdrop⟩)
    · cases h
    · cases h
      exact hdrop
  · intro h
    exact Or.inr ⟨selection, focused, rfl, h⟩

theorem press_of_held (h : keys.held = true) : keys.press now = (false, keys) := if_pos h

theorem press_of_completes (h : keys.held = false) (hfirst : keys.pending.any (completes · now)) :
    keys.press now = (true, ⟨none, true⟩) := by
  rw [press, if_neg (by simp [h]), if_pos hfirst]

theorem press_of_waits (h : keys.held = false) (hfirst : keys.pending.any (completes · now) = false) :
    keys.press now = (false, ⟨some now, true⟩) := by
  rw [press, if_neg (by simp [h]), if_neg (by simp [hfirst])]

theorem keepOnlyFor_pending {selection : S} {focused : Bool} :
    (keys.keepOnlyFor selection focused).pending = some first ↔
      keys.pending = some first ∧ ¬ (Event.keepOnlyFor selection focused).Drops first := by
  rw [drops_keepOnlyFor, keepOnlyFor]
  cases hpending : keys.pending with
  | none => simp
  | some p =>
    by_cases hp : p = first
    · subst hp
      by_cases hselection : p.selection = selection
      · cases focused <;> simp [hselection]
      · have hne : selection ≠ p.selection := Ne.symm hselection
        simp [hselection, hne]
    · simp [hp]

theorem pending_state : (state events).pending = some first ↔ ∃ before, Waiting events before first := by
  induction events using List.reverseRecOn generalizing first with
  | nil => simp [Waiting, LastPress]
  | append_singleton events e ih =>
    rw [state_snoc]
    simp only [waiting_snoc, exists_or, exists_and_right, ← ih]
    cases e with
    | press now =>
      have hpress : (Event.press now : Event S).IsPress := ⟨now, rfl⟩
      by_cases hheld : Held events
      · have hkept : step (state events) (.press now) = state events := by
          rw [step, press_of_held (held_state.mpr hheld)]
        simp [hkept, hheld, not_drops_press]
      · have hstate : (state events).held = false :=
          Bool.eq_false_iff.mpr fun h => hheld (held_state.mp h)
        cases hsends : (state events).pending.any (completes · now) with
        | true =>
          have hpair := press_of_completes hstate hsends
          have hnew : (step (state events) (.press now)).pending = none := by rw [step, hpair]
          have hsent : sends events now = true := by rw [sends, hpair]
          simp only [hnew, reduceCtorEq, false_iff]
          rintro (⟨-, heq, -, hno⟩ | ⟨-, h, -⟩)
          · cases heq
            simp [hsent] at hno
          · exact hheld (h hpress)
        | false =>
          have hpair := press_of_waits hstate hsends
          have hnew : (step (state events) (.press now)).pending = some now := by rw [step, hpair]
          have hsent : sends events now = false := by rw [sends, hpair]
          rw [hnew]
          constructor
          · intro h
            cases h
            exact Or.inl ⟨⟨events, rfl⟩, rfl, hheld, hsent⟩
          · rintro (⟨-, heq, -⟩ | ⟨-, h, -⟩)
            · cases heq
              rfl
            · exact absurd (h hpress) hheld
    | keyUp => simp [step, keyUp, Event.IsPress, Event.Drops]
    | reset => simp [step, reset, Event.IsPress, Event.Drops]
    | keepOnlyFor selection focused =>
      have hno : ¬ (Event.keepOnlyFor selection focused : Event S).IsPress := by
        rintro ⟨_, h⟩
        cases h
      simp [step, keepOnlyFor_pending, hno]

/-! ## When a press sends -/

theorem sends_iff : sends events now = true ↔
    ¬ Held events ∧ ∃ before first, Waiting events before first ∧ completes first now = true := by
  rw [sends]
  by_cases hheld : Held events
  · rw [press_of_held (held_state.mpr hheld)]
    simp [hheld]
  · have hstate : (state events).held = false :=
      Bool.eq_false_iff.mpr fun h => hheld (held_state.mp h)
    have hfirst : ((state events).press now).1 = (state events).pending.any (completes · now) := by
      cases h : (state events).pending.any (completes · now) with
      | true => rw [press_of_completes hstate h]
      | false => rw [press_of_waits hstate h]
    rw [hfirst, Option.any_eq_true]
    constructor
    · rintro ⟨first, hpending, hcompletes⟩
      obtain ⟨before, hwaiting⟩ := pending_state.mp hpending
      exact ⟨hheld, before, first, hwaiting, hcompletes⟩
    · rintro ⟨-, before, first, hwaiting, hcompletes⟩
      exact ⟨first, pending_state.mpr ⟨before, hwaiting⟩, hcompletes⟩

theorem quiet_since_press (hkey : Event.keyUp ∉ later) :
    (state (before ++ .press now :: later)).held = true ∨
      (state (before ++ .press now :: later)).pending = none := by
  have hpress : ∀ (keys : DoubleEnter S) (now : Pending S), (keys.press now).2.held = true := by
    intro keys now
    unfold press
    split_ifs <;> first | rfl | assumption
  rw [state, exec_append, exec_cons]
  apply exec_invariant (C := fun _ e => e ≠ Event.keyUp)
    (fun keys : DoubleEnter S => keys.held = true ∨ keys.pending = none)
  · intro keys e hquiet hne
    cases e with
    | press now => exact Or.inl (hpress keys now)
    | keyUp => exact absurd rfl hne
    | reset => exact Or.inr rfl
    | keepOnlyFor selection focused =>
      cases focused with
      | false => exact Or.inr rfl
      | true => rcases hquiet with h | h <;> simp [step, keepOnlyFor, h]
  · exact Or.inl (hpress _ now)
  · apply along_of_mem
    rintro e he _ rfl
    exact hkey he

theorem repeat_never_sends (hkey : Event.keyUp ∉ later) :
    sends (before ++ .press first :: later) now = false := by
  apply Bool.eq_false_iff.mpr
  intro hsends
  obtain ⟨hheld, first, _, hwaiting, -⟩ := sends_iff.mp hsends
  rcases quiet_since_press hkey with h | h
  · exact hheld (held_state.mp h)
  · rw [pending_state.mpr ⟨_, hwaiting⟩] at h
    cases h

theorem Waiting.behind_send {before : List (Event S)} (h : Waiting later before first)
    (hsends : sends events now = true) (hlater : events ++ [.press now] <+: later) :
    events.length < before.length := by
  obtain ⟨rest, rfl⟩ := hlater
  have hle : events.length ≤ before.length := by
    apply Since.last h.1 (fun i l j hj hno => hj.2 (hno hj.1)) (List.append_assoc ..)
    exact ⟨⟨now, rfl⟩, (sends_iff.mp hsends).1⟩
  apply lt_of_le_of_ne hle
  intro heq
  obtain ⟨after, hsplit, -⟩ := h.1
  rw [List.append_assoc] at hsplit
  obtain ⟨rfl, htail⟩ := List.append_inj hsplit heq
  cases htail
  simp [h.2.1] at hsends

/-- Enter twice sends exactly when it is meant: a press sends if and only if the key was up and the
last press that counted did not send, was in the same draft soon before, and was not dropped since.
A repeat never sends, a key that is held leaves the waiting press alone, and no two sends share a
press. -/
theorem sends_when_meant (events : List (Event S)) (now : Pending S) :
    (sends events now = true ↔ ¬ Held events ∧ ∃ before first, LastPress events before first ∧
      sends before first = false ∧
      (∀ e ∈ events.drop (before.length + 1), ¬ e.Drops first) ∧
      first.selection = now.selection ∧ first.text = now.text ∧ first.cursor = now.cursor ∧
      now.instant ≤ first.instant + doubleEnterWindow) ∧
    (∀ before first later, events = before ++ .press first :: later → Event.keyUp ∉ later →
      sends events now = false) ∧
    (Held events → state (events ++ [.press now]) = state events) ∧
    ∀ later next before first before' first', sends events now = true → sends later next = true →
      events ++ [.press now] <+: later → Waiting events before first →
      Waiting later before' first' →
      before.length < events.length ∧ events.length < before'.length := by
  refine ⟨?_, ?_, ?_, ?_⟩
  · simp only [sends_iff, Waiting, completes_iff, and_assoc]
  · rintro before first later rfl hkey
    exact repeat_never_sends hkey
  · intro h
    rw [state_snoc, step, press_of_held (held_state.mpr h)]
  · intro later next before first before' first' hsends _ hlater hfirst hnext
    exact ⟨Since.length_lt hfirst.1, hnext.behind_send hsends hlater⟩

example : sends [.press ⟨1, "hi", (2, 2), 0⟩, .press ⟨1, "hi", (2, 2), 100⟩, .keyUp]
    (⟨1, "hi", (2, 2), 300⟩ : Pending ℕ) = true := by decide

end DoubleEnter

end CayenChat
