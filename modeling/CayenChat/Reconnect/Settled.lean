import CayenChat.Reconnect.Acts

/-! # Reconnecting does neither too much nor too little -/

namespace CayenChat.Reconnect

open Machine

namespace Chat

variable {c : Chat}

instance : Decidable c.Retries := inferInstanceAs (Decidable (_ ∧ _))
instance : Decidable c.SleepMarked := inferInstanceAs (Decidable (_ ∧ _))
instance : Decidable c.ReadsSaved := inferInstanceAs (Decidable (_ ∧ _))
instance : Decidable c.Starting := inferInstanceAs (Decidable (_ ∨ _))

theorem step_timer_stale {t : ℕ} (h : t ≠ c.session.retryToken ∨ c.session.asleep = true)
    (changed : Bool) : c.step (.timer t changed) = { c with timers := c.timers.erase t } := by
  unfold step
  dsimp only
  split
  · unfold timerFired
    grind
  · rename_i hnone
    rw [List.erase_of_not_mem hnone]

theorem step_read_stale {t : ℕ} (h : t ≠ c.session.retryToken) (found : Found) :
    c.step (.answered (.reconnect t) found) = { c with reads := c.reads.erase (.reconnect t) } := by
  unfold step
  dsimp only
  split
  · cases found <;> exact if_pos (.inl h.symm)
  · rename_i hnone
    rw [List.erase_of_not_mem hnone]

theorem SleepMarked.wake (h : c.SleepMarked) (changed : Bool) :
    (c.step (.wake changed)).Starting ∨ c.errors < (c.step (.wake changed)).errors := by
  obtain ⟨hasleep, hmanual, hactive⟩ := h
  grind [step, checkConnectionsAfterWake, startReconnect, reconnectWithStoredSecrets, raiseError,
    Starting]

theorem Retries.timer (h : c.Retries) (hirc : c.session.irc = none)
    (hactive : c.session.activeConfig = true) (changed : Bool) :
    (c.step (.timer c.session.retryToken changed)).Starting ∨
      c.errors < (c.step (.timer c.session.retryToken changed)).errors := by
  obtain ⟨-, htimer, hmanual, hasleep⟩ := h
  grind [step, timerFired, startReconnect, reconnectWithStoredSecrets, raiseError, Starting]

@[simp] theorem startReconnect_attempts (c : Chat) (changed : Bool) :
    (c.startReconnect changed).attempts = c.attempts := by
  grind [startReconnect_same]

@[simp] theorem scheduleRetry_attempts (c : Chat) : c.scheduleRetry.attempts = c.attempts := by
  unfold scheduleRetry
  split <;> rfl

theorem ended_attempts (c : Chat) (how : End) : (c.ended how).attempts = c.attempts := by
  unfold ended
  dsimp only
  split <;> simp

theorem timerFired_attempts (c : Chat) (token : ℕ) (changed : Bool) :
    (c.timerFired token changed).attempts = c.attempts := by
  unfold timerFired
  dsimp only
  split <;> simp

theorem prepareForSleep_attempts (c : Chat) : c.prepareForSleep.attempts = c.attempts := by
  grind [prepareForSleep]

theorem checkConnectionsAfterWake_attempts (c : Chat) (changed : Bool) :
    (c.checkConnectionsAfterWake changed).attempts = c.attempts := by
  unfold checkConnectionsAfterWake
  split
  · rfl
  split <;> simp

theorem perform_attempts {act : Act} (h : act.connects c = false) :
    (c.perform act).attempts = c.attempts := by
  cases act with
  | retryNickname changed =>
    unfold perform retryNickname
    dsimp only
    split <;> simp
  | disconnect => rfl
  | quit => rfl
  | cancel =>
    unfold perform cancel
    dsimp only
    split <;> rfl
  | _ => simp [Act.connects] at h

theorem readAnswered_barred (hm : c.session.manualDisconnect = true) (hp : c.prompt = none)
    (hs : ¬c.ReadsSaved) {read : Read} (hr : read ∈ c.reads) (found : Found) :
    (c.readAnswered read found).attempts = c.attempts := by
  cases read with
  | reconnect t =>
    have hidle : ∀ missing fails, (Chat.storedSecretsRead
        { c with reads := c.reads.erase (.reconnect t) } t missing fails).attempts =
        c.attempts := by
      intro missing fails
      rw [storedSecretsRead, if_pos (.inr hm)]
    cases found <;> exact hidle _ _
  | keys resume =>
    unfold readAnswered finishCredentialPrompt
    simp [hp]
  | saved =>
    have hactive : c.session.activeConfig = true := by
      grind [ReadsSaved]
    unfold readAnswered savedRead
    simp [ServerSession.used, hactive]
  | startup =>
    have hactive : c.session.activeConfig = true := by
      grind [ReadsSaved]
    unfold readAnswered savedRead
    simp [ServerSession.used, hactive]

theorem step_barred (hm : c.session.manualDisconnect = true) (hp : c.prompt = none)
    (hs : ¬c.ReadsSaved) {i : Input} (hi : i.connects c = false) :
    (c.step i).attempts = c.attempts := by
  unfold step
  cases i with
  | act act =>
    dsimp only
    split
    · rename_i ho
      exact perform_attempts (by simpa [Input.connects, ho] using hi)
    · rfl
  | ended generation how =>
    dsimp only
    split
    · exact ended_attempts c how
    · rfl
  | registered generation =>
    dsimp only
    split <;> rfl
  | nicknameRejected generation =>
    dsimp only
    split <;> rfl
  | timer token changed =>
    dsimp only
    split
    · exact timerFired_attempts c token changed
    · rfl
  | answered read found =>
    dsimp only
    split
    · rename_i hr
      exact readAnswered_barred hm hp hs hr found
    · rfl
  | sleep => exact prepareForSleep_attempts c
  | wake changed => exact checkConnectionsAfterWake_attempts c changed

end Chat

namespace Watch

def init (startup : Bool) : Watch := { chat := Chat.init startup }

/-- Reconnecting does neither too much nor too little. -/
structure Settled (w : Watch) : Prop where
  /-- A timer of another token, or of a session asleep, starts nothing. -/
  timers : ∀ t changed, t ≠ w.chat.session.retryToken ∨ w.chat.session.asleep = true →
    w.chat.step (.timer t changed) = { w.chat with timers := w.chat.timers.erase t }
  /-- Nor does a read for another token. -/
  reads : ∀ t found, t ≠ w.chat.session.retryToken →
    w.chat.step (.answered (.reconnect t) found) =
      { w.chat with reads := w.chat.reads.erase (.reconnect t) }
  live : w.chat.live.length ≤ 1
  /-- After the user ruled out a connection only the user connects. -/
  barred : w.barred = true → ∀ i : Input, i.connects w.chat = false →
    (w.chat.step i).attempts = w.chat.attempts
  /-- A connection that the user asked for and that is gone will be back, or the user was shown
  a dialog or an error. -/
  ready : w.wanted = true → w.refused = false → w.chat.session.irc = none →
    w.chat.Retries ∨ w.chat.SleepMarked ∨ w.chat.Starting ∨ w.chat.prompt ≠ none ∨
      w.mark < w.chat.errors
  /-- The timer of a retry starts the connection when there is none. -/
  retried : w.chat.Retries → w.chat.session.irc = none → ∀ changed,
    (w.chat.step (.timer w.chat.session.retryToken changed)).Starting ∨
      w.chat.errors < (w.chat.step (.timer w.chat.session.retryToken changed)).errors
  woken : w.chat.SleepMarked → ∀ changed, (w.chat.step (.wake changed)).Starting ∨
    w.chat.errors < (w.chat.step (.wake changed)).errors

theorem init_kept (startup : Bool) : (init startup).Kept where
  sound := Chat.init_sound startup
  steady := by
    constructor <;> simp [init, Chat.init]
  connected h := absurd h (by simp [init])
  ready h := absurd h (by simp [init])
  barred h := absurd h (by simp [init])
  mark := le_rfl

variable {w : Watch}

theorem Kept.settled (h : w.Kept) : w.Settled where
  timers _ changed ht := Chat.step_timer_stale ht changed
  reads _ found ht := Chat.step_read_stale ht found
  live := by
    rw [h.sound.live]
    cases w.chat.session.irc <;> simp
  barred hb i hi := by
    obtain ⟨hm, hp, hs⟩ := h.barred hb
    exact Chat.step_barred hm hp hs hi
  ready hw hr hirc := (h.ready hw hr).resolve_left (not_not.mpr hirc)
  retried hr hirc changed := hr.timer hirc (h.sound.config (.inr (.inl hr.1))) changed
  woken hs changed := hs.wake changed

end Watch

end CayenChat.Reconnect
