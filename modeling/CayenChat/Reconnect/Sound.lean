import CayenChat.Lib.Machine
import CayenChat.Reconnect.Session

/-! # What holds of a session at all times

A session has at most one connection, that of its generation, and its timers
and reads are of tokens that were given out. A timer or a read of an older
token does nothing.
-/

namespace CayenChat.Reconnect

open Machine

namespace Chat

variable {c : Chat}

structure Sound (c : Chat) : Prop where
  generation : ∀ g, c.session.irc = some g → g = c.session.generation
  live : c.live = c.session.irc.toList
  config : c.session.irc.isSome ∨ c.session.retryPending ∨ c.session.asleep ∨ c.nickPrompt →
    c.session.activeConfig
  configPrompt : ∀ p, c.prompt = some p → p.resume = .reconnect → c.session.activeConfig
  configRead : ∀ t, .reconnect t ∈ c.reads → c.session.activeConfig
  configKeys : .keys .reconnect ∈ c.reads → c.session.activeConfig
  reads : ∀ t, .reconnect t ∈ c.reads → t ≤ c.session.retryToken
  timers : ∀ t ∈ c.timers, t ≤ c.session.retryToken
  reading : c.session.readingSaved → .saved ∈ c.reads

theorem filter_live (h : c.Sound) : (c.live.filter fun g => c.session.irc ≠ some g) = [] := by
  rw [h.live]
  cases c.session.irc <;> simp

theorem scheduleRetry_sound (h : c.Sound) : c.scheduleRetry.Sound := by
  obtain ⟨hg, hl, hc, hp, hr, hk, hreads, ht, hs⟩ := h
  unfold scheduleRetry
  split
  · exact ⟨hg, hl, hc, hp, hr, hk, hreads, ht, hs⟩
  · constructor <;> grind

theorem raiseError_sound (h : c.Sound) : c.raiseError.Sound := by
  obtain ⟨hg, hl, hc, hp, hr, hk, hreads, ht, hs⟩ := h
  exact ⟨hg, hl, hc, hp, hr, hk, hreads, ht, hs⟩

theorem start_sound (h : c.Sound) (hi : c.session.irc = none) (hc : c.session.activeConfig = true)
    (fails : Bool) : (c.start fails).Sound := by
  unfold start
  split
  · refine scheduleRetry_sound ⟨h.generation, h.live, h.config, h.configPrompt, h.configRead,
      h.configKeys, h.reads, h.timers, h.reading⟩
  · obtain ⟨hg, hl, -, hp, hr, hk, hreads, ht, hs⟩ := h
    constructor <;> grind

theorem startReconnectWith_sound (h : c.Sound) (hc : c.session.activeConfig = true)
    (fails : Bool) : (c.startReconnectWith fails).Sound := by
  have hlive := filter_live h
  obtain ⟨hg, hl, -, hp, hr, hk, hreads, ht, hs⟩ := h
  have hready : Sound { c.takeConnection with
      session := { c.takeConnection.session with
        retryPending := false
        asleep := false
        generation := c.session.generation + 1 }
      prompt := none } := by
    constructor <;> grind [takeConnection]
  exact start_sound hready rfl hc fails

theorem applyConnection_sound (h : c.Sound) (fails : Bool) : (c.applyConnection fails).Sound := by
  have hlive := filter_live h
  obtain ⟨hg, hl, hc, hp, hr, hk, hreads, ht, hs⟩ := h
  have hready : Sound { c.takeConnection with
      session := { c.takeConnection.session with
        activeConfig := true
        manualDisconnect := false
        asleep := false
        retryPending := false
        retryAttempt := 0
        retryToken := c.session.retryToken + 1
        generation := c.session.generation + 1 }
      prompt := none
      nickPrompt := false } := by
    constructor <;> grind [takeConnection]
  exact start_sound hready rfl rfl fails

theorem reconnectWithStoredSecrets_sound (h : c.Sound) (hc : c.session.activeConfig = true)
    (changed : Bool) : (c.reconnectWithStoredSecrets changed).Sound := by
  obtain ⟨hg, hl, -, hp, hr, hk, hreads, ht, hs⟩ := h
  unfold reconnectWithStoredSecrets
  dsimp only
  split
  · apply raiseError_sound
    constructor <;> grind
  · constructor <;> grind

theorem startReconnect_sound (h : c.Sound) (changed : Bool) : (c.startReconnect changed).Sound := by
  unfold startReconnect
  split
  · rename_i hc
    exact reconnectWithStoredSecrets_sound h hc changed
  · exact h

theorem readSaved_sound (h : c.Sound) : c.readSaved.Sound := by
  obtain ⟨hg, hl, hc, hp, hr, hk, hreads, ht, hs⟩ := h
  unfold readSaved
  constructor <;> grind

theorem connectFresh_sound (h : c.Sound) (missing : Missing) (fails : Bool) :
    (c.connectFresh missing fails).Sound := by
  unfold connectFresh
  split
  · exact raiseError_sound h
  split
  · obtain ⟨hg, hl, hc, hp, hr, hk, hreads, ht, hs⟩ := h
    unfold openCredentialPrompt
    constructor <;> grind
  · exact applyConnection_sound h fails

theorem Sound.withSession {session : ServerSession} (h : c.Sound)
    (hi : session.irc = c.session.irc) (hg : session.generation = c.session.generation)
    (hc : session.activeConfig = c.session.activeConfig)
    (hr : session.retryPending = true → c.session.activeConfig = true)
    (ha : session.asleep = true → c.session.activeConfig = true)
    (ht : c.session.retryToken ≤ session.retryToken)
    (hs : session.readingSaved = true → .saved ∈ c.reads) : Sound { c with session } := by
  obtain ⟨hg', hl, hc', hp, hr', hk, hreads, ht', hs'⟩ := h
  constructor <;> grind

theorem reconnect_sound (h : c.Sound) (changed : Bool) : (c.reconnect changed).Sound := by
  unfold reconnect
  split
  · split
    · exact h
    · exact readSaved_sound h
  · apply startReconnect_sound
    exact h.withSession rfl rfl rfl (by simp) (h.config <| .inr <| .inr <| .inl ·) (Nat.le_succ _)
      h.reading

theorem retryNickname_sound (h : c.Sound) (changed : Bool) : (c.retryNickname changed).Sound := by
  have hclosed : Sound { c with nickPrompt := false } := by
    obtain ⟨hg, hl, hc, hp, hr, hk, hreads, ht, hs⟩ := h
    constructor <;> grind
  unfold retryNickname
  dsimp only
  split
  · exact hclosed
  · apply startReconnect_sound
    exact hclosed.withSession rfl rfl rfl (h.config <| .inr <| .inl ·)
      (h.config <| .inr <| .inr <| .inl ·) (Nat.le_succ _) h.reading

theorem submit_sound (h : c.Sound) (accepted changed : Bool) :
    (c.submit accepted changed).Sound := by
  obtain ⟨hg, hl, hc, hp, hr, hk, hreads, ht, hs⟩ := h
  unfold submit
  split
  · exact ⟨hg, hl, hc, hp, hr, hk, hreads, ht, hs⟩
  split
  · exact ⟨hg, hl, hc, hp, hr, hk, hreads, ht, hs⟩
  · constructor <;> grind

theorem perform_sound (h : c.Sound) (act : Act) : (c.perform act).Sound := by
  cases act with
  | connect missing fails => exact connectFresh_sound h missing fails
  | reconnect changed => exact reconnect_sound h changed
  | disconnect =>
    obtain ⟨hg, hl, hc, hp, hr, hk, hreads, ht, hs⟩ := h
    constructor <;> grind [perform, disconnect]
  | quit => exact ⟨h.generation, h.live, h.config, h.configPrompt, h.configRead, h.configKeys,
      h.reads, h.timers, h.reading⟩
  | retryNickname changed => exact retryNickname_sound h changed
  | submit accepted changed => exact submit_sound h accepted changed
  | cancel =>
    obtain ⟨hg, hl, hc, hp, hr, hk, hreads, ht, hs⟩ := h
    constructor <;> grind [perform, cancel]

theorem ended_sound (h : c.Sound) (how : End) : (c.ended how).Sound := by
  have hlive := filter_live h
  have hleft : Sound { c with
      session := { c.session with
        manualDisconnect := c.session.manualDisconnect || (how = .closed ∧ c.session.asleep = false)
        irc := none }
      live := c.live.filter fun g => c.session.irc ≠ some g } := by
    obtain ⟨hg, hl, hc, hp, hr, hk, hreads, ht, hs⟩ := h
    constructor <;> grind
  unfold ended
  dsimp only
  split
  · exact startReconnect_sound hleft _
  · exact hleft
  · exact scheduleRetry_sound hleft
  · exact scheduleRetry_sound hleft

theorem timerFired_sound (h : c.Sound) (token : ℕ) (changed : Bool) :
    (c.timerFired token changed).Sound := by
  have hfired : Sound { c with timers := c.timers.erase token } := by
    obtain ⟨hg, hl, hc, hp, hr, hk, hreads, ht, hs⟩ := h
    constructor <;> grind [List.mem_of_mem_erase]
  unfold timerFired
  dsimp only
  split
  · exact startReconnect_sound hfired changed
  · exact hfired

theorem erase_sound (h : c.Sound) (read : Read) (hs : read ≠ .saved) :
    Sound { c with reads := c.reads.erase read } := by
  obtain ⟨hg, hl, hc, hp, hr, hk, hreads, ht, hs⟩ := h
  constructor <;> grind [List.mem_of_mem_erase]

theorem savedRead_sound (h : c.Sound) (found : Found) : (c.savedRead found).Sound := by
  unfold savedRead
  split
  · exact h
  split
  · exact readSaved_sound h
  · exact raiseError_sound h
  · exact connectFresh_sound h _ _

theorem storedSecretsRead_sound (h : c.Sound) (hc : c.session.activeConfig = true) (token : ℕ)
    (missing : Missing) (fails : Bool) : (c.storedSecretsRead token missing fails).Sound := by
  unfold storedSecretsRead
  split
  · exact h
  split
  · exact raiseError_sound h
  split
  · obtain ⟨hg, hl, -, hp, hr, hk, hreads, ht, hs⟩ := h
    unfold openCredentialPrompt
    constructor <;> grind
  · exact startReconnectWith_sound h hc fails

theorem closePrompt_sound (h : c.Sound) : Sound { c with prompt := none } := by
  obtain ⟨hg, hl, hc, hp, hr, hk, hreads, ht, hs⟩ := h
  constructor <;> grind

theorem finishCredentialPrompt_sound (h : c.Sound) (resume : Resume) (found : Found)
    (hc : resume = .reconnect → c.session.activeConfig = true) :
    (c.finishCredentialPrompt resume found).Sound := by
  unfold finishCredentialPrompt
  split
  · exact h
  split
  · exact h
  split
  · exact applyConnection_sound (closePrompt_sound h) _
  · exact startReconnectWith_sound (closePrompt_sound h) (hc rfl) _
  · obtain ⟨hg, hl, hc, hp, hr, hk, hreads, ht, hs⟩ := h
    constructor <;> grind

theorem readAnswered_sound (h : c.Sound) {read : Read} (hm : read ∈ c.reads) (found : Found) :
    (c.readAnswered read found).Sound := by
  cases read with
  | reconnect token =>
    have hread := erase_sound h (.reconnect token) (by simp)
    have hconfig := h.configRead token hm
    cases found with
    | config missing fails => exact storedSecretsRead_sound hread hconfig ..
    | stale => exact storedSecretsRead_sound hread hconfig ..
    | unusable => exact storedSecretsRead_sound hread hconfig ..
  | saved =>
    apply savedRead_sound
    obtain ⟨hg, hl, hc, hp, hr, hk, hreads, ht, hs⟩ := h
    constructor <;> grind [List.mem_of_mem_erase]
  | startup =>
    apply savedRead_sound
    exact (erase_sound h .startup (by simp)).withSession rfl rfl rfl (h.config <| .inr <| .inl ·)
      (h.config <| .inr <| .inr <| .inl ·) le_rfl
      fun hs => (erase_sound h .startup (by simp)).reading hs
  | keys resume =>
    apply finishCredentialPrompt_sound (erase_sound h (.keys resume) (by simp))
    rintro rfl
    exact h.configKeys hm

theorem prepareForSleep_sound (h : c.Sound) : c.prepareForSleep.Sound := by
  obtain ⟨hg, hl, hc, hp, hr, hk, hreads, ht, hs⟩ := h
  unfold prepareForSleep
  split
  · exact ⟨hg, hl, hc, hp, hr, hk, hreads, ht, hs⟩
  split
  · constructor <;> grind
  split
  · constructor <;> grind
  · exact ⟨hg, hl, hc, hp, hr, hk, hreads, ht, hs⟩

theorem checkConnectionsAfterWake_sound (h : c.Sound) (changed : Bool) :
    (c.checkConnectionsAfterWake changed).Sound := by
  unfold checkConnectionsAfterWake
  split
  · exact h.withSession rfl rfl rfl (h.config <| .inr <| .inl ·) (by simp) le_rfl h.reading
  split
  · apply startReconnect_sound
    exact h.withSession rfl rfl rfl (h.config <| .inr <| .inl ·)
      (h.config <| .inr <| .inr <| .inl ·) (Nat.le_succ _) h.reading
  · exact h

theorem step_sound (h : c.Sound) (i : Input) : (c.step i).Sound := by
  unfold step
  cases i with
  | act act =>
    dsimp only
    split
    · exact perform_sound h act
    · exact h
  | ended generation how =>
    dsimp only
    split
    · exact ended_sound h how
    · exact h
  | registered generation =>
    obtain ⟨hg, hl, hc, hp, hr, hk, hreads, ht, hs⟩ := h
    constructor <;> grind
  | nicknameRejected generation =>
    obtain ⟨hg, hl, hc, hp, hr, hk, hreads, ht, hs⟩ := h
    constructor <;> grind
  | timer token changed =>
    dsimp only
    split
    · exact timerFired_sound h token changed
    · exact h
  | answered read found =>
    dsimp only
    split
    · rename_i hm
      exact readAnswered_sound h hm found
    · exact h
  | sleep => exact prepareForSleep_sound h
  | wake changed => exact checkConnectionsAfterWake_sound h changed

def init (startup : Bool) : Chat :=
  { session := { starting := startup }, reads := if startup then [.startup] else [] }

theorem init_sound (startup : Bool) : (init startup).Sound := by
  unfold init
  constructor <;> grind

/-! ## Errors stay shown -/

variable {n : ℕ}

@[simp] theorem scheduleRetry_errors (c : Chat) : c.scheduleRetry.errors = c.errors := by
  unfold scheduleRetry
  split <;> rfl

@[simp] theorem start_errors (c : Chat) (fails : Bool) : (c.start fails).errors = c.errors := by
  unfold start
  split <;> simp

theorem startReconnect_errors (h : n ≤ c.errors) (changed : Bool) :
    n ≤ (c.startReconnect changed).errors := by
  grind [startReconnect, reconnectWithStoredSecrets, raiseError]

theorem connectFresh_errors (h : n ≤ c.errors) (missing : Missing) (fails : Bool) :
    n ≤ (c.connectFresh missing fails).errors := by
  grind [connectFresh, raiseError, openCredentialPrompt, applyConnection, takeConnection,
    start_errors]

theorem savedRead_errors (h : n ≤ c.errors) (found : Found) :
    n ≤ (c.savedRead found).errors := by
  unfold savedRead
  split
  · exact h
  split
  · exact h
  · exact Nat.le_succ_of_le h
  · exact connectFresh_errors h ..

theorem perform_errors (h : n ≤ c.errors) (act : Act) :
    n ≤ (c.perform act).errors := by
  cases act with
  | connect missing fails => exact connectFresh_errors h ..
  | reconnect changed =>
    dsimp only [perform, reconnect]
    split
    · split <;> exact h
    · apply startReconnect_errors
      exact h
  | disconnect => exact h
  | quit => exact h
  | retryNickname changed =>
    dsimp only [perform, retryNickname]
    split
    · exact h
    · apply startReconnect_errors
      exact h
  | submit accepted changed =>
    dsimp only [perform, submit]
    split
    · exact h
    · split <;> exact h
  | cancel =>
    dsimp only [perform, cancel]
    split <;> exact h

theorem storedSecretsRead_errors (h : n ≤ c.errors) (token : ℕ) (missing : Missing) (fails : Bool) :
    n ≤ (c.storedSecretsRead token missing fails).errors := by
  grind [storedSecretsRead, raiseError, openCredentialPrompt, startReconnectWith, takeConnection,
    start_errors]

theorem finishCredentialPrompt_errors (h : n ≤ c.errors) (resume : Resume) (found : Found) :
    n ≤ (c.finishCredentialPrompt resume found).errors := by
  grind [finishCredentialPrompt, applyConnection, startReconnectWith, takeConnection, start_errors]

theorem readAnswered_errors (h : n ≤ c.errors) (read : Read) (found : Found) :
    n ≤ (c.readAnswered read found).errors := by
  cases read with
  | reconnect token =>
    cases found <;>
    · apply storedSecretsRead_errors
      exact h
  | saved =>
    apply savedRead_errors
    exact h
  | startup =>
    apply savedRead_errors
    exact h
  | keys resume =>
    apply finishCredentialPrompt_errors
    exact h

theorem ended_errors (h : n ≤ c.errors) (how : End) :
    n ≤ (c.ended how).errors := by
  unfold ended
  dsimp only
  split
  · apply startReconnect_errors
    exact h
  · exact h
  · rw [scheduleRetry_errors]
    exact h
  · rw [scheduleRetry_errors]
    exact h

theorem step_errors (h : n ≤ c.errors) (i : Input) :
    n ≤ (c.step i).errors := by
  unfold step
  cases i with
  | act act =>
    dsimp only
    split
    · exact perform_errors h ..
    · exact h
  | ended generation how =>
    dsimp only
    split
    · exact ended_errors h ..
    · exact h
  | registered generation =>
    dsimp only
    split <;> exact h
  | nicknameRejected generation =>
    dsimp only
    split <;> exact h
  | timer token changed =>
    dsimp only
    split
    · unfold timerFired
      dsimp only
      split
      · apply startReconnect_errors
        exact h
      · exact h
    · exact h
  | answered read found =>
    dsimp only
    split
    · exact readAnswered_errors h ..
    · exact h
  | sleep =>
    dsimp only [prepareForSleep]
    split
    · exact h
    split
    · exact h
    split <;> exact h
  | wake changed =>
    dsimp only [checkConnectionsAfterWake]
    split
    · exact h
    split
    · apply startReconnect_errors
      exact h
    · exact h

end Chat

end CayenChat.Reconnect
