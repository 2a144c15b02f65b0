import CayenChat.Reconnect.Runs

/-! # What the session does by itself

Ends of the connection, timers, answers of the credential store, sleep and
wake-up keep what an undisturbed run keeps.
-/

namespace CayenChat.Reconnect

open Machine

namespace Chat

variable {c c' : Chat} {mark : ℕ}

/-! ## A start that reads the stored passwords first -/

theorem startReconnect_same (c : Chat) (changed : Bool) :
    (c.startReconnect changed).session.irc = c.session.irc ∧
      (c.startReconnect changed).session.manualDisconnect = c.session.manualDisconnect ∧
      (c.startReconnect changed).session.asleep = c.session.asleep ∧
      (c.startReconnect changed).session.activeConfig = c.session.activeConfig ∧
      (c.startReconnect changed).prompt = c.prompt ∧
      (c.startReconnect changed).quitting = c.quitting ∧
      (c.startReconnect changed).attempts = c.attempts := by
  unfold startReconnect reconnectWithStoredSecrets
  split
  · dsimp only
    split <;> simp [raiseError]
  · simp

theorem startReconnect_reads (c : Chat) (changed : Bool) {r : Read}
    (hr : ∀ t, r ≠ .reconnect t) : r ∈ (c.startReconnect changed).reads ↔ r ∈ c.reads := by
  unfold startReconnect reconnectWithStoredSecrets
  split
  · dsimp only
    split <;> simp [raiseError, hr]
  · rfl

theorem startReconnect_ready (hc : c.session.activeConfig = true)
    (hm : c.session.manualDisconnect = false) (herrors : mark ≤ c.errors) (changed : Bool) :
    (c.startReconnect changed).Ready mark := by
  unfold startReconnect reconnectWithStoredSecrets
  rw [if_pos hc]
  dsimp only
  split
  · exact .inr (.inr (.inr (.inr (.inr (Nat.lt_succ_of_le herrors)))))
  · exact .inr (.inr (.inr (.inl (.inl ⟨by simp, hm⟩))))

theorem Steady.startReconnect (h : c.Steady)
    (hr : c.session.manualDisconnect = false → c.Replaceable) (changed : Bool) :
    (c.startReconnect changed).Steady := by
  obtain ⟨hirc, hmanual, hasleep, -, hprompt, hquit, -⟩ := startReconnect_same c changed
  have hreads := fun resume => startReconnect_reads c changed (r := .keys resume) (by simp)
  obtain ⟨hfresh, hprompts, hread, hkeys⟩ := h
  constructor <;> grind [Replaceable]

/-! ## A connection of its own -/

theorem connectFresh_cases (c : Chat) (missing : Missing) (fails : Bool) :
    c.connectFresh missing fails = c.raiseError ∨
      c.connectFresh missing fails = c.openCredentialPrompt .fresh ∨
      c.connectFresh missing fails = c.applyConnection fails := by
  unfold connectFresh
  split
  · exact .inl rfl
  split
  · exact .inr (.inl rfl)
  · exact .inr (.inr rfl)

theorem Steady.raiseError (h : c.Steady) : c.raiseError.Steady :=
  ⟨h.fresh, h.prompt, h.read, h.keys⟩

theorem Steady.openCredentialPrompt (h : c.Steady) (hirc : c.session.irc = none) :
    (c.openCredentialPrompt .fresh).Steady := by
  obtain ⟨hfresh, hprompt, hread, hkeys⟩ := h
  constructor <;> grind [Chat.openCredentialPrompt, Replaceable]

/-! ## The answer for a dialog -/

section Prompt

variable {p : CredentialPrompt}

theorem finishCredentialPrompt_idle (h : ∀ p, c.prompt = some p → p.submitting = false)
    (resume : Resume) (found : Found) : c.finishCredentialPrompt resume found = c := by
  cases hp : c.prompt with
  | none => simp [finishCredentialPrompt, hp]
  | some p => simp [finishCredentialPrompt, hp, h p hp]

theorem finishCredentialPrompt_fresh (hp : c.prompt = some p) (hs : p.submitting = true)
    (missing : Missing) (fails : Bool) :
    c.finishCredentialPrompt .fresh (.config missing fails) =
      { c with prompt := none }.applyConnection fails := by
  simp [finishCredentialPrompt, hp, hs]

theorem finishCredentialPrompt_reconnect (hp : c.prompt = some p) (hs : p.submitting = true)
    (missing : Missing) (fails : Bool) :
    c.finishCredentialPrompt .reconnect (.config missing fails) =
      { c with prompt := none }.startReconnectWith fails := by
  simp [finishCredentialPrompt, hp, hs]

theorem finishCredentialPrompt_failed (hp : c.prompt = some p) (hs : p.submitting = true)
    {found : Found} (hf : ¬∃ missing fails, found = .config missing fails) (resume : Resume) :
    c.finishCredentialPrompt resume found =
      { c with prompt := some { p with submitting := false } } := by
  cases found with
  | stale => simp [finishCredentialPrompt, hp, hs]
  | unusable => simp [finishCredentialPrompt, hp, hs]
  | config missing fails => exact absurd ⟨missing, fails, rfl⟩ hf

end Prompt

theorem Begun.of_attempts (h : Begun c c') {d : Chat} (hd : c.attempts = d.attempts) :
    Begun d c' :=
  ⟨hd ▸ h.attempts, h.prompt, h.manual, h.config, h.link⟩

theorem startReconnect_readsSaved (c : Chat) (changed : Bool) :
    (c.startReconnect changed).ReadsSaved ↔ c.ReadsSaved := by
  obtain ⟨-, -, -, hconfig, -, -, -⟩ := startReconnect_same c changed
  have hsaved := startReconnect_reads c changed (r := .saved) (by simp)
  have hstartup := startReconnect_reads c changed (r := .startup) (by simp)
  rw [ReadsSaved, ReadsSaved, hconfig, hsaved, hstartup]

end Chat

def Input.Silent (c : Chat) (i : Input) : Prop :=
  i.connects c = false ∧ i.bars c = false ∧ i.quits c = false

namespace Watch

variable {w : Watch} {i : Input}

theorem silent_of_not_act (hact : ∀ a, i ≠ .act a) : i.Silent w.chat := by
  cases i with
  | act a => exact absurd rfl (hact a)
  | _ => exact ⟨rfl, rfl, rfl⟩

theorem Kept.quiet (h : w.Kept) (hact : i.Silent w.chat)
    (hsame : (w.chat.step i).attempts = w.chat.attempts) (hs : (w.chat.step i).Steady)
    (hc : (w.chat.session.irc ≠ none → w.chat.Replaceable) →
      (w.chat.step i).session.irc ≠ none → (w.chat.step i).Replaceable)
    (hr : (w.chat.session.irc ≠ none → w.chat.Replaceable) → i.refuses w.chat = false →
      w.chat.Ready w.mark → (w.chat.step i).Ready w.mark)
    (hb : w.chat.session.manualDisconnect = true → w.chat.prompt = none → ¬w.chat.ReadsSaved →
      (w.chat.step i).session.manualDisconnect = true ∧ (w.chat.step i).prompt = none ∧
        ¬(w.chat.step i).ReadsSaved) :
    (w.step i).Kept := by
  obtain ⟨hconnects, hbars, hquits⟩ := hact
  obtain ⟨hsound, -, hc', hr', hb', -⟩ := id h
  refine ⟨Chat.step_sound hsound i, hs, ?_, ?_, ?_, h.step_mark i⟩ <;> grind [step]

theorem Kept.ignored (h : w.Kept) (hact : i.Silent w.chat) (hi : w.chat.step i = w.chat) :
    (w.step i).Kept := by
  apply h.quiet hact
  · rw [hi]
  · rw [hi]
    exact h.steady
  · rw [hi]
    exact id
  · rw [hi]
    exact fun _ _ hr => hr
  · rw [hi]
    exact fun hm hp hs => ⟨hm, hp, hs⟩

theorem Kept.asked (h : w.Kept) (hact : i.Silent w.chat) {c : Chat} {changed : Bool}
    (hi : w.chat.step i = c.startReconnect changed) (hattempts : c.attempts = w.chat.attempts)
    (herrors : c.errors = w.chat.errors) (hs : c.Steady)
    (hrep : c.session.manualDisconnect = false → c.Replaceable)
    (hc : (w.chat.session.irc ≠ none → w.chat.Replaceable) →
      c.session.irc ≠ none → c.Replaceable)
    (hr : (w.chat.session.irc ≠ none → w.chat.Replaceable) → i.refuses w.chat = false →
      w.chat.Ready w.mark →
      c.session.manualDisconnect = false ∧ (c.session.activeConfig = false → c.Ready w.mark))
    (hb : w.chat.session.manualDisconnect = true → w.chat.prompt = none → ¬w.chat.ReadsSaved →
      c.session.manualDisconnect = true ∧ c.prompt = none ∧ ¬c.ReadsSaved) :
    (w.step i).Kept := by
  obtain ⟨hirc, hmanual, hasleep, hconfig, hprompt, hquit, hsame⟩ :=
    Chat.startReconnect_same c changed
  apply h.quiet hact
  · rw [hi, hsame, hattempts]
  · rw [hi]
    exact hs.startReconnect hrep changed
  · rw [hi]
    grind [Chat.Replaceable]
  · rintro hlink hrefuses hready
    obtain ⟨hm, hnone⟩ := hr hlink hrefuses hready
    rw [hi]
    cases hactive : c.session.activeConfig with
    | true => exact Chat.startReconnect_ready hactive hm (herrors ▸ h.mark) changed
    | false =>
      rw [Chat.startReconnect, if_neg (by simp [hactive])]
      exact hnone hactive
  · rw [hi]
    grind [Chat.startReconnect_readsSaved]

theorem Kept.sleep (h : w.Kept) : (w.step .sleep).Kept := by
  obtain ⟨hfresh, hprompt, hread, hkeys⟩ := h.steady
  apply h.quiet (silent_of_not_act (by simp))
  · grind [Chat.step, Chat.prepareForSleep]
  · constructor <;> grind [Chat.step, Chat.prepareForSleep, Chat.Replaceable]
  · grind [Chat.step, Chat.prepareForSleep, Chat.Replaceable]
  · have hconfig := h.sound.config
    grind [Chat.step, Chat.prepareForSleep, Chat.Ready, Chat.Retries, Chat.SleepMarked,
      Chat.Starting, Chat.ReadsSaved]
  · grind [Chat.step, Chat.prepareForSleep, Chat.ReadsSaved]

theorem Kept.wake (h : w.Kept) (changed : Bool) : (w.step (.wake changed)).Kept := by
  by_cases hm : w.chat.session.manualDisconnect = true
  · obtain ⟨hfresh, hprompt, hread, hkeys⟩ := h.steady
    apply h.quiet (silent_of_not_act (by simp))
    · grind [Chat.step, Chat.checkConnectionsAfterWake]
    · constructor <;> grind [Chat.step, Chat.checkConnectionsAfterWake, Chat.Replaceable]
    · grind [Chat.step, Chat.checkConnectionsAfterWake, Chat.Replaceable]
    · grind [Chat.step, Chat.checkConnectionsAfterWake, Chat.Ready, Chat.Retries, Chat.SleepMarked,
        Chat.Starting, Chat.ReadsSaved]
    · grind [Chat.step, Chat.checkConnectionsAfterWake, Chat.ReadsSaved]
  by_cases ha : w.chat.session.asleep = true
  · have hstep : w.chat.step (.wake changed) = { w.chat with session := { w.chat.session with
        retryAttempt := 0
        retryToken := w.chat.session.retryToken + 1 } }.startReconnect changed := by
      rw [Chat.step, Chat.checkConnectionsAfterWake, if_neg hm, if_pos ha]
    obtain ⟨hfresh, hprompt, hread, hkeys⟩ := h.steady
    have hreads := h.sound.reads
    have hconfig := h.sound.config
    apply h.asked (silent_of_not_act (by simp)) hstep rfl rfl
    · constructor <;> grind [Chat.Replaceable]
    · grind [Chat.Replaceable]
    · grind [Chat.Replaceable]
    · grind
    · grind
  · apply h.ignored (silent_of_not_act (by simp))
    rw [Chat.step, Chat.checkConnectionsAfterWake, if_neg hm, if_neg ha]

theorem Kept.registered (h : w.Kept) (g : ℕ) : (w.step (.registered g)).Kept := by
  obtain ⟨hfresh, hprompt, hread, hkeys⟩ := h.steady
  apply h.quiet (silent_of_not_act (by simp))
  · grind [Chat.step]
  · constructor <;> grind [Chat.step, Chat.Replaceable]
  · grind [Chat.step, Chat.Replaceable]
  · grind [Chat.step, Chat.Ready, Chat.Retries, Chat.SleepMarked, Chat.Starting, Chat.ReadsSaved]
  · grind [Chat.step, Chat.ReadsSaved]

theorem Kept.nicknameRejected (h : w.Kept) (g : ℕ) : (w.step (.nicknameRejected g)).Kept := by
  obtain ⟨hfresh, hprompt, hread, hkeys⟩ := h.steady
  apply h.quiet (silent_of_not_act (by simp))
  · grind [Chat.step]
  · constructor <;> grind [Chat.step, Chat.Replaceable]
  · grind [Chat.step, Chat.Replaceable]
  · grind [Chat.step, Chat.Ready, Chat.Retries, Chat.SleepMarked, Chat.Starting, Chat.ReadsSaved]
  · grind [Chat.step, Chat.ReadsSaved]

theorem Kept.timer (h : w.Kept) (t : ℕ) (changed : Bool) : (w.step (.timer t changed)).Kept := by
  by_cases ht : t ∈ w.chat.timers
  swap
  · apply h.ignored (silent_of_not_act (by simp))
    rw [Chat.step, if_neg ht]
  obtain ⟨hfresh, hprompt, hread, hkeys⟩ := h.steady
  by_cases hdue : w.chat.session.retryToken = t ∧ w.chat.session.manualDisconnect = false ∧
      w.chat.session.asleep = false ∧ w.chat.session.irc = none
  · have hstep : w.chat.step (.timer t changed) =
        { w.chat with timers := w.chat.timers.erase t }.startReconnect changed := by
      rw [Chat.step, if_pos ht]
      unfold Chat.timerFired
      rw [if_pos (by simpa using hdue)]
    apply h.asked (silent_of_not_act (by simp)) hstep rfl rfl
    · constructor <;> grind [Chat.Replaceable]
    · grind [Chat.Replaceable]
    · exact id
    · have hconfig := h.sound.config
      grind [Chat.Ready, Chat.Retries, Chat.SleepMarked, Chat.Starting, Chat.ReadsSaved]
    · grind
  · have hstep : w.chat.step (.timer t changed) =
        { w.chat with timers := w.chat.timers.erase t } := by
      rw [Chat.step, if_pos ht]
      unfold Chat.timerFired
      rw [if_neg (by simpa using hdue)]
    apply h.quiet (silent_of_not_act (by simp))
    · grind
    · rw [hstep]
      constructor <;> grind [Chat.Replaceable]
    · rw [hstep]
      exact id
    · rw [hstep]
      grind [Chat.Ready, Chat.Retries, Chat.SleepMarked, Chat.Starting, Chat.ReadsSaved]
    · rw [hstep]
      exact fun hm hp hs => ⟨hm, hp, hs⟩

theorem Kept.ended (h : w.Kept) (g : ℕ) (how : End) : (w.step (.ended g how)).Kept := by
  by_cases hg : w.chat.hasEnded g how = true
  swap
  · apply h.ignored (silent_of_not_act (by simp))
    rw [Chat.step, if_neg hg]
  have hirc : w.chat.session.irc ≠ none := by
    grind [Chat.hasEnded]
  have hactive : w.chat.session.activeConfig = true :=
    h.sound.config (.inl (Option.isSome_iff_ne_none.mpr hirc))
  have hreads := h.sound.reads
  obtain ⟨hfresh, hprompt, hread, hkeys⟩ := h.steady
  have hstep : w.chat.step (.ended g how) = w.chat.ended how := by
    rw [Chat.step, if_pos hg]
  cases how with
  | refused password changed =>
    have hrefuses : Input.refuses w.chat (.ended g (.refused password changed)) = true := hg
    cases password with
    | true =>
      have hasked : w.chat.step (.ended g (.refused true changed)) =
          { w.chat with
            session := { w.chat.session with irc := none }
            live := w.chat.live.filter fun g => w.chat.session.irc ≠ some g }.startReconnect
              changed := by
        rw [hstep, Chat.ended]
        simp
      apply h.asked (silent_of_not_act (by simp)) hasked rfl rfl
      · constructor <;> grind [Chat.Replaceable]
      · grind [Chat.Replaceable]
      · grind [Chat.Replaceable]
      · simp [hrefuses]
      · grind [Chat.ReadsSaved]
    | false =>
      apply h.quiet (silent_of_not_act (by simp))
      · grind [Chat.ended]
      · rw [hstep]
        constructor <;> grind [Chat.ended, Chat.Replaceable]
      · grind [Chat.ended, Chat.Replaceable]
      · simp [hrefuses]
      · grind [Chat.ended, Chat.ReadsSaved]
  | disconnected =>
    apply h.quiet (silent_of_not_act (by simp))
    · grind [Chat.ended, Chat.scheduleRetry]
    · rw [hstep]
      constructor <;> grind [Chat.ended, Chat.scheduleRetry, Chat.Replaceable]
    · grind [Chat.ended, Chat.scheduleRetry, Chat.Replaceable]
    · grind [Chat.ended, Chat.scheduleRetry, Chat.Replaceable, Chat.Ready, Chat.Retries,
        Chat.SleepMarked]
    · grind [Chat.ended, Chat.scheduleRetry, Chat.Replaceable, Chat.ReadsSaved]
  | closed =>
    have hquit : w.chat.quitting = true := by
      grind [Chat.hasEnded]
    apply h.quiet (silent_of_not_act (by simp))
    · grind [Chat.ended, Chat.scheduleRetry]
    · rw [hstep]
      constructor <;> grind [Chat.ended, Chat.scheduleRetry, Chat.Replaceable]
    · grind [Chat.ended, Chat.scheduleRetry, Chat.Replaceable]
    · grind [Chat.ended, Chat.scheduleRetry, Chat.Replaceable, Chat.Ready, Chat.Retries,
        Chat.SleepMarked]
    · grind [Chat.ended, Chat.scheduleRetry, Chat.Replaceable, Chat.ReadsSaved]

theorem Kept.started (h : w.Kept) (hact : i.Silent w.chat)
    (hb : Chat.Begun w.chat (w.chat.step i))
    (hbar : w.chat.session.manualDisconnect = true → w.chat.prompt = none → w.chat.ReadsSaved) :
    (w.step i).Kept := by
  apply h.begun hb
  obtain ⟨hconnects, hbars, -⟩ := hact
  have hbarred := h.barred
  grind [step]

theorem Kept.lost (h : w.Kept) (hact : i.Silent w.chat) {r : Read} (starting readingSaved : Bool)
    (hi : w.chat.step i = { w.chat with
      session := { w.chat.session with starting, readingSaved }
      reads := w.chat.reads.erase r })
    (hr : r = .reconnect w.chat.session.retryToken → w.chat.session.manualDisconnect = true)
    (hs : r = .saved ∨ r = .startup → w.chat.session.used = true) : (w.step i).Kept := by
  obtain ⟨hfresh, hprompt, hread, hkeys⟩ := h.steady
  apply h.quiet hact
  · rw [hi]
  · rw [hi]
    constructor <;> grind [Chat.Replaceable, List.mem_of_mem_erase]
  · rw [hi]
    exact id
  · rw [hi]
    have hkept : ∀ q ∈ w.chat.reads, q ≠ r → q ∈ w.chat.reads.erase r := fun q hq hne =>
      (List.mem_erase_of_ne hne).mpr hq
    grind [Chat.Ready, Chat.Retries, Chat.SleepMarked, Chat.Starting, Chat.ReadsSaved,
      ServerSession.used]
  · rw [hi]
    grind [Chat.ReadsSaved, List.mem_of_mem_erase]

theorem Kept.keys (h : w.Kept) (resume : Resume) (found : Found) :
    (w.step (.answered (.keys resume) found)).Kept := by
  by_cases hr : .keys resume ∈ w.chat.reads
  swap
  · apply h.ignored (silent_of_not_act (by simp))
    rw [Chat.step, if_neg hr]
  have hstep : w.chat.step (.answered (.keys resume) found) = Chat.finishCredentialPrompt
      { w.chat with reads := w.chat.reads.erase (.keys resume) } resume found := by
    rw [Chat.step, if_pos hr, Chat.readAnswered]
  by_cases hp : ∃ p, w.chat.prompt = some p ∧ p.submitting = true
  swap
  · apply h.lost (silent_of_not_act (by simp)) (r := .keys resume) w.chat.session.starting w.chat.session.readingSaved
      _ (by simp) (by simp)
    rw [hstep, Chat.finishCredentialPrompt_idle]
    intro p hprompt
    exact Bool.eq_false_iff.mpr fun hs => hp ⟨p, hprompt, hs⟩
  obtain ⟨p, hp, hsubmitting⟩ := hp
  have hrest : Chat.prompt { w.chat with reads := w.chat.reads.erase (.keys resume) } = some p := hp
  have hactive := h.sound.configKeys
  obtain ⟨hfresh, hprompt, hread, hkeys⟩ := h.steady
  by_cases hfound : ∃ missing fails, found = .config missing fails
  · obtain ⟨missing, fails, rfl⟩ := hfound
    apply h.started (silent_of_not_act (by simp))
    · rw [hstep]
      cases resume with
      | fresh =>
        rw [Chat.finishCredentialPrompt_fresh hrest hsubmitting]
        exact (Chat.applyConnection_begun _ _).of_attempts rfl
      | reconnect =>
        rw [Chat.finishCredentialPrompt_reconnect hrest hsubmitting]
        have hresume : p.resume = .reconnect := by
          simpa [eq_comm] using hkeys p hp hsubmitting _ hr
        have hmanual := (hprompt p hp hresume).1
        exact (Chat.startReconnectWith_begun (c := { w.chat with
          reads := w.chat.reads.erase (.keys .reconnect)
          prompt := none }) hmanual (hactive hr) fails).of_attempts rfl
    · simp [hp]
  · have hidle : w.chat.step (.answered (.keys resume) found) = { w.chat with
        reads := w.chat.reads.erase (.keys resume)
        prompt := some { p with submitting := false } } := by
      rw [hstep, Chat.finishCredentialPrompt_failed hrest hsubmitting hfound]
    apply h.quiet (silent_of_not_act (by simp))
    · rw [hidle]
    · rw [hidle]
      constructor <;> grind [Chat.Replaceable, List.mem_of_mem_erase]
    · rw [hidle]
      exact id
    · rw [hidle]
      exact fun _ _ _ => .inr (.inr (.inr (.inr (.inl (by simp)))))
    · simp [hp]

theorem Kept.stored (h : w.Kept) {t : ℕ} (hr : .reconnect t ∈ w.chat.reads) {missing : Missing}
    {fails : Bool} (hact : i.Silent w.chat)
    (hi : w.chat.step i = Chat.storedSecretsRead
      { w.chat with reads := w.chat.reads.erase (.reconnect t) } t missing fails) :
    (w.step i).Kept := by
  by_cases hdue : w.chat.session.retryToken ≠ t ∨ w.chat.session.manualDisconnect = true
  · apply h.lost hact (r := .reconnect t) w.chat.session.starting w.chat.session.readingSaved
      _ _ (by simp)
    · rw [hi, Chat.storedSecretsRead, if_pos hdue]
    · rintro ht
      injection ht with ht
      exact hdue.resolve_left (not_not.mpr ht.symm)
  have hshown : w.chat.step i = if missing.key then
        Chat.raiseError { w.chat with reads := w.chat.reads.erase (.reconnect t) }
      else if missing.any then
        Chat.openCredentialPrompt { w.chat with reads := w.chat.reads.erase (.reconnect t) }
          .reconnect
      else
        Chat.startReconnectWith { w.chat with reads := w.chat.reads.erase (.reconnect t) } fails := by
    rw [hi, Chat.storedSecretsRead, if_neg hdue]
  push Not at hdue
  obtain ⟨rfl, hmanual⟩ := hdue
  have hmanual' : w.chat.session.manualDisconnect = false := by simpa using hmanual
  have hactive := h.sound.configRead _ hr
  have hmark := h.mark
  obtain ⟨hfresh, hprompt, hread, hkeys⟩ := h.steady
  have hrep := hread hr hmanual'
  split at hshown
  · apply h.quiet hact
    · rw [hshown]
      rfl
    · rw [hshown]
      constructor <;> grind [Chat.raiseError, Chat.Replaceable, List.mem_of_mem_erase]
    · rw [hshown]
      exact id
    · rw [hshown]
      exact fun _ _ _ => .inr (.inr (.inr (.inr (.inr (Nat.lt_succ_of_le hmark)))))
    · exact fun hm => absurd hm hmanual
  split at hshown
  · apply h.quiet hact
    · rw [hshown]
      rfl
    · rw [hshown]
      constructor <;> grind [Chat.openCredentialPrompt, Chat.Replaceable, List.mem_of_mem_erase]
    · rw [hshown]
      exact id
    · rw [hshown]
      exact fun _ _ _ => .inr (.inr (.inr (.inr (.inl (by simp [Chat.openCredentialPrompt])))))
    · exact fun hm => absurd hm hmanual
  · apply h.started hact
    · rw [hshown]
      exact (Chat.startReconnectWith_begun (c := { w.chat with
        reads := w.chat.reads.erase (.reconnect w.chat.session.retryToken) }) hmanual' hactive
        fails).of_attempts rfl
    · exact fun hm => absurd hm hmanual

theorem Kept.reconnectRead (h : w.Kept) (t : ℕ) (found : Found) :
    (w.step (.answered (.reconnect t) found)).Kept := by
  by_cases hr : .reconnect t ∈ w.chat.reads
  · cases found with
    | config missing fails =>
      apply h.stored hr (silent_of_not_act (by simp))
      rw [Chat.step, if_pos hr, Chat.readAnswered]
    | stale =>
      apply h.stored hr (silent_of_not_act (by simp))
      rw [Chat.step, if_pos hr]
      rfl
    | unusable =>
      apply h.stored hr (silent_of_not_act (by simp))
      rw [Chat.step, if_pos hr]
      rfl
  · apply h.ignored (silent_of_not_act (by simp))
    rw [Chat.step, if_neg hr]

theorem Kept.shown (h : w.Kept) (hact : i.Silent w.chat) {c : Chat}
    (hi : w.chat.step i = c.raiseError ∨ w.chat.step i = c.openCredentialPrompt .fresh)
    (hirc : c.session.irc = none) (hattempts : c.attempts = w.chat.attempts)
    (herrors : c.errors = w.chat.errors) (hs : c.Steady)
    (hb : w.chat.session.manualDisconnect = true → w.chat.prompt = none → w.chat.ReadsSaved) :
    (w.step i).Kept := by
  have hmark := h.mark
  apply h.quiet hact
  · grind [Chat.raiseError, Chat.openCredentialPrompt]
  · rcases hi with hi | hi
    · rw [hi]
      exact hs.raiseError
    · rw [hi]
      exact hs.openCredentialPrompt hirc
  · rcases hi with hi | hi <;>
    · rw [hi]
      exact fun _ hne => absurd hirc hne
  · rintro - - -
    rcases hi with hi | hi
    · rw [hi]
      exact .inr (.inr (.inr (.inr (.inr (Nat.lt_succ_of_le (herrors ▸ hmark))))))
    · rw [hi]
      exact .inr (.inr (.inr (.inr (.inl (by simp [Chat.openCredentialPrompt])))))
  · exact fun hm hp hs => absurd (hb hm hp) hs

theorem Kept.opened (h : w.Kept) (hact : i.Silent w.chat) {r : Read}
    (hr : r = .saved ∨ r = .startup) (hm : r ∈ w.chat.reads) (starting readingSaved : Bool)
    {found : Found} (hi : w.chat.step i = Chat.savedRead { w.chat with
      session := { w.chat.session with starting, readingSaved }
      reads := w.chat.reads.erase r } found) : (w.step i).Kept := by
  by_cases hused : w.chat.session.used = true
  · apply h.lost hact (r := r) starting readingSaved _ (by grind) fun _ => hused
    rw [hi]
    exact if_pos hused
  obtain ⟨c, hc⟩ : ∃ c : Chat, c = { w.chat with
      session := { w.chat.session with starting, readingSaved }
      reads := w.chat.reads.erase r } := ⟨_, rfl⟩
  rw [← hc] at hi
  have hunused : w.chat.session.irc = none ∧ w.chat.session.activeConfig = false := by
    simpa [ServerSession.used] using hused
  obtain ⟨hirc, hinactive⟩ := hunused
  have hreads : w.chat.ReadsSaved := ⟨hinactive, by rcases hr with rfl | rfl <;> simp [hm]⟩
  have hsteady : c.Steady := by
    obtain ⟨hfresh, hprompt, hread, hkeys⟩ := h.steady
    constructor <;> grind [Chat.Replaceable, List.mem_of_mem_erase]
  have hci : c.session.irc = none := by rw [hc]; exact hirc
  have hused' : c.session.used ≠ true := by rw [hc]; exact hused
  unfold Chat.savedRead at hi
  rw [if_neg hused'] at hi
  cases found with
  | stale =>
    apply h.quiet hact
    · rw [hi, hc]
      rfl
    · rw [hi]
      obtain ⟨hfresh, hprompt, hread, hkeys⟩ := hsteady
      constructor <;> grind [Chat.readSaved, Chat.Replaceable]
    · rw [hi]
      exact fun _ hne => absurd hci hne
    · rintro - - -
      rw [hi, hc]
      exact .inr (.inr (.inr (.inl (.inr ⟨hinactive, .inl (by simp [Chat.readSaved])⟩))))
    · exact fun _ _ hs => absurd hreads hs
  | unusable =>
    exact h.shown hact (.inl hi) hci (by rw [hc]) (by rw [hc]) hsteady fun _ _ => hreads
  | config missing fails =>
    rcases c.connectFresh_cases missing fails with hcase | hcase | hcase
    · exact h.shown hact (.inl (hi.trans hcase)) hci (by rw [hc]) (by rw [hc]) hsteady
        fun _ _ => hreads
    · exact h.shown hact (.inr (hi.trans hcase)) hci (by rw [hc]) (by rw [hc]) hsteady
        fun _ _ => hreads
    · apply h.started hact
      · rw [hi.trans hcase]
        exact (Chat.applyConnection_begun _ _).of_attempts (by rw [hc])
      · exact fun _ _ => hreads

theorem Kept.savedRead (h : w.Kept) (found : Found) :
    (w.step (.answered .saved found)).Kept := by
  have hact : Input.Silent w.chat (.answered .saved found) := silent_of_not_act (by simp)
  by_cases hr : .saved ∈ w.chat.reads
  · apply h.opened hact (.inl rfl) hr w.chat.session.starting false
    rw [Chat.step, if_pos hr, Chat.readAnswered]
  · apply h.ignored hact
    rw [Chat.step, if_neg hr]

theorem Kept.startupRead (h : w.Kept) (found : Found) :
    (w.step (.answered .startup found)).Kept := by
  have hact : Input.Silent w.chat (.answered .startup found) := silent_of_not_act (by simp)
  by_cases hr : .startup ∈ w.chat.reads
  · apply h.opened hact (.inr rfl) hr false w.chat.session.readingSaved
    rw [Chat.step, if_pos hr, Chat.readAnswered]
  · apply h.ignored hact
    rw [Chat.step, if_neg hr]

end Watch

end CayenChat.Reconnect
