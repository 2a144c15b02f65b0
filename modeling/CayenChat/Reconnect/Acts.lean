import CayenChat.Reconnect.Inputs

/-! # What the user does

The acts of the user keep what an undisturbed run keeps, and so does a whole
run.
-/

namespace CayenChat.Reconnect

open Machine

namespace Watch

variable {w : Watch} {i : Input}

theorem Kept.wants (h : w.Kept) (hconnects : i.connects w.chat = true)
    (hs : (w.chat.step i).Steady) (hc : (w.chat.step i).session.irc ≠ none →
      (w.chat.step i).Replaceable)
    (hr : (w.chat.step i).Ready w.chat.errors) (hm : ∀ mark, (w.chat.step i).attempts ≠
      w.chat.attempts → (w.chat.step i).Ready mark) : (w.step i).Kept := by
  have hbars : i.bars w.chat = false := by
    cases i with
    | act a => cases a <;> simp_all [Input.connects, Input.bars, Act.connects]
    | _ => rfl
  refine ⟨Chat.step_sound h.sound i, hs, fun _ => hc, ?_, ?_, h.step_mark i⟩ <;> grind [step]

theorem Kept.connect (h : w.Kept) (missing : Missing) (fails : Bool) :
    (w.step (.act (.connect missing fails))).Kept := by
  cases ho : w.chat.offers (.connect missing fails) with
  | false =>
    apply h.ignored (by simp [Input.Silent, Input.connects, Input.bars, Input.quits, ho])
    rw [Chat.step, if_neg (by simp [ho])]
  | true =>
    have hoffered : w.chat.session.irc = none ∧ w.chat.session.retryPending = false := by
      simpa [Chat.offers] using ho
    have hirc := hoffered.1
    have hi : w.chat.step (.act (.connect missing fails)) = w.chat.connectFresh missing fails := by
      rw [Chat.step, if_pos ho, Chat.perform]
    have hconnects : Input.connects w.chat (.act (.connect missing fails)) = true := by
      simp [Input.connects, Act.connects, ho]
    rcases w.chat.connectFresh_cases missing fails with hcase | hcase | hcase
    all_goals
      rw [hcase] at hi
      apply h.wants hconnects
      all_goals rw [hi]
    · exact h.steady.raiseError
    · exact fun hne => absurd hirc hne
    · exact .inr (.inr (.inr (.inr (.inr (Nat.lt_succ_self _)))))
    · exact fun mark hne => absurd rfl hne
    · exact h.steady.openCredentialPrompt hirc
    · exact fun hne => absurd hirc hne
    · exact .inr (.inr (.inr (.inr (.inl (by simp [Chat.openCredentialPrompt])))))
    · exact fun mark hne => absurd rfl hne
    · exact (Chat.applyConnection_begun _ _).steady
    · exact fun _ => (Chat.applyConnection_begun _ _).replaceable
    · exact (Chat.applyConnection_begun _ _).ready _
    · exact fun mark _ => (Chat.applyConnection_begun _ _).ready mark

theorem Kept.wantsAgain (h : w.Kept) (hconnects : i.connects w.chat = true) {c : Chat}
    {changed : Bool} (hi : w.chat.step i = c.startReconnect changed)
    (hattempts : c.attempts = w.chat.attempts) (herrors : c.errors = w.chat.errors)
    (hs : c.Steady) (hirc : c.session.irc = none) (hm : c.session.manualDisconnect = false)
    (hactive : c.session.activeConfig = true) : (w.step i).Kept := by
  have hrep : c.Replaceable := ⟨hm, fun hne => absurd hirc hne⟩
  obtain ⟨hirc', -, -, -, -, -, hsame⟩ := Chat.startReconnect_same c changed
  apply h.wants hconnects
  all_goals rw [hi]
  · exact hs.startReconnect (fun _ => hrep) changed
  · rw [hirc']
    exact fun hne => absurd hirc hne
  · exact Chat.startReconnect_ready hactive hm herrors.ge changed
  · rw [hsame]
    exact fun mark hne => absurd hattempts hne

theorem Kept.reconnect (h : w.Kept) (changed : Bool) :
    (w.step (.act (.reconnect changed))).Kept := by
  cases ho : w.chat.offers (.reconnect changed) with
  | false =>
    apply h.ignored (by simp [Input.Silent, Input.connects, Input.bars, Input.quits, ho])
    rw [Chat.step, if_neg (by simp [ho])]
  | true =>
    have hirc : w.chat.session.irc = none := by
      simpa [Chat.offers] using ho
    have hconnects : Input.connects w.chat (.act (.reconnect changed)) = true := by
      simp [Input.connects, Act.connects, ho]
    have hi : w.chat.step (.act (.reconnect changed)) = w.chat.reconnect changed := by
      rw [Chat.step, if_pos ho, Chat.perform]
    obtain ⟨hfresh, hprompt, hread, hkeys⟩ := h.steady
    have hreading := h.sound.reading
    have hreads := h.sound.reads
    by_cases hactive : w.chat.session.activeConfig = true
    · rw [Chat.reconnect, if_neg (by simp [hactive])] at hi
      apply h.wantsAgain hconnects hi rfl rfl _ hirc rfl hactive
      constructor <;> grind [Chat.Replaceable]
    · rw [Chat.reconnect, if_pos (by simp [hactive])] at hi
      have hsaved : w.chat.step (.act (.reconnect changed)) = w.chat ∧ .saved ∈ w.chat.reads ∨
          w.chat.step (.act (.reconnect changed)) = w.chat.readSaved := by
        grind
      have hsteady : w.chat.readSaved.Steady := by
        constructor <;> grind [Chat.readSaved, Chat.Replaceable]
      rcases hsaved with ⟨hsame, hsaved⟩ | hsaved
      all_goals apply h.wants hconnects
      · rw [hsame]
        exact h.steady
      · rw [hsame]
        exact fun hne => absurd hirc hne
      · rw [hsame]
        exact .inr (.inr (.inr (.inl (.inr ⟨by simpa using hactive, .inl hsaved⟩))))
      · rw [hsame]
        exact fun mark hne => absurd rfl hne
      · rw [hsaved]
        exact hsteady
      · rw [hsaved]
        exact fun hne => absurd hirc hne
      · rw [hsaved]
        exact .inr (.inr (.inr (.inl (.inr
          ⟨by simpa [Chat.readSaved] using hactive, .inl (by simp [Chat.readSaved])⟩))))
      · rw [hsaved]
        exact fun mark hne => absurd rfl hne

theorem Kept.retryNickname (h : w.Kept) (changed : Bool) :
    (w.step (.act (.retryNickname changed))).Kept := by
  obtain ⟨hfresh, hprompt, hread, hkeys⟩ := h.steady
  cases ho : w.chat.offers (.retryNickname changed) with
  | false =>
    apply h.ignored (by simp [Input.Silent, Input.connects, Input.bars, Input.quits, ho])
    rw [Chat.step, if_neg (by simp [ho])]
  | true =>
    have hnick : w.chat.nickPrompt = true := ho
    have hactive := h.sound.config (.inr (.inr (.inr hnick)))
    have hi : w.chat.step (.act (.retryNickname changed)) = w.chat.retryNickname changed := by
      rw [Chat.step, if_pos ho, Chat.perform]
    cases hirc : w.chat.session.irc with
    | some g =>
      rw [Chat.retryNickname, if_pos (by simp [hirc])] at hi
      apply h.quiet (by simp [Input.Silent, Input.connects, Input.bars, Input.quits, Act.connects,
        hirc])
      · rw [hi]
      · rw [hi]
        constructor <;> grind [Chat.Replaceable]
      · rw [hi]
        exact id
      · rw [hi]
        exact fun _ _ hready => hready
      · rw [hi]
        exact fun hm hp hs => ⟨hm, hp, hs⟩
    | none =>
      rw [Chat.retryNickname, if_neg (by simp [hirc])] at hi
      have hreads := h.sound.reads
      apply h.wantsAgain (by simp [Input.connects, Act.connects, ho, hirc]) hi rfl rfl _ hirc rfl
        hactive
      constructor <;> grind [Chat.Replaceable]

theorem Kept.submit (h : w.Kept) (accepted changed : Bool)
    (hu : w.Undisturbed (.act (.submit accepted changed))) :
    (w.step (.act (.submit accepted changed))).Kept := by
  obtain ⟨hfresh, hprompt, hread, hkeys⟩ := h.steady
  cases hp : w.chat.prompt with
  | none =>
    have ho : w.chat.offers (.submit accepted changed) = false := by
      simp [Chat.offers, hp]
    apply h.ignored (by simp [Input.Silent, Input.connects, Input.bars, Input.quits, ho])
    rw [Chat.step, if_neg (by simp [ho])]
  | some p =>
    have ho : w.chat.offers (.submit accepted changed) = true := by
      simp [Chat.offers, hp]
    have hi : w.chat.step (.act (.submit accepted changed)) = w.chat.submit accepted changed := by
      rw [Chat.step, if_pos ho, Chat.perform]
    have hrep : w.chat.session.irc ≠ none → w.chat.Replaceable := by
      intro hne
      cases hres : p.resume with
      | fresh => exact absurd (hfresh p hp hres) hne
      | reconnect => exact hprompt p hp hres
    have hsubmitted : w.chat.step (.act (.submit accepted changed)) = w.chat ∨
        ∃ r, (r = .fresh ∨ r = p.resume) ∧ w.chat.step (.act (.submit accepted changed)) =
          { w.chat with
            prompt := some { p with submitting := true }
            reads := w.chat.reads ++ [.keys r] } := by
      grind [Chat.submit]
    rcases hsubmitted with hsame | ⟨r, hr, hread'⟩
    all_goals apply h.wants (by simp [Input.connects, Act.connects, ho])
    · rw [hsame]
      exact h.steady
    · rw [hsame]
      exact hrep
    · rw [hsame]
      exact .inr (.inr (.inr (.inr (.inl (by simp [hp])))))
    · rw [hsame]
      exact fun mark hne => absurd rfl hne
    · rw [hread']
      have hnone : ∀ resume, .keys resume ∉ w.chat.reads := hu
      constructor <;> grind [Chat.Replaceable]
    · rw [hread']
      exact hrep
    · rw [hread']
      exact .inr (.inr (.inr (.inr (.inl (by simp)))))
    · rw [hread']
      exact fun mark hne => absurd rfl hne

theorem Kept.disconnect (h : w.Kept) (hu : w.Undisturbed (.act .disconnect)) :
    (w.step (.act .disconnect)).Kept := by
  obtain ⟨hnone, hsaved⟩ := hu
  refine ⟨Chat.step_sound h.sound (.act .disconnect), ?_, ?_, ?_, ?_, h.step_mark _⟩
  · obtain ⟨hfresh, hprompt, hread, hkeys⟩ := h.steady
    constructor <;> grind [step, Chat.step, Chat.perform, Chat.disconnect, Chat.Replaceable]
  all_goals
    obtain ⟨-, -, hc, hr, hb, -⟩ := h
    grind [step, Chat.step, Chat.perform, Chat.disconnect, Input.connects, Input.bars, Input.quits,
      Input.refuses, Act.connects, Chat.Replaceable, Chat.ReadsSaved]

theorem Kept.quit (h : w.Kept) (hu : w.Undisturbed (.act .quit)) :
    (w.step (.act .quit)).Kept := by
  obtain ⟨hnone, hsaved⟩ := hu
  refine ⟨Chat.step_sound h.sound (.act .quit), ?_, ?_, ?_, ?_, h.step_mark _⟩
  · obtain ⟨hfresh, hprompt, hread, hkeys⟩ := h.steady
    constructor <;> grind [step, Chat.step, Chat.perform, Chat.Replaceable]
  all_goals
    obtain ⟨-, -, hc, hr, hb, -⟩ := h
    grind [step, Chat.step, Chat.perform, Chat.offers, Input.connects, Input.bars, Input.quits,
      Input.refuses, Act.connects, Chat.Replaceable, Chat.ReadsSaved]

theorem Kept.cancel (h : w.Kept) (hu : w.Undisturbed (.act .cancel)) :
    (w.step (.act .cancel)).Kept := by
  cases hp : w.chat.prompt with
  | none =>
    have ho : w.chat.offers .cancel = false := by
      simp [Chat.offers, hp]
    apply h.ignored (by simp [Input.Silent, Input.connects, Input.bars, Input.quits, ho])
    rw [Chat.step, if_neg (by simp [ho])]
  | some p =>
    have hsaved : ¬w.chat.ReadsSaved := hu
    have hreads := h.sound.reads
    refine ⟨Chat.step_sound h.sound (.act .cancel), ?_, ?_, ?_, ?_, h.step_mark _⟩
    · obtain ⟨hfresh, hprompt, hread, hkeys⟩ := h.steady
      constructor <;> grind [step, Chat.step, Chat.perform, Chat.cancel, Chat.Replaceable]
    all_goals
      obtain ⟨-, -, hc, hr, hb, -⟩ := h
      grind [step, Chat.step, Chat.perform, Chat.cancel, Chat.offers, Input.connects, Input.bars,
        Input.quits, Input.refuses, Act.connects, Chat.Replaceable, Chat.ReadsSaved]

theorem Kept.step (h : w.Kept) (i : Input) (hu : w.Undisturbed i) : (w.step i).Kept := by
  cases i with
  | act act =>
    cases act with
    | connect missing fails => exact h.connect missing fails
    | reconnect changed => exact h.reconnect changed
    | disconnect => exact h.disconnect hu
    | quit => exact h.quit hu
    | retryNickname changed => exact h.retryNickname changed
    | submit accepted changed => exact h.submit accepted changed hu
    | cancel => exact h.cancel hu
  | ended generation how => exact h.ended generation how
  | registered generation => exact h.registered generation
  | nicknameRejected generation => exact h.nicknameRejected generation
  | timer token changed => exact h.timer token changed
  | answered read found =>
    cases read with
    | reconnect token => exact h.reconnectRead token found
    | saved => exact h.savedRead found
    | startup => exact h.startupRead found
    | keys resume => exact h.keys resume found
  | sleep => exact h.sleep
  | wake changed => exact h.wake changed

end Watch

end CayenChat.Reconnect
