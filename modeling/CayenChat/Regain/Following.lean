import CayenChat.Regain.Sightings

/-! # A channel follows what was seen of it

What the table holds of a channel agrees with what was seen of it, and a
channel that is waited for has been ours alone since the wait began. Every
part of a call keeps this, and only a channel that is ours alone is acted on.
-/

namespace CayenChat

namespace OpRegain

section Seen

variable {seen : List Sighting} {s : Sighting} {time : ℕ} {users : List String} {nick text : String}
  {complete : Bool}

@[simp] theorem stay_joined : stay (.joined :: seen) = [] := rfl

theorem stay_cons (h : s ≠ .joined) : stay (s :: seen) = s :: stay seen :=
  List.takeWhile_cons_of_pos (by simpa using h)

@[simp] theorem topicOf_joined : topicOf (.joined :: seen) = "" := rfl

@[simp] theorem topicOf_topic : topicOf (.topic text :: seen) = text := rfl

@[simp] theorem topicOf_roster : topicOf (.roster time users nick complete :: seen) = topicOf seen :=
  rfl

@[simp] theorem topicOf_rejoined : topicOf (.rejoined :: seen) = topicOf seen := rfl

@[simp] theorem attempted_joined : attempted (.joined :: seen) = attempted seen := by
  simp [attempted, Sighting.op]

@[simp] theorem attempted_topic : attempted (.topic text :: seen) = attempted seen := by
  simp [attempted, Sighting.op]

@[simp] theorem attempted_forgotten : attempted (.forgotten :: seen) = false := by
  simp [attempted]

@[simp] theorem attempted_roster : attempted (.roster time users nick complete :: seen) =
    (!showsOp users nick && attempted seen) := by
  cases h : showsOp users nick <;> simp [attempted, Sighting.op, h]

end Seen

def Past (now : ℕ) (seen : List Sighting) : Prop :=
  ∀ time users nick complete, .roster time users nick complete ∈ seen → time ≤ now

/-- What is held of a channel is what was seen of it, and while it is waited for it has been ours
alone since the wait began. -/
structure Follows (seen : List Sighting) (c : Channel) : Prop where
  roster : c.inChannel = true → c.synced = true → ∃ time users nick complete,
    (stay seen).find? Sighting.isRoster = some (.roster time users nick complete) ∧
    c.op = showsOp users nick ∧ c.alone = showsAlone users nick
  complete : c.inChannel = true → c.synced = true → (stay seen).any Sighting.isComplete = true
  topic : c.topic = topicOf seen
  tried : attempted seen = true → c.tried = true
  settling : ∀ {due}, c.stage = .settling due →
    c.qualifies = true ∧ ∀ s ∈ seen, s.within due stableTime = true → s.onlyUs = true

variable {seen : List Sighting} {c : Channel} {now due n : ℕ} {users : List String}
  {nick text name : String} {complete ready : Bool} {flagsOf : String → Option String}

theorem Channel.qualifies_iff : c.qualifies = true ↔
    c.tried = false ∧ c.alone = true ∧ c.op = false ∧ c.synced = true ∧ c.inChannel = true := by
  simp [Channel.qualifies, and_assoc]

namespace Follows

theorem join (ht : attempted seen = true → c.tried = true) :
    Follows (.joined :: seen) (c.join name) where
  roster _ h := by cases h
  complete _ h := by cases h
  topic := rfl
  tried h := ht (by simpa using h)
  settling {due} h := by
    simp only [Channel.join] at h
    split at h <;> cases h

theorem withTopic (h : Follows seen c) : Follows (.topic text :: seen) (c.withTopic text) where
  roster hi hs := by
    rw [stay_cons (by simp)]
    exact h.roster hi hs
  complete hi hs := by
    rw [stay_cons (by simp)]
    exact h.complete hi hs
  topic := rfl
  tried ht := h.tried (by simpa using ht)
  settling {due} hd := by
    have hs : c.stage = .settling due := by
      simp only [Channel.withTopic] at hd
      split at hd
      · cases hd
      · exact hd
    obtain ⟨hq, hw⟩ := h.settling hs
    refine ⟨hq, fun s hm => ?_⟩
    rcases List.mem_cons.mp hm with rfl | hm
    · intro _; rfl
    · exact hw s hm

theorem out (h : Follows seen c) {stage : Stage} (hs : ∀ due, stage ≠ .settling due) :
    Follows seen { c with stage := stage, inChannel := false } where
  roster hi := by cases hi
  complete hi := by cases hi
  topic := h.topic
  tried := h.tried
  settling {due} hd := absurd hd (hs due)

end Follows

/-- Where a roster that is looked at leaves the channel: it is waited for only if it qualifies, from
now on unless it was waited for already. -/
theorem Channel.rosterChanged_spec (hi : c.inChannel = true) (hc : (c.synced || complete) = true) :
    ∃ stage restore, (c.rosterChanged users nick complete now).1 =
        { c.see users nick complete with stage := stage, restore := restore } ∧
      ∀ due, stage = .settling due → (c.see users nick complete).qualifies = true ∧
        (c.stage = .settling due ∨ due = now + stableTime) := by
  have hstage : (c.see users nick complete).stage = c.stage := rfl
  have hsettle (hw : ∀ d f t s, c.stage ≠ .restoring d f t s) (ha : ∀ d p j, c.stage ≠ .attempt d p j) :
      ∃ stage, ((c.see users nick complete).settle now) =
        { c.see users nick complete with stage := stage } ∧
      ∀ due, stage = .settling due → (c.see users nick complete).qualifies = true ∧
        (c.stage = .settling due ∨ due = now + stableTime) := by
    refine ⟨_, rfl, fun due hd => ?_⟩
    split_ifs at hd with hq
    refine ⟨?_, ?_⟩
    · rw [Channel.qualifies, hq]
      simpa [Channel.see, hi] using hc
    · rw [hstage] at hd
      split at hd
      · rename_i hs; exact Or.inl (hs.trans hd)
      · exact Or.inr (Stage.settling.inj hd).symm
  unfold Channel.rosterChanged
  rw [hi, hc]
  simp only [Bool.not_true, Bool.false_eq_true, if_false, hstage]
  cases hs : c.stage with
  | watching =>
    obtain ⟨stage, he, hd⟩ := hsettle (by simp [hs]) (by simp [hs])
    exact ⟨stage, c.restore, he, by rwa [hs] at hd⟩
  | settling due =>
    obtain ⟨stage, he, hd⟩ := hsettle (by simp [hs]) (by simp [hs])
    exact ⟨stage, c.restore, he, by rwa [hs] at hd⟩
  | restoring due flags topic topicSeen =>
    exact ⟨c.stage, c.restore, rfl, by simp [hs]⟩
  | attempt due parted joined =>
    cases joined with
    | false => exact ⟨c.stage, c.restore, rfl, by simp [hs]⟩
    | true =>
      cases complete with
      | false => exact ⟨c.stage, c.restore, rfl, by simp [hs]⟩
      | true =>
        simp only [if_true, Channel.finish]
        split_ifs
        · exact ⟨_, _, rfl, by simp⟩
        · exact ⟨_, _, rfl, by simp⟩
        · exact ⟨_, _, rfl, by simp⟩

theorem Channel.rosterChanged_ignored
    (h : ¬(c.inChannel = true ∧ (c.synced || complete) = true)) :
    c.rosterChanged users nick complete now = (c, []) := by
  unfold Channel.rosterChanged
  by_cases hi : c.inChannel = true
  · have hc : (c.synced || complete) = false := Bool.eq_false_iff.mpr fun hc => h ⟨hi, hc⟩
    rw [hi, hc]
    rfl
  · rw [Bool.eq_false_iff.mpr hi]
    rfl

theorem Channel.rosterChanged_name : (c.rosterChanged users nick complete now).1.name = c.name := by
  by_cases h : c.inChannel = true ∧ (c.synced || complete) = true
  · obtain ⟨_, _, he, _⟩ :=
      c.rosterChanged_spec h.1 h.2
    rw [he]
    rfl
  · rw [c.rosterChanged_ignored h]

theorem Channel.attempt_name {flags : String} : (c.attempt now flags n).1.name = c.name := by
  unfold Channel.attempt
  by_cases ht : maxTopic < byteLen c.topic
  · rw [if_pos ht]
  · rw [if_neg ht]
    by_cases hn : maxRejoinsPerPoll ≤ n
    · rw [if_pos hn]
    · rw [if_neg hn]

theorem Channel.poll_name : (c.poll now ready flagsOf n).1.name = c.name := by
  unfold Channel.poll
  cases c.stage with
  | watching => rfl
  | settling due =>
    dsimp only
    by_cases hd : due ≤ now
    · rw [if_pos hd]
      cases flagsOf c.name with
      | none => rfl
      | some flags =>
        cases ready with
        | false => rfl
        | true =>
          by_cases hq : c.qualifies = true
          · simpa only [hq, if_true] using Channel.attempt_name
          · simp only [hq, if_false, Bool.false_eq_true]
    · rw [if_neg hd]
  | attempt due parted joined => dsimp only; split_ifs <;> rfl
  | restoring due flags topic topicSeen => dsimp only; split_ifs <;> rfl

namespace Follows

theorem rosterChanged (h : Follows seen c) (hp : Past now seen) :
    Follows (.roster now users nick complete :: seen)
      (c.rosterChanged users nick complete now).1 := by
  have hstay : stay (.roster now users nick complete :: seen) =
      .roster now users nick complete :: stay seen := stay_cons (by simp)
  by_cases hl : c.inChannel = true ∧ (c.synced || complete) = true
  · obtain ⟨stage, restore, he, hst⟩ :=
      c.rosterChanged_spec hl.1 hl.2
    rw [he]
    refine ⟨fun _ _ => ⟨now, users, nick, complete, ?_, rfl, rfl⟩, fun _ _ => ?_, h.topic,
      fun ht => ?_, fun {due} hd => ?_⟩
    · rw [hstay]; rfl
    · rw [hstay, List.any_cons, Bool.or_eq_true]
      by_cases hc : complete = true
      · exact Or.inl hc
      · have hs : c.synced = true := by simpa [hc] using hl.2
        exact Or.inr (h.complete hl.1 hs)
    · rw [attempted_roster, Bool.and_eq_true] at ht
      simp [Channel.see, h.tried ht.2, ht.1]
    · obtain ⟨hq, hdue⟩ := hst due hd
      refine ⟨hq, fun s hm => ?_⟩
      rcases List.mem_cons.mp hm with rfl | hm
      · obtain ⟨_, ha, ho, _⟩ := Channel.qualifies_iff.mp hq
        have ha' : showsAlone users nick = true := ha
        have ho' : showsOp users nick = false := ho
        simp [Sighting.onlyUs, ha', ho']
      · rcases hdue with hs | rfl
        · exact (h.settling hs).2 s hm
        · -- nothing was seen after now
          cases s with
          | roster time users nick complete =>
            have hle := hp time users nick complete hm
            simp only [Sighting.within, decide_eq_true_eq]
            omega
          | _ => intro hw; cases hw
  · rw [c.rosterChanged_ignored hl]
    have hns : c.inChannel = true → c.synced = true → False := fun hi hs =>
      hl ⟨hi, by rw [hs]; rfl⟩
    refine ⟨fun hi hs => (hns hi hs).elim, fun hi hs => (hns hi hs).elim, h.topic, fun ht => ?_,
      fun {due} hd => ?_⟩
    · rw [attempted_roster, Bool.and_eq_true] at ht
      exact h.tried ht.2
    · obtain ⟨_, _, _, hs, hi⟩ := Channel.qualifies_iff.mp (h.settling hd).1
      exact (hns hi hs).elim

theorem setStage (h : Follows seen c) {stage : Stage} {restore : Option Restore}
    (hs : ∀ due, stage = .settling due → c.qualifies = true ∧
      ∀ s ∈ seen, s.within due stableTime = true → s.onlyUs = true) :
    Follows seen { c with stage := stage, restore := restore } :=
  ⟨h.roster, h.complete, h.topic, h.tried, fun {due} hd => hs due hd⟩

theorem within_future (hp : Past now seen) {s : Sighting} (hm : s ∈ seen)
    (hw : s.within (now + stableTime) stableTime = true) : s.onlyUs = true := by
  cases s with
  | roster time users nick complete =>
    have hle := hp time users nick complete hm
    simp only [Sighting.within, decide_eq_true_eq] at hw
    omega
  | _ => cases hw

theorem within_mono {s : Sighting} {due now : ℕ} (h : due ≤ now)
    (hw : s.within now stableTime = true) : s.within due stableTime = true := by
  cases s with
  | roster time users nick complete =>
    simp only [Sighting.within, decide_eq_true_eq] at hw ⊢
    omega
  | _ => cases hw

theorem ours (h : Follows seen c) (hs : c.stage = .settling due) (hd : due ≤ now)
    (ht : byteLen c.topic ≤ maxTopic) : Ours seen now := by
  obtain ⟨hq, hw⟩ := h.settling hs
  obtain ⟨htr, ha, ho, hsy, hi⟩ := Channel.qualifies_iff.mp hq
  obtain ⟨time, users, nick, complete, hr, ho', ha'⟩ := h.roster hi hsy
  refine ⟨fun s hm hn => hw s hm (within_mono hd hn), ?_, h.complete hi hsy, h.topic ▸ ht, ?_⟩
  · rw [hr, Option.any_some, Sighting.onlyUs, ← ho', ← ha', ha, ho]
    rfl
  · rw [Bool.eq_false_iff]
    exact fun hat => by rw [h.tried hat] at htr; cases htr

/-- What a poll does with a channel: nothing is parted and the channel goes on, or it is ours alone
and it is parted. -/
theorem poll (h : Follows seen c) (hp : Past now seen) :
    (rejoins (c.poll now ready flagsOf n).2.1 = [] ∧ (c.poll now ready flagsOf n).2.2 = n ∧
      Follows seen (c.poll now ready flagsOf n).1) ∨
    (rejoins (c.poll now ready flagsOf n).2.1 = [c.name] ∧
      (c.poll now ready flagsOf n).2.2 = n + 1 ∧ n < maxRejoinsPerPoll ∧ ready = true ∧
      (flagsOf c.name).isSome = true ∧ Ours seen now ∧
      Follows (.rejoined :: seen) (c.poll now ready flagsOf n).1) := by
  unfold Channel.poll
  cases hs : c.stage with
  | watching => exact Or.inl ⟨rfl, rfl, h⟩
  | settling due =>
    obtain ⟨hq, hw⟩ := h.settling hs
    dsimp only
    by_cases hd : due ≤ now
    · rw [if_pos hd]
      have hwait : Follows seen { c with stage := .settling (now + stableTime) } :=
        h.setStage fun d he => by
          cases he
          exact ⟨hq, fun s hm => within_future hp hm⟩
      cases hf : flagsOf c.name with
      | none => exact Or.inl ⟨rfl, rfl, hwait⟩
      | some flags =>
        cases ready with
        | false => exact Or.inl ⟨rfl, rfl, hwait⟩
        | true =>
          dsimp only
          rw [if_pos hq]
          unfold Channel.attempt
          by_cases ht : maxTopic < byteLen c.topic
          · rw [if_pos ht]
            refine Or.inl ⟨rfl, rfl, h.roster, h.complete, h.topic, fun _ => rfl, ?_⟩
            simp
          · rw [if_neg ht]
            by_cases hn : maxRejoinsPerPoll ≤ n
            · rw [if_pos hn]
              refine Or.inl ⟨rfl, rfl, h.setStage fun d he => ?_⟩
              cases he
              exact ⟨hq, fun s hm hn => hw s hm (within_mono (by omega) hn)⟩
            · rw [if_neg hn]
              have hours : Ours seen now := h.ours hs hd (Nat.not_lt.mp ht)
              refine Or.inr ⟨rfl, rfl, Nat.not_le.mp hn, rfl, rfl, hours, ?_⟩
              refine ⟨fun hi hsy => ?_, fun hi hsy => ?_, h.topic, fun _ => rfl, by simp⟩
              · rw [stay_cons (by simp)]
                exact h.roster hi hsy
              · rw [stay_cons (by simp)]
                exact h.complete hi hsy
    · rw [if_neg hd]
      exact Or.inl ⟨rfl, rfl, h⟩
  | attempt due parted joined =>
    dsimp only
    by_cases hd : due ≤ now
    · rw [if_pos hd]
      exact Or.inl ⟨rfl, rfl, h.setStage (by simp)⟩
    · rw [if_neg hd]
      exact Or.inl ⟨rfl, rfl, h⟩
  | restoring due flags topic topicSeen =>
    dsimp only
    by_cases hd : due ≤ now
    · rw [if_pos hd]
      refine Or.inl ⟨rfl, rfl, h.setStage fun d he => ?_⟩
      split_ifs at he with hq
      cases he
      exact ⟨hq, fun s hm => within_future hp hm⟩
    · rw [if_neg hd]
      exact Or.inl ⟨rfl, rfl, h⟩

end Follows

end OpRegain

end CayenChat
