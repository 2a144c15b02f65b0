import CayenChat.Avatars.Metadata
import CayenChat.Lib.Machine

/-! # A copy of the known avatars

The events of a call take a copy of the nicknames with an avatar to what they
are after the call. Those we lose from sight are not among them any more, and
only a new value brings them back.
-/

namespace CayenChat.Avatars

open Machine

def Event.apply (copy : Finset String) : Event → Finset String
  | userAvatar nickname (some _) => insert (nicknameKey nickname) copy
  | userAvatar nickname none => copy.erase (nicknameKey nickname)
  | avatarMoved old new => insert (nicknameKey new) (copy.erase (nicknameKey old))
  | avatarsReset => ∅
  | ownAvatar .. | ownAvatarFailed .. => copy

def replay (copy : Finset String) (events : List Event) : Finset String :=
  events.foldl Event.apply copy

@[simp] theorem replay_nil (copy : Finset String) : replay copy [] = copy := rfl

@[simp] theorem replay_cons (copy : Finset String) (event : Event) (events : List Event) :
    replay copy (event :: events) = replay (event.apply copy) events := rfl

@[simp] theorem replay_append (copy : Finset String) (events more : List Event) :
    replay copy (events ++ more) = replay (replay copy events) more :=
  List.foldl_append ..

def Event.brings (key : String) : Event → Bool
  | userAvatar nickname (some _) => nicknameKey nickname = key
  | avatarMoved _ new => nicknameKey new = key
  | _ => false

theorem mem_replay {key : String} {copy : Finset String} {events : List Event}
    (h : key ∈ replay copy events) : key ∈ copy ∨ ∃ event ∈ events, event.brings key = true := by
  induction events generalizing copy with
  | nil => exact .inl h
  | cons event events ih =>
    rw [replay_cons] at h
    rcases ih h with h | ⟨e, he, hb⟩
    · cases event with
      | userAvatar nickname url =>
        cases url with
        | some url =>
          rcases Finset.mem_insert.mp h with rfl | h
          · exact .inr ⟨_, List.mem_cons_self, by simp [Event.brings]⟩
          · exact .inl h
        | none => exact .inl (Finset.mem_of_mem_erase h)
      | avatarMoved old new =>
        rcases Finset.mem_insert.mp h with rfl | h
        · exact .inr ⟨_, List.mem_cons_self, by simp [Event.brings]⟩
        · exact .inl (Finset.mem_of_mem_erase h)
      | avatarsReset => cases h
      | ownAvatar => exact .inl h
      | ownAvatarFailed => exact .inl h
    · exact .inr ⟨e, List.mem_cons_of_mem _ he, hb⟩

namespace MetadataState

variable {s s' s'' : MetadataState} {events more : List Event}

/-- Events that tell what became of the known avatars, which stay within their bound. -/
structure Tells (s s' : MetadataState) (events : List Event) : Prop where
  bounded : s'.known.card ≤ maxAvatarUsers
  replayed : replay s.known events = s'.known

theorem Tells.trans (h : Tells s s' events) (h' : Tells s' s'' more) :
    Tells s s'' (events ++ more) where
  bounded := h'.bounded
  replayed := by rw [replay_append, h.replayed, h'.replayed]

theorem tells_nothing (h : s.known.card ≤ maxAvatarUsers) (hk : s'.known = s.known) :
    Tells s s' [] := ⟨hk ▸ h, hk.symm⟩

theorem Tells.congr {t t' : MetadataState} (h : Tells s s' events) (hk : t.known = s.known)
    (hk' : t'.known = s'.known) : Tells t t' events :=
  ⟨hk' ▸ h.bounded, by rw [hk, hk', h.replayed]⟩

theorem avatar_tells (h : s.known.card ≤ maxAvatarUsers) (target : String)
    (value : Option String) : Tells s (s.avatar target value).1 (s.avatar target value).2 := by
  unfold avatar
  split
  · exact tells_nothing h rfl
  dsimp only
  split
  · split
    · exact tells_nothing h rfl
    · rename_i hroom
      refine ⟨?_, rfl⟩
      rw [not_and_or, not_not, not_le] at hroom
      rcases hroom with hknown | hroom
      · rw [Finset.insert_eq_of_mem hknown]
        exact h
      · exact (Finset.card_insert_le _ _).trans hroom
  · split
    · exact ⟨(Finset.card_erase_le).trans h, rfl⟩
    · exact tells_nothing h rfl

theorem answered_known (s : MetadataState) (key : String) (reply : Bool) :
    (s.answered key reply).1.known = s.known := by
  unfold answered
  split
  · dsimp only
    split <;> rfl
  · rfl

theorem report_tells (h : s.known.card ≤ maxAvatarUsers) (target : String)
    (value : Option String) (reply : Bool) (currentNick : String) :
    Tells s (s.report target value reply currentNick).1
      (s.report target value reply currentNick).2 := by
  unfold report
  split
  · have hown := avatar_tells (s := { s with own := if reply then none else s.own }) h
      currentNick value
    exact ⟨hown.bounded, hown.replayed⟩
  · have hknown := answered_known s (nicknameKey target) reply
    dsimp only
    split
    · split
      · have hvalue := avatar_tells (s := (s.answered (nicknameKey target) reply).1)
          (hknown ▸ h) target value
        exact ⟨hvalue.bounded, hknown ▸ hvalue.replayed⟩
      · exact tells_nothing h hknown
    · exact avatar_tells h target value

theorem ownFailure_tells (h : s.known.card ≤ maxAvatarUsers) (own : OwnRequest) (code : String)
    (params : List String) (description currentNick : String) :
    Tells s (s.ownFailure own code params description currentNick).1
      (s.ownFailure own code params description currentNick).2 := by
  unfold ownFailure
  dsimp only
  split
  · exact tells_nothing h rfl
  split
  · have hown := avatar_tells (s := { s with own := none }) h currentNick none
    exact ⟨hown.bounded, hown.replayed⟩
  · exact ⟨h, rfl⟩

theorem lookupFailure_known (s : MetadataState) (code target : String) (params : List String)
    (now : ℕ) : (s.lookupFailure code target params now).known = s.known := by
  unfold lookupFailure
  dsimp only
  split
  · split <;> rfl
  · rfl

theorem failure_tells (h : s.known.card ≤ maxAvatarUsers) (args : List String) (now : ℕ)
    (currentNick : String) :
    Tells s (s.failure args now currentNick).1 (s.failure args now currentNick).2 := by
  unfold failure
  split
  · exact tells_nothing h rfl
  dsimp only
  split
  · exact ownFailure_tells h ..
  · apply tells_nothing h
    split
    · rename_i code rest _ _ _
      cases rest.dropLast.head? with
      | none => rfl
      | some target => exact lookupFailure_known ..
    · rfl

theorem defer_known (s : MetadataState) (args : List String) (now : ℕ) (joined : String → Bool) :
    (s.defer args now joined).1.known = s.known := by
  unfold defer
  split
  · rfl
  · dsimp only
    split_ifs <;> rfl

theorem observeNumeric_tells (h : s.known.card ≤ maxAvatarUsers) {code : ℕ} {args : List String}
    {now : ℕ} {currentNick : String} {joined : String → Bool} {r : MetadataState × Handled}
    (hr : s.observeNumeric code args now currentNick joined = some r) :
    Tells s r.1 r.2.events := by
  unfold observeNumeric at hr
  dsimp only at hr
  split at hr
  · split at hr
    · split at hr
      · cases hr
        exact report_tells h ..
      · cases hr
        exact tells_nothing h rfl
    · cases hr
      exact tells_nothing h rfl
  · split at hr
    · split at hr
      · cases hr
        exact report_tells h ..
      · cases hr
        exact tells_nothing h rfl
    · cases hr
      exact tells_nothing h rfl
  · cases hr
    exact tells_nothing h rfl
  · cases hr
    exact tells_nothing h rfl
  · cases hr
    exact tells_nothing h rfl
  · cases hr
    exact tells_nothing h (defer_known ..)
  · cases hr

theorem observe_tells (h : s.known.card ≤ maxAvatarUsers) {message : IrcMessage}
    {now : ℕ} {currentNick : String} {joined : String → Bool} {r : MetadataState × Handled}
    (hr : s.observe message now currentNick joined = some r) : Tells s r.1 r.2.events := by
  unfold observe at hr
  split at hr
  · split at hr
    · split at hr
      · split at hr
        · cases hr
          exact report_tells h ..
        · cases hr
          exact tells_nothing h rfl
      · cases hr
        exact tells_nothing h rfl
    · split at hr
      · cases hr
        exact failure_tells h ..
      · obtain ⟨numeric, -, hr⟩ := Option.bind_eq_some_iff.mp hr
        exact observeNumeric_tells h hr
  · obtain ⟨numeric, -, hr⟩ := Option.bind_eq_some_iff.mp hr
    exact observeNumeric_tells h hr

theorem tick_known (s : MetadataState) (now : ℕ) (joined : String → Bool) :
    (s.tick now joined).1.known = s.known := by
  have hsend : ∀ s : MetadataState, (s.sendLookup now).1.known = s.known := by
    intro s
    unfold sendLookup
    split
    · split <;> rfl
    · rfl
  unfold tick
  dsimp only
  split <;> exact hsend _

theorem tick_events (s : MetadataState) (now : ℕ) (joined : String → Bool) (copy : Finset String) :
    replay copy (s.tick now joined).2.events = copy := by
  change replay copy (Option.toList _) = copy
  cases (s.own.filter (·.deadline ≤ now)).bind OwnRequest.request <;> rfl

/-! ## Who is present -/

theorem scheduleLookup_known (s : MetadataState) (nickname : String) (now : ℕ) :
    (s.scheduleLookup nickname now).1.known = s.known := by
  unfold scheduleLookup
  dsimp only
  split_ifs <;> rfl

theorem cancelLookup_known (s : MetadataState) (key : String) (now : ℕ) :
    (s.cancelLookup key now).known = s.known := by
  unfold cancelLookup
  split
  · rfl
  · split <;> rfl

theorem cancelLookups_known (s : MetadataState) (gone : List String) (now : ℕ) :
    (gone.foldl (fun s nick => s.cancelLookup (nicknameKey nick) now) s).known = s.known := by
  induction gone generalizing s with
  | nil => rfl
  | cons nick gone ih => rw [List.foldl_cons, ih, cancelLookup_known]

theorem renameLookup_known (s : MetadataState) (old new : String) (now : ℕ) :
    (s.renameLookup old new now).known = s.known := by
  unfold renameLookup
  dsimp only
  split
  · rfl
  · split_ifs
    · rfl
    all_goals exact cancelLookup_known ..

theorem forgetGone_tells (h : s.known.card ≤ maxAvatarUsers) (gone : List String) :
    Tells s (s.forgetGone gone).1 (s.forgetGone gone).2 := by
  unfold forgetGone
  induction gone using List.reverseRecOn with
  | nil => exact tells_nothing h rfl
  | append_singleton gone nick ih =>
    rw [List.foldl_concat]
    split
    · refine ih.trans ⟨?_, rfl⟩
      exact Finset.card_erase_le.trans ih.bounded
    · exact ih

theorem forgetGone_known (s : MetadataState) (gone : List String) :
    (s.forgetGone gone).1.known = s.known \ (gone.map nicknameKey).toFinset := by
  unfold forgetGone
  induction gone using List.reverseRecOn with
  | nil => simp
  | append_singleton gone nick ih =>
    have hunion : s.known \ ((gone ++ [nick]).map nicknameKey).toFinset =
        (s.known \ (gone.map nicknameKey).toFinset).erase (nicknameKey nick) := by
      ext key
      simp only [Finset.mem_sdiff, Finset.mem_erase, List.mem_toFinset, List.map_append,
        List.mem_append, List.map_cons, List.map_nil, List.mem_singleton]
      tauto
    rw [List.foldl_concat, hunion, ← ih]
    split
    · rfl
    · rename_i hnot
      exact (Finset.erase_eq_of_notMem hnot).symm

theorem renamed_tells (h : s.known.card ≤ maxAvatarUsers) (old new : String) (now : ℕ) :
    Tells s (s.renamed old new now).1 (s.renamed old new now).2.events := by
  have hknown := renameLookup_known s old new now
  unfold renamed
  dsimp only
  split
  · rename_i hold
    refine ⟨?_, by rw [hknown]; rfl⟩
    refine (Finset.card_insert_le _ _).trans ?_
    rw [Finset.card_erase_add_one hold, hknown]
    exact h
  · exact (forgetGone_tells (hknown ▸ h) [new]).congr hknown.symm rfl

theorem lifecycle_tells (h : s.known.card ≤ maxAvatarUsers) (message : IrcMessage)
    (presence : PresenceIndex) (currentNick : String) (replayed : Bool) (now : ℕ) :
    Tells s (s.lifecycle message presence currentNick replayed now).1
      (s.lifecycle message presence currentNick replayed now).2.events := by
  unfold lifecycle
  split
  · exact tells_nothing h rfl
  split
  · split
    · exact tells_nothing h (scheduleLookup_known ..)
    · exact tells_nothing h rfl
  · exact renamed_tells h ..
  · rename_i actor _ _ _ _
    have hknown := cancelLookups_known s
      (presence.departed message actor (sameNickname · currentNick)) now
    exact (forgetGone_tells (hknown ▸ h) _).congr hknown.symm rfl

theorem call_tells (h : s.known.card ≤ maxAvatarUsers) (c : Call) :
    Tells s (s.call c).1 (s.call c).2 := by
  cases c with
  | start now =>
    apply tells_nothing h
    change (s.start now).1.known = s.known
    unfold start
    split <;> rfl
  | requestOwn request value available now =>
    apply tells_nothing h
    change (s.requestOwn request value available now).1.known = s.known
    unfold requestOwn
    split_ifs <;> rfl
  | observe message now currentNick joined =>
    have hcall : s.call (.observe message now currentNick joined) =
        ((s.observe message now currentNick joined).map fun r => (r.1, r.2.events)).getD
          (s, []) := rfl
    rw [hcall]
    cases hr : s.observe message now currentNick joined with
    | none => exact tells_nothing h rfl
    | some r => exact observe_tells h hr
  | tick now joined =>
    have hknown := tick_known s now joined
    exact ⟨hknown.symm ▸ h, (tick_events s now joined s.known).trans hknown.symm⟩
  | lifecycle message presence currentNick replayed now => exact lifecycle_tells h ..
  | forgetChannel channel => exact tells_nothing h rfl
  | setCasemapping casemapping => exact tells_nothing h rfl
  | reset =>
    refine ⟨Nat.zero_le _, ?_⟩
    change replay s.known (_ ++ [.avatarsReset]) = ∅
    rw [replay_append]
    rfl

def after (s : MetadataState) (calls : List Call) : MetadataState :=
  exec (fun s c => (s.call c).1) s calls

def emitted (s : MetadataState) (calls : List Call) : List Event :=
  collect (fun s c => (s.call c).2) (fun s c => (s.call c).1) s calls

theorem run_tells (h : s.known.card ≤ maxAvatarUsers) (calls : List Call) :
    Tells s (s.after calls) (s.emitted calls) :=
  collect_invariant (fun s' events => Tells s s' events) (l := [])
    (fun _ _ c ht => ht.trans (call_tells ht.bounded c)) (tells_nothing h rfl)

/-- Who is not in sight any more after a command, judged from the membership before it. -/
def losesSight (presence : PresenceIndex) (currentNick actor nick : String) : IrcCommand → Prop
  | .quit _ => nick = actor ∧ sameNickname actor currentNick = false
  | .part channel _ => leaves channel actor
  | .kick channel leaving _ => leaves channel leaving
  | _ => False
where
  /-- We leave the last channel we share with a user, or the user does. -/
  leaves (channel leaving : String) : Prop :=
    if sameNickname leaving currentNick then
      nick ∈ presence.onlyIn channel ∧ sameNickname nick currentNick = false
    else nick = leaving ∧ presence.shares leaving (some channel) = false

theorem departed_of_losesSight {presence : PresenceIndex} {currentNick actor nick : String}
    {message : IrcMessage} (h : losesSight presence currentNick actor nick message.command) :
    nick ∈ presence.departed message actor (sameNickname · currentNick) := by
  have hleaves : ∀ channel leaving, losesSight.leaves presence currentNick nick channel leaving →
      nick ∈ if sameNickname leaving currentNick then
        (presence.onlyIn channel).filter (!sameNickname · currentNick)
      else if presence.shares leaving (some channel) then [] else [leaving] := by
    intro channel leaving hl
    unfold losesSight.leaves at hl
    split at hl
    · rename_i hours
      rw [if_pos hours, List.mem_filter, hl.2]
      exact ⟨hl.1, rfl⟩
    · rename_i hours
      rw [if_neg hours, hl.2, hl.1]
      exact List.mem_singleton_self _
  unfold PresenceIndex.departed
  dsimp only
  cases hc : message.command with
  | quit reason =>
    rw [hc] at h
    rw [h.1, if_neg (by simp [h.2])]
    exact List.mem_singleton_self _
  | part channel reason =>
    rw [hc] at h
    exact hleaves channel actor h
  | kick channel leaving reason =>
    rw [hc] at h
    exact hleaves channel leaving h
  | _ =>
    rw [hc] at h
    exact h.elim

theorem lifecycle_forgets (s : MetadataState) {message : IrcMessage} {presence : PresenceIndex}
    {currentNick actor nick : String} {replayed : Bool} {now : ℕ}
    (ha : message.sourceNickname = some actor)
    (h : losesSight presence currentNick actor nick message.command) :
    nicknameKey nick ∉ (s.lifecycle message presence currentNick replayed now).1.known := by
  have hgone := departed_of_losesSight h
  unfold lifecycle
  rw [ha]
  dsimp only
  split
  · rename_i hc
    rw [hc] at h
    exact h.elim
  · rename_i hc
    rw [hc] at h
    exact h.elim
  · dsimp only
    rw [forgetGone_known, Finset.mem_sdiff, not_and_not_right]
    exact fun _ => List.mem_toFinset.mpr (List.mem_map_of_mem hgone)

theorem lifecycle_nick (s : MetadataState) {message : IrcMessage} {presence : PresenceIndex}
    {currentNick actor new : String} {replayed : Bool} {now : ℕ}
    (ha : message.sourceNickname = some actor) (hc : message.command = .nick new) :
    (s.lifecycle message presence currentNick replayed now).1.known =
      if nicknameKey actor ∈ s.known then
        insert (nicknameKey new) (s.known.erase (nicknameKey actor))
      else s.known.erase (nicknameKey new) := by
  have hknown := renameLookup_known s actor new now
  unfold lifecycle
  rw [ha, hc]
  dsimp only
  unfold renamed
  dsimp only
  rw [hknown]
  split
  · rfl
  · dsimp only
    rw [forgetGone_known, hknown]
    simp [Finset.sdiff_singleton_eq_erase]

end MetadataState

open MetadataState

/-- The events of a connection tell which users have an avatar, and at most so many do. A user who
is lost from sight by a line that names a user as its source has none until a new one comes; a user
who takes another name takes an avatar along, and otherwise clears the one of that name. -/
theorem avatars_are_mirrored (utf8 : Bool) (calls : List Call) :
    replay ∅ (MetadataState.emitted { utf8 } calls) = (MetadataState.after { utf8 } calls).known ∧
    (MetadataState.after { utf8 } calls).known.card ≤ 2048 ∧
    (∀ (message : IrcMessage) (presence : PresenceIndex) (currentNick actor : String)
      (replayed : Bool) (now : ℕ), message.sourceNickname = some actor →
      (∀ nick, losesSight presence currentNick actor nick message.command →
        nicknameKey nick ∉ ((MetadataState.after { utf8 } calls).lifecycle message presence
          currentNick replayed now).1.known) ∧
      ∀ new, message.command = .nick new →
        ((MetadataState.after { utf8 } calls).lifecycle message presence currentNick replayed
          now).1.known =
          if nicknameKey actor ∈ (MetadataState.after { utf8 } calls).known then
            insert (nicknameKey new)
              ((MetadataState.after { utf8 } calls).known.erase (nicknameKey actor))
          else (MetadataState.after { utf8 } calls).known.erase (nicknameKey new)) ∧
    ∀ (more : List Call) (key : String), key ∉ (MetadataState.after { utf8 } calls).known →
      key ∈ ((MetadataState.after { utf8 } calls).after more).known →
      ∃ event ∈ (MetadataState.after { utf8 } calls).emitted more, event.brings key = true := by
  have hrun : Tells { utf8 } _ _ := run_tells (Nat.zero_le _) calls
  refine ⟨hrun.replayed, hrun.bounded, ?_, ?_⟩
  · intro message presence currentNick actor replayed now ha
    exact ⟨fun nick h => lifecycle_forgets _ ha h, fun new hc => lifecycle_nick _ ha hc⟩
  · intro more key hnot hkey
    have hmore := run_tells hrun.bounded more
    rw [← hmore.replayed] at hkey
    exact (mem_replay hkey).resolve_left hnot

def aliceAndBob : List Call :=
  [.start 0,
    .observe ⟨none, none, .raw "METADATA" ["alice", "avatar", "*", "https://a.example"]⟩ 0 "me"
      fun _ => true,
    .observe ⟨none, none, .raw "METADATA" ["bob", "avatar", "*", "https://b.example"]⟩ 0 "me"
      fun _ => true]

/-- Alice quits. -/
theorem avatars_are_mirrored_quit :
    "alice" ∉ ((MetadataState.after { utf8 := true } aliceAndBob).lifecycle
      ⟨none, some (.nickname "alice" "u" "h"), .quit none⟩ {} "me" false 1).1.known :=
  ((avatars_are_mirrored true aliceAndBob).2.2.1 ⟨none, some (.nickname "alice" "u" "h"), .quit none⟩
    {} "me" "alice" false 1 rfl).1 "alice" ⟨rfl, by decide +kernel⟩

/-- Alice takes the name of Bob, and has her avatar under it. -/
theorem renamed_over_keeps_avatar :
    ¬ ∀ (calls : List Call) (message : IrcMessage) (presence : PresenceIndex)
      (currentNick actor new : String) (replayed : Bool) (now : ℕ),
      message.sourceNickname = some actor → message.command = .nick new →
      nicknameKey new ∉ ((MetadataState.after { utf8 := true } calls).lifecycle message presence
        currentNick replayed now).1.known := by
  intro h
  have hbob := h aliceAndBob ⟨none, some (.nickname "alice" "u" "h"), .nick "bob"⟩ {} "me" "alice"
    "bob" false 1 rfl rfl
  revert hbob
  decide +kernel

end CayenChat.Avatars
