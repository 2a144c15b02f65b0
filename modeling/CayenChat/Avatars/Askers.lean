import CayenChat.Avatars.Mirror
import CayenChat.Avatars.Peers

/-! # Who is told of a new avatar

What a client takes others to know is what it told them: the users who asked
for an avatar are told when it changes, one at a time, until all of them know.
-/

namespace CayenChat.Avatars

/-! ## What a notice tells -/

def toldBy (utf8 : Bool) (key : String) : IrcCommand → Option (Option String)
  | .notice target text =>
    if nicknameKey target = key then (avatarCtcp text).map (replyUrl · utf8) else none
  | _ => none

def lastTold (utf8 : Bool) (key : String) (lines : List IrcCommand) : Option (Option String) :=
  lines.reverse.findSome? (toldBy utf8 key)

theorem avatarCtcp_avatarText (share : Option String) :
    avatarCtcp (avatarText share) = some (share.getD "") := by
  cases share with
  | none => decide +kernel
  | some url =>
    have hfirst : stripFirst '\x01' (avatarText (some url)) =
        some (String.ofList (ctcpTag.toList ++ ' ' :: url.toList ++ ['\x01'])) := by
      simp [stripFirst, avatarText, ctcpTag]
    have hlast : stripLast '\x01' (String.ofList (ctcpTag.toList ++ ' ' :: url.toList ++ ['\x01'])) =
        some (String.ofList (ctcpTag.toList ++ ' ' :: url.toList)) := by
      unfold stripLast
      rw [String.toList_ofList, List.getLast?_concat, if_pos rfl, List.dropLast_concat]
    have hsplit : splitOnce ' ' (String.ofList (ctcpTag.toList ++ ' ' :: url.toList)) =
        some (ctcpTag, url) := by
      simp [splitOnce, ctcpTag, List.span, List.span.loop]
    have htag : eqIgnoreAsciiCase ctcpTag ctcpTag = true := by decide +kernel
    unfold avatarCtcp
    rw [hfirst, Option.bind_some, hlast]
    simp only [Option.getD_some, hsplit, htag, if_true]

theorem replyUrl_empty (utf8 : Bool) : replyUrl "" utf8 = none := by
  cases utf8 <;> decide +kernel

theorem replyUrl_share {share : Option String} {utf8 : Bool}
    (h : ∀ url ∈ share, shareable url utf8 = true) :
    (avatarCtcp (avatarText share)).map (replyUrl · utf8) = some share := by
  rw [avatarCtcp_avatarText, Option.map_some]
  cases share with
  | none => exact congrArg some (replyUrl_empty utf8)
  | some url =>
    have hs := h url rfl
    simp only [shareable, Bool.and_eq_true, beq_iff_eq] at hs
    exact congrArg some hs.2.2

theorem toldBy_avatarText {share : Option String} {utf8 : Bool}
    (h : ∀ url ∈ share, shareable url utf8 = true) (nick key : String) :
    toldBy utf8 key (.notice nick (avatarText share)) =
      if nicknameKey nick = key then some share else none := by
  change (if nicknameKey nick = key then (avatarCtcp (avatarText share)).map (replyUrl · utf8)
    else none) = _
  rw [replyUrl_share h]

theorem lastTold_avatarText {share : Option String} {utf8 : Bool}
    (h : ∀ url ∈ share, shareable url utf8 = true) (nick key : String) :
    lastTold utf8 key [.notice nick (avatarText share)] =
      if nicknameKey nick = key then some share else none := by
  unfold lastTold
  rw [List.reverse_singleton, List.findSome?_singleton, toldBy_avatarText h]

theorem toldBy_command (utf8 : Bool) (key : String) (probe : Probe) :
    toldBy utf8 key probe.command = none := by
  unfold Probe.command
  split <;> rfl

theorem lastTold_append {utf8 : Bool} {key : String} {lines more : List IrcCommand}
    (h : ∀ line ∈ more, toldBy utf8 key line = none) :
    lastTold utf8 key (lines ++ more) = lastTold utf8 key lines := by
  unfold lastTold
  have hmore : more.reverse.findSome? (toldBy utf8 key) = none :=
    List.findSome?_eq_none_iff.mpr fun line hl => h line (List.mem_reverse.mp hl)
  rw [List.reverse_append, List.findSome?_append, hmore]
  rfl

namespace PeerAvatars

/-- What we share, whom we answered and whom we tell is the same. -/
structure SameAnswers (s s' : PeerAvatars) : Prop where
  utf8 : s'.utf8 = s.utf8
  share : s'.share = s.share
  replies : s'.replies = s.replies
  replied : s'.replied = s.replied
  askers : s'.askers = s.askers
  nextNotify : s'.nextNotify = s.nextNotify

variable {s s' s'' : PeerAvatars} {mask : CaseMapping → String → String → String → String}

namespace SameAnswers

theorem refl (s : PeerAvatars) : s.SameAnswers s := ⟨rfl, rfl, rfl, rfl, rfl, rfl⟩

theorem trans (h : s.SameAnswers s') (h' : s'.SameAnswers s'') : s.SameAnswers s'' :=
  ⟨h'.utf8.trans h.utf8, h'.share.trans h.share, h'.replies.trans h.replies,
    h'.replied.trans h.replied, h'.askers.trans h.askers, h'.nextNotify.trans h.nextNotify⟩

end SameAnswers

section Same

theorem enqueue_same (s : PeerAvatars) (kind : ProbeKind) (nick key : String) :
    s.SameAnswers (s.enqueue kind nick key).1 := by
  unfold enqueue
  split_ifs <;> exact ⟨rfl, rfl, rfl, rfl, rfl, rfl⟩

theorem askBack_same (s : PeerAvatars) (sender : String) (presence : PresenceIndex) :
    s.SameAnswers (s.askBack sender presence).1 := by
  unfold askBack
  dsimp only
  split_ifs
  · exact .refl s
  · exact .refl s
  · exact s.enqueue_same .query sender _

theorem track_same (s : PeerAvatars) (nickname : String) (change : Sources → Sources) :
    s.SameAnswers (s.track nickname change) := by
  unfold track
  dsimp only
  split_ifs <;> exact ⟨rfl, rfl, rfl, rfl, rfl, rfl⟩

theorem setPeer_same (s : PeerAvatars) (nickname : String) (url : Option String) :
    s.SameAnswers (s.setPeer nickname url).1 := by
  unfold setPeer
  dsimp only
  split_ifs
  · exact s.track_same nickname _
  · exact .refl s

theorem markSeen_same (s : PeerAvatars) (key : String) : s.SameAnswers (s.markSeen key) := by
  unfold markSeen
  split_ifs <;> exact ⟨rfl, rfl, rfl, rfl, rfl, rfl⟩

theorem markQueried_same (s : PeerAvatars) (key : String) : s.SameAnswers (s.markQueried key) := by
  unfold markQueried
  split_ifs <;> exact ⟨rfl, rfl, rfl, rfl, rfl, rfl⟩

theorem cachePicture_same (s : PeerAvatars) (nick : String) (identity : Option (String × String))
    (url : Option String) : s.SameAnswers (s.cachePicture mask nick identity url) := by
  unfold cachePicture
  split <;> exact ⟨rfl, rfl, rfl, rfl, rfl, rfl⟩

theorem realnameSeen_same (s : PeerAvatars) (nick real : String)
    (identity : Option (String × String)) (currentNick : String) (presence : PresenceIndex) :
    s.SameAnswers (s.realnameSeen mask nick real identity currentNick presence).1 := by
  unfold realnameSeen
  dsimp only
  split_ifs
  · exact .refl s
  · exact s.markSeen_same _
  · exact .trans (.trans (s.markSeen_same _) (cachePicture_same ..)) (setPeer_same _ nick none)
  · exact s.enqueue_same .query nick _
  · exact .refl s

theorem numericReply_same (s : PeerAvatars) (message : IrcMessage) (currentNick : String)
    (presence : PresenceIndex) (now : ℕ) :
    s.SameAnswers (s.numericReply mask message currentNick presence now).1 := by
  unfold numericReply
  split
  · exact .refl s
  · split
    · dsimp only
      split_ifs
      · exact .refl s
      · exact s.realnameSeen_same ..
    · split
      · exact .refl s
      · exact ⟨rfl, rfl, rfl, rfl, rfl, rfl⟩
    · exact s.realnameSeen_same ..
    · exact ⟨rfl, rfl, rfl, rfl, rfl, rfl⟩
    · split_ifs
      · exact ⟨rfl, rfl, rfl, rfl, rfl, rfl⟩
      · exact .refl s
    · exact .refl s

variable (mask) in
theorem observeAnswer_same (s : PeerAvatars) (message : IrcMessage) (sender params : String) :
    s.SameAnswers (s.observeAnswer mask message sender params).1 := by
  refine .trans (.trans (.trans ?_ (markQueried_same _ _)) (cachePicture_same ..))
    (setPeer_same _ sender _)
  exact ⟨rfl, rfl, rfl, rfl, rfl, rfl⟩

theorem remembered_same (s : PeerAvatars) (nick user host currentNick : String)
    (presence : Option PresenceIndex) :
    s.SameAnswers (s.remembered mask nick user host currentNick presence).1 := by
  unfold remembered
  dsimp only
  split_ifs
  · exact .refl s
  · exact .refl s
  · split
    · exact ⟨rfl, rfl, rfl, rfl, rfl, rfl⟩
    · dsimp only
      refine .trans (.trans ?_ (enqueue_same _ .query nick _)) (setPeer_same _ nick _)
      exact ⟨rfl, rfl, rfl, rfl, rfl, rfl⟩

theorem speaker_same (s : PeerAvatars) (nick currentNick : String) (presence : PresenceIndex) :
    s.SameAnswers (s.speaker nick currentNick presence).1 := by
  unfold speaker
  dsimp only
  split_ifs
  · exact .refl s
  · exact .refl s
  · exact .refl s
  · exact s.enqueue_same .who nick _

theorem request_same (s : PeerAvatars) (nick currentNick : String) (presence : PresenceIndex) :
    s.SameAnswers (s.request nick currentNick presence).1 := by
  unfold request
  dsimp only
  split_ifs
  · exact .refl s
  · exact .refl s
  · refine .trans ?_ (enqueue_same _ .query nick _)
    exact ⟨rfl, rfl, rfl, rfl, rfl, rfl⟩

theorem observeMetadata_same (s : PeerAvatars) (events : List Event) :
    s.SameAnswers (s.observeMetadata events) := by
  unfold observeMetadata
  induction events generalizing s with
  | nil => exact .refl s
  | cons event events ih =>
    refine .trans ?_ (ih _)
    unfold observeMetadataEvent
    cases event with
    | userAvatar nickname url => exact s.track_same nickname _
    | avatarsReset => exact ⟨rfl, rfl, rfl, rfl, rfl, rfl⟩
    | _ => exact .refl s

theorem sendProbe_same (s : PeerAvatars) (now : ℕ) (currentNick : String)
    (presence : PresenceIndex) : s.SameAnswers (s.sendProbe now currentNick presence).1 := by
  unfold sendProbe
  dsimp only
  split <;> exact ⟨rfl, rfl, rfl, rfl, rfl, rfl⟩

end Same

/-! ## What a call does to the askers -/

def Keyed (s : PeerAvatars) : Prop :=
  ∀ key asker, s.askers.lookup key = some asker → nicknameKey asker.nickname = key

def Sharing (s : PeerAvatars) : Prop := ∀ url ∈ s.share, shareable url s.utf8 = true

def recorded (s : PeerAvatars) (key : String) : Option String :=
  (s.askers.lookup key).bind Asker.known

theorem recorded_of_lookup {key : String} {asker : Asker}
    (h : s.askers.lookup key = some asker) : s.recorded key = asker.known := by
  unfold recorded
  rw [h]
  rfl

/-- The askers a call leaves stand under their keys, and know what its last notice told them, or what
they knew before under the key they had; a new one knows of nothing. -/
def Tells (s s' : PeerAvatars) (formerly : String → String) (sent : List IrcCommand) : Prop :=
  ∀ key asker, s'.askers.lookup key = some asker → nicknameKey asker.nickname = key ∧
    asker.known = (lastTold s.utf8 key sent).getD (s.recorded (formerly key))

theorem SameAnswers.tells (h : s.SameAnswers s') (hk : s.Keyed) : s.Tells s' id [] := by
  intro key asker ha
  rw [h.askers] at ha
  exact ⟨hk key asker ha, (recorded_of_lookup ha).symm⟩

theorem setShare_tells (hk : s.Keyed) (url : Option String) : s.Tells (s.setShare url) id [] := by
  intro key asker ha
  exact ⟨hk key asker ha, (recorded_of_lookup (s := s) ha).symm⟩

theorem rememberAsker_lookup (s : PeerAvatars) (sender : String) (presence : PresenceIndex)
    (key : String) : (s.rememberAsker sender presence).askers.lookup key = s.askers.lookup key ∨
      key = nicknameKey sender ∧ s.askers.lookup key = none ∧
        (s.rememberAsker sender presence).askers.lookup key = some { nickname := sender } := by
  unfold rememberAsker
  dsimp only
  split_ifs with h1 h2 h3
  · exact .inl rfl
  · exact .inl rfl
  · exact .inl rfl
  · by_cases hk : key = nicknameKey sender
    · subst hk
      rw [Option.not_isSome_iff_eq_none] at h3
      exact .inr ⟨rfl, h3, AList.lookup_insert _⟩
    · exact .inl (AList.lookup_insert_ne hk)

theorem rememberAsker_share (s : PeerAvatars) (sender : String) (presence : PresenceIndex) :
    (s.rememberAsker sender presence).share = s.share := by
  unfold rememberAsker
  dsimp only
  split_ifs <;> rfl

theorem mayReply_askers (s : PeerAvatars) (sender : String) (now : ℕ) :
    (s.mayReply sender now).1.askers = s.askers ∧ (s.mayReply sender now).1.share = s.share := by
  unfold mayReply
  dsimp only
  split_ifs <;> exact ⟨rfl, rfl⟩

theorem observeQuery_share (s : PeerAvatars) (sender : String) (presence : PresenceIndex)
    (now : ℕ) : (s.observeQuery sender presence now).1.utf8 = s.utf8 ∧
      (s.observeQuery sender presence now).1.share = s.share := by
  have hremember : (s.rememberAsker sender presence).utf8 = s.utf8 := by
    unfold rememberAsker
    dsimp only
    split_ifs <;> rfl
  have hback := (s.rememberAsker sender presence).askBack_same sender presence
  have hshare := hback.share.trans (s.rememberAsker_share sender presence)
  have hutf8 := hback.utf8.trans hremember
  have hreply : ∀ s : PeerAvatars, (s.mayReply sender now).1.utf8 = s.utf8 := by
    intro s
    unfold mayReply
    dsimp only
    split_ifs <;> rfl
  unfold observeQuery
  dsimp only
  split
  · exact ⟨hutf8, hshare⟩
  · obtain ⟨-, hsh⟩ := mayReply_askers
      ((s.rememberAsker sender presence).askBack sender presence).1 sender now
    split_ifs
    · exact ⟨(hreply _).trans hutf8, hsh.trans hshare⟩
    · exact ⟨(hreply _).trans hutf8, hsh.trans hshare⟩

theorem observeQuery_tells (hk : s.Keyed) (hs : s.Sharing) (sender : String)
    (presence : PresenceIndex) (now : ℕ) : s.Tells (s.observeQuery sender presence now).1 id
      (s.observeQuery sender presence now).2.send := by
  have hback := (s.rememberAsker sender presence).askBack_same sender presence
  have hremember := s.rememberAsker_lookup sender presence
  have hshare := hback.share.trans (s.rememberAsker_share sender presence)
  -- what is kept when nothing is told
  have hkept : ∀ key asker, (s.rememberAsker sender presence).askers.lookup key = some asker →
      nicknameKey asker.nickname = key ∧ asker.known = s.recorded key := by
    intro key asker ha
    unfold recorded
    rcases hremember key with h | ⟨rfl, hnone, h⟩
    · rw [h] at ha
      rw [ha]
      exact ⟨hk key asker ha, rfl⟩
    · rw [h] at ha
      rw [hnone, ← Option.some.inj ha]
      exact ⟨rfl, rfl⟩
  unfold observeQuery
  dsimp only
  rw [hshare]
  cases hurl : s.share with
  | none =>
    intro key asker ha
    rw [hback.askers] at ha
    exact hkept key asker ha
  | some url =>
    dsimp only
    obtain ⟨hask, hsh⟩ := mayReply_askers
      ((s.rememberAsker sender presence).askBack sender presence).1 sender now
    split_ifs with hmay
    · intro key asker ha
      dsimp only [markTold] at ha
      rw [hask, hsh, hshare, hback.askers, Map.lookup_adjust] at ha
      have hshared : ∀ u ∈ some url, shareable u s.utf8 = true := fun u hu => hs u (hurl ▸ hu)
      rw [lastTold_avatarText hshared]
      by_cases hkey : key = nicknameKey sender
      · rw [if_pos hkey] at ha
        obtain ⟨a, hasked, rfl⟩ := Option.map_eq_some_iff.mp ha
        rw [if_pos hkey.symm]
        dsimp only [Option.getD_some]
        exact ⟨(hkept key a hasked).1, hurl⟩
      · rw [if_neg hkey] at ha
        rw [if_neg (Ne.symm hkey)]
        exact hkept key asker ha
    · intro key asker ha
      dsimp only at ha
      rw [hask, hback.askers] at ha
      exact hkept key asker ha

theorem numericReply_send (s : PeerAvatars) (message : IrcMessage) (currentNick : String)
    (presence : PresenceIndex) (now : ℕ) :
    ((s.numericReply mask message currentNick presence now).2.getD {}).send = [] := by
  unfold numericReply
  split
  · rfl
  · split
    · rename_i nick _ _ _ _
      dsimp only
      cases s.ours .who nick <;> rfl
    · split <;> rfl
    · rfl
    · dsimp only
      split_ifs <;> rfl
    · split_ifs <;> rfl
    · rfl

variable (mask) in
theorem observeAnswer_send (s : PeerAvatars) (message : IrcMessage) (sender params : String) :
    (s.observeAnswer mask message sender params).2.send = [] := rfl

/-- The sender of a live private query of another user. -/
def querier (message : IrcMessage) (currentNick : String) (replayed : Bool) : Option String :=
  match message.command with
  | .privmsg target text =>
    if (avatarCtcp text).isSome && !replayed && sameNickname target currentNick then
      message.sourceNickname.filter (!sameNickname · currentNick)
    else none
  | _ => none

theorem observe_querier {message : IrcMessage} {currentNick sender : String}
    {presence : PresenceIndex} {replayed : Bool} {now : ℕ}
    (h : querier message currentNick replayed = some sender) :
    s.observe mask message currentNick presence replayed now =
      ((s.observeQuery sender presence now).1, some (s.observeQuery sender presence now).2) := by
  unfold querier at h
  split at h
  · rename_i target text hc
    split_ifs at h with hq
    simp only [Bool.and_eq_true, Bool.not_eq_true'] at hq
    obtain ⟨hsender, hother⟩ := Option.filter_eq_some_iff.mp h
    obtain ⟨params, hp⟩ := Option.isSome_iff_exists.mp hq.1.1
    unfold observe
    rw [hc]
    dsimp only
    rw [hp, hsender]
    dsimp only
    rw [if_pos]
    rw [hq.1.2, hq.2, hother]
    rfl
  · cases h

variable (s mask) in
theorem observe_of_not_querier {message : IrcMessage} {currentNick : String}
    (presence : PresenceIndex) {replayed : Bool} (now : ℕ)
    (h : querier message currentNick replayed = none) :
    s.SameAnswers (s.observe mask message currentNick presence replayed now).1 ∧
      ((s.observe mask message currentNick presence replayed now).2.getD {}).send = [] := by
  unfold observe
  split
  · rename_i target text hc
    split
    · exact ⟨.refl s, rfl⟩
    · rename_i params hp
      split
      · exact ⟨.refl s, rfl⟩
      · rename_i sender hs
        split_ifs with hq
        · unfold querier at h
          rw [hc] at h
          simp only [Bool.and_eq_true, Bool.not_eq_true'] at hq
          simp [hp, hs, hq] at h
        · exact ⟨.refl s, rfl⟩
  · split
    · exact ⟨.refl s, rfl⟩
    · split
      · exact ⟨.refl s, rfl⟩
      · rename_i params _ _ sender _
        have hanswer := s.observeAnswer_same mask message sender params
        have hsend := s.observeAnswer_send mask message sender params
        dsimp only
        generalize s.observeAnswer mask message sender params = answered at hanswer hsend ⊢
        obtain ⟨answered, handled⟩ := answered
        split_ifs
        · exact ⟨hanswer, hsend⟩
        · exact ⟨.refl s, rfl⟩
        · exact ⟨hanswer, hsend⟩
        · exact ⟨.refl s, rfl⟩
  · exact ⟨s.numericReply_same .., s.numericReply_send ..⟩

theorem observe_tells (hk : s.Keyed) (hs : s.Sharing) (message : IrcMessage) (currentNick : String)
    (presence : PresenceIndex) (replayed : Bool) (now : ℕ) :
    s.Tells (s.observe mask message currentNick presence replayed now).1 id
      ((s.observe mask message currentNick presence replayed now).2.getD {}).send := by
  cases hq : querier message currentNick replayed with
  | none =>
    have h := s.observe_of_not_querier mask presence now hq
    rw [h.2]
    exact h.1.tells hk
  | some sender =>
    rw [observe_querier hq]
    exact observeQuery_tells hk hs sender presence now

/-! ## The notices of a change -/

/-- Askers are dropped, but only such as were to be told. -/
structure Drops (s s' : PeerAvatars) : Prop where
  rest : s' = { s with askers := s'.askers }
  kept : ∀ key, s'.askers.lookup key = s.askers.lookup key ∨
    s'.askers.lookup key = none ∧ s.pending key = true

theorem Drops.refl (s : PeerAvatars) : s.Drops s := ⟨rfl, fun _ => .inl rfl⟩

theorem Drops.lookup (h : s.Drops s') {key : String} {asker : Asker}
    (ha : s'.askers.lookup key = some asker) : s.askers.lookup key = some asker := by
  rcases h.kept key with hl | ⟨hl, -⟩
  · rw [← hl, ha]
  · rw [hl] at ha
    cases ha

theorem Drops.share (h : s.Drops s') : s'.share = s.share := by
  rw [h.rest]

theorem Drops.utf8 (h : s.Drops s') : s'.utf8 = s.utf8 := by
  rw [h.rest]

theorem Drops.pending (h : s.Drops s') {key : String} (hp : s'.pending key = true) :
    s.pending key = true := by
  unfold PeerAvatars.pending at hp ⊢
  rw [h.share] at hp
  rcases h.kept key with hl | ⟨hl, -⟩
  · rwa [hl] at hp
  · rw [hl] at hp
    cases hp

theorem Drops.erase {key : String} (hp : s.pending key = true)
    (h : Drops { s with askers := s.askers.erase key } s') : s.Drops s' := by
  refine ⟨h.rest, fun other => ?_⟩
  rcases h.kept other with hl | ⟨hl, hpo⟩
  · rw [Map.lookup_erase] at hl
    split_ifs at hl with hkey
    · exact .inr ⟨hl, hkey ▸ hp⟩
    · exact .inl hl
  · refine .inr ⟨hl, ?_⟩
    unfold PeerAvatars.pending at hpo ⊢
    rw [Map.lookup_erase] at hpo
    split_ifs at hpo with hkey
    · cases hpo
    · exact hpo

/-- What becomes of the askers when the next one may be told. -/
inductive Notified (now : ℕ) (presence : PresenceIndex) (s : PeerAvatars) :
    PeerAvatars × Option IrcCommand → Prop
  /-- Nobody is left to be told. -/
  | quiet {s' : PeerAvatars} (drops : s.Drops s') (told : ∀ key, s'.pending key = false) :
    Notified now presence s (s', none)
  /-- One asker who shares a channel is told. -/
  | notice {s' : PeerAvatars} {key : String} {asker : Asker} (drops : s.Drops s')
    (found : s'.askers.lookup key = some asker) (pending : s'.pending key = true)
    (shared : presence.shares asker.nickname none = true) :
    Notified now presence s
      ({ s' with
          askers := s'.askers.insert key { asker with known := s'.share }
          nextNotify := some (now + notifyInterval) },
        some (.notice asker.nickname (avatarText s'.share)))

theorem Notified.erase {now : ℕ} {presence : PresenceIndex} {key : String}
    {r : PeerAvatars × Option IrcCommand} (hp : s.pending key = true)
    (h : Notified now presence { s with askers := s.askers.erase key } r) :
    Notified now presence s r := by
  cases h with
  | quiet drops told => exact .quiet (drops.erase hp) told
  | notice drops found pending shared => exact .notice (drops.erase hp) found pending shared

theorem notifyNext_notified {order : KeyOrder} {now : ℕ} {currentNick : String}
    {presence : PresenceIndex} {rounds : ℕ} (h : s.askers.entries.length < rounds) :
    Notified now presence s (notifyNext order now currentNick presence rounds s) := by
  induction rounds generalizing s with
  | zero => exact absurd h (Nat.not_lt_zero _)
  | succ rounds ih =>
    unfold notifyNext
    split
    · rename_i hnone
      refine .quiet (.refl s) fun key => ?_
      by_contra hp
      rw [Bool.not_eq_false] at hp
      have hmem : key ∈ order.keys s.askers.keys := by
        rw [(order.perm _).mem_iff]
        apply AList.mem_keys.mp
        apply AList.lookup_isSome.mp
        unfold pending at hp
        cases hl : s.askers.lookup key with
        | none =>
          rw [hl] at hp
          cases hp
        | some asker => rfl
      exact absurd hp (List.find?_eq_none.mp hnone key hmem)
    · rename_i key hfound
      have hp : s.pending key = true := List.find?_some hfound
      split
      · rename_i hl
        unfold pending at hp
        rw [hl] at hp
        cases hp
      · rename_i asker hl
        split_ifs with hdrop
        · apply Notified.erase hp
          apply ih
          have := Map.length_erase_of_lookup hl
          dsimp only
          omega
        · simp only [Bool.or_eq_true, Bool.not_eq_true', not_or, Bool.not_eq_false] at hdrop
          exact .notice (.refl s) hl hp hdrop.2

theorem notify_cases (s : PeerAvatars) (order : KeyOrder) (now : ℕ) (currentNick : String)
    (presence : PresenceIndex) :
    (∃ due ∈ s.nextNotify, now < due) ∧ s.notify order now currentNick presence = (s, none) ∨
      Notified now presence s (s.notify order now currentNick presence) := by
  unfold notify
  split_ifs with h
  · rw [Option.any_eq_true] at h
    obtain ⟨due, hdue, hlt⟩ := h
    exact .inl ⟨⟨due, hdue, of_decide_eq_true hlt⟩, rfl⟩
  · exact .inr (notifyNext_notified (Nat.lt_succ_self _))

theorem Notified.tells {now : ℕ} {presence : PresenceIndex} {r : PeerAvatars × Option IrcCommand}
    (h : Notified now presence s r) (hk : s.Keyed) (hs : s.Sharing) :
    s.Tells r.1 id r.2.toList := by
  cases h with
  | quiet drops told =>
    intro key asker ha
    have hl := drops.lookup ha
    exact ⟨hk key asker hl, (recorded_of_lookup hl).symm⟩
  | @notice s' told asked drops found pending shared =>
    intro key asker ha
    have hl := drops.lookup found
    dsimp only at ha
    rw [Map.lookup_insert, drops.share] at ha
    have hsent : lastTold s.utf8 key [.notice asked.nickname (avatarText s'.share)] =
        if told = key then some s.share else none := by
      rw [drops.share, lastTold_avatarText hs, hk told asked hl]
    dsimp only [Option.toList_some]
    rw [hsent]
    split_ifs at ha with hkey
    · obtain rfl := hkey
      cases ha
      rw [if_pos rfl]
      exact ⟨hk key asked hl, rfl⟩
    · rw [if_neg (Ne.symm hkey)]
      have hl := drops.lookup ha
      exact ⟨hk key asker hl, (recorded_of_lookup hl).symm⟩

theorem notify_tells (hk : s.Keyed) (hs : s.Sharing) (order : KeyOrder) (now : ℕ)
    (currentNick : String) (presence : PresenceIndex) :
    s.Tells (s.notify order now currentNick presence).1 id
      (s.notify order now currentNick presence).2.toList := by
  rcases s.notify_cases order now currentNick presence with ⟨-, h⟩ | h
  · rw [h]
    exact (SameAnswers.refl s).tells hk
  · exact h.tells hk hs

theorem sendProbe_command {now : ℕ} {currentNick : String} {presence : PresenceIndex}
    {line : IrcCommand} (h : line ∈ (s.sendProbe now currentNick presence).2) :
    ∃ probe : Probe, line = probe.command := by
  unfold sendProbe at h
  dsimp only at h
  split at h
  · cases h
  · exact ⟨_, List.mem_singleton.mp h⟩

theorem tick_same (s : PeerAvatars) (order : KeyOrder) (now : ℕ) (currentNick : String)
    (presence : PresenceIndex) :
    (s.notify order now currentNick presence).1.SameAnswers
        (s.tick order now currentNick presence).1 ∧
      ∃ sent, (s.tick order now currentNick presence).2.send =
          (s.notify order now currentNick presence).2.toList ++ sent ∧
        ∀ line ∈ sent, ∃ probe : Probe, line = probe.command := by
  unfold tick
  dsimp only
  split_ifs
  · exact ⟨⟨rfl, rfl, rfl, rfl, rfl, rfl⟩, [], (List.append_nil _).symm,
      fun line h => (List.not_mem_nil h).elim⟩
  · refine ⟨.trans ?_ (sendProbe_same ..), _, rfl, fun line h => sendProbe_command h⟩
    exact ⟨rfl, rfl, rfl, rfl, rfl, rfl⟩

theorem tick_notice {order : KeyOrder} {now : ℕ} {currentNick nick text : String}
    {presence : PresenceIndex}
    (h : .notice nick text ∈ (s.tick order now currentNick presence).2.send) :
    presence.shares nick none = true := by
  obtain ⟨-, sent, hsent, hprobes⟩ := s.tick_same order now currentNick presence
  rw [hsent, List.mem_append] at h
  rcases h with h | h
  · rcases s.notify_cases order now currentNick presence with ⟨-, hr⟩ | hr
    · rw [hr] at h
      cases h
    · generalize s.notify order now currentNick presence = r at h hr
      cases hr with
      | quiet drops told => cases h
      | notice drops found pending shared =>
        cases List.mem_singleton.mp h
        exact shared
  · obtain ⟨probe, hp⟩ := hprobes _ h
    unfold Probe.command at hp
    split at hp <;> cases hp

theorem tick_tells (hk : s.Keyed) (hs : s.Sharing) (order : KeyOrder) (now : ℕ)
    (currentNick : String) (presence : PresenceIndex) :
    s.Tells (s.tick order now currentNick presence).1 id
      (s.tick order now currentNick presence).2.send := by
  obtain ⟨hsame, sent, hsent, hnone⟩ := s.tick_same order now currentNick presence
  intro key asker ha
  rw [hsame.askers] at ha
  have hnothing : ∀ line ∈ sent, toldBy s.utf8 key line = none := by
    intro line hline
    obtain ⟨probe, rfl⟩ := hnone line hline
    exact toldBy_command ..
  rw [hsent, lastTold_append hnothing]
  exact notify_tells hk hs order now currentNick presence key asker ha

/-! ## Users who leave or take another nickname -/

theorem forget_lookup (s : PeerAvatars) (nick key : String) :
    (s.forget nick).askers.lookup key =
      if key = nicknameKey nick then none else s.askers.lookup key := Map.lookup_erase

theorem foldl_forget_lookup (s : PeerAvatars) (gone : List String) (key : String) :
    (gone.foldl forget s).askers.lookup key =
      if key ∈ gone.map nicknameKey then none else s.askers.lookup key := by
  induction gone generalizing s with
  | nil => rfl
  | cons nick gone ih =>
    rw [List.foldl_cons, ih, forget_lookup]
    by_cases hkey : key = nicknameKey nick <;> by_cases hgone : key ∈ gone.map nicknameKey <;>
      simp [hkey, hgone]

theorem foldl_forget_share (s : PeerAvatars) (gone : List String) :
    (gone.foldl forget s).utf8 = s.utf8 ∧ (gone.foldl forget s).share = s.share := by
  induction gone generalizing s with
  | nil => exact ⟨rfl, rfl⟩
  | cons nick gone ih => exact ih (s.forget nick)

theorem carryPicture_same (s : PeerAvatars) (fromKey toKey new : String)
    (identity : Option (String × String)) :
    s.SameAnswers (s.carryPicture mask fromKey toKey new identity).1 := by
  unfold carryPicture
  split
  · exact .refl s
  · dsimp only
    split
    · exact ⟨rfl, rfl, rfl, rfl, rfl, rfl⟩
    · refine .trans ?_ (cachePicture_same ..)
      exact ⟨rfl, rfl, rfl, rfl, rfl, rfl⟩

theorem carry_lookup {fromKey toKey new : String}
    (hnone : s.askers.lookup toKey = none) (key : String) :
    (s.carry fromKey toKey new).askers.lookup key =
      if key = toKey then
        (s.askers.lookup fromKey).bind fun asker =>
          if validSender new then some { asker with nickname := new } else none
      else if key = fromKey then none else s.askers.lookup key := by
  unfold carry
  dsimp only
  cases hl : s.askers.lookup fromKey with
  | none =>
    dsimp only [Option.bind_none]
    split_ifs with h1 h2
    · rw [h1, hnone]
    · rw [h2, hl]
    · rfl
  | some asker =>
    dsimp only [Option.bind_some]
    by_cases hv : validSender new = true
    · rw [if_pos hv, if_pos hv, Map.lookup_insert, Map.lookup_erase]
    · rw [if_neg hv, if_neg hv, Map.lookup_erase]
      by_cases h1 : key = toKey
      · rw [if_pos h1, h1, hnone, ite_self]
      · rw [if_neg h1]

def carriedFrom (actor new key : String) : String :=
  if key = nicknameKey new then nicknameKey actor else key

theorem respell_tells (hk : s.Keyed) {actor new : String}
    (h : nicknameKey actor = nicknameKey new) :
    s.Tells (s.respell (nicknameKey actor) new) (carriedFrom actor new) [] := by
  intro key asker ha
  have hfrom : carriedFrom actor new key = key := by
    unfold carriedFrom
    rw [h]
    exact ite_eq_right_iff.mpr Eq.symm
  rw [hfrom]
  dsimp only [respell] at ha
  rw [Map.lookup_adjust] at ha
  split_ifs at ha with hkey
  · obtain ⟨asked, hl, rfl⟩ := Option.map_eq_some_iff.mp ha
    exact ⟨(hkey.trans h).symm, (recorded_of_lookup hl).symm⟩
  · exact ⟨hk key asker ha, (recorded_of_lookup ha).symm⟩

theorem rename_tells (hk : s.Keyed) (actor new : String) (identity : Option (String × String)) :
    s.Tells (s.rename mask actor new identity).1 (carriedFrom actor new) [] := by
  unfold rename
  dsimp only
  split_ifs with hkeys
  · exact respell_tells hk hkeys
  · intro key asker ha
    rw [(carryPicture_same ..).askers, carry_lookup (by rw [forget_lookup, if_pos rfl]),
      forget_lookup, forget_lookup, if_neg hkeys] at ha
    change _ ∧ asker.known = s.recorded (carriedFrom actor new key)
    unfold carriedFrom
    by_cases hnew : key = nicknameKey new
    · rw [if_pos hnew] at ha ⊢
      obtain ⟨asked, hl, ha⟩ := Option.bind_eq_some_iff.mp ha
      split_ifs at ha with hv
      cases ha
      exact ⟨hnew.symm, (recorded_of_lookup hl).symm⟩
    · rw [if_neg hnew] at ha ⊢
      split_ifs at ha with hold
      exact ⟨hk key asker ha, (recorded_of_lookup ha).symm⟩

theorem rename_share (s : PeerAvatars) (actor new : String) (identity : Option (String × String)) :
    (s.rename mask actor new identity).1.utf8 = s.utf8 ∧
      (s.rename mask actor new identity).1.share = s.share := by
  unfold rename
  dsimp only
  split_ifs
  · exact ⟨rfl, rfl⟩
  · exact ⟨(carryPicture_same ..).utf8, (carryPicture_same ..).share⟩

end PeerAvatars

open PeerAvatars

def PeerCall.formerly : PeerCall → String → String
  | .lifecycle message _ _, key =>
    match message.sourceNickname, message.command with
    | some actor, .nick new => carriedFrom actor new key
    | _, _ => key
  | _, key => key

namespace PeerAvatars

variable {s s' : PeerAvatars} {mask : CaseMapping → String → String → String → String}

variable (mask) in
theorem lifecycle_cases (s : PeerAvatars) (message : IrcMessage) (presence : PresenceIndex)
    (currentNick : String) :
    (∃ actor new, message.sourceNickname = some actor ∧ message.command = .nick new ∧
      s.lifecycle mask message presence currentNick =
        s.rename mask actor new (prefixIdentity message)) ∨
    ∃ gone, (s.lifecycle mask message presence currentNick).1 = gone.foldl forget s ∧
      (∀ key, (PeerCall.lifecycle message presence currentNick).formerly key = key) ∧
      ∀ actor, message.sourceNickname = some actor →
        gone = presence.departed message actor (sameNickname · currentNick) := by
  unfold lifecycle
  cases hactor : message.sourceNickname with
  | none =>
    refine .inr ⟨[], rfl, fun key => ?_, fun actor h => by cases h⟩
    unfold PeerCall.formerly
    dsimp only
    rw [hactor]
  | some actor =>
    dsimp only
    cases hc : message.command with
    | nick new => exact .inl ⟨actor, new, rfl, rfl, rfl⟩
    | _ =>
      refine .inr ⟨_, rfl, fun key => ?_, fun _ h => by cases h; rfl⟩
      unfold PeerCall.formerly
      dsimp only
      rw [hactor, hc]

theorem lifecycle_tells (hk : s.Keyed) (message : IrcMessage) (presence : PresenceIndex)
    (currentNick : String) : s.Tells (s.lifecycle mask message presence currentNick).1
      (PeerCall.lifecycle message presence currentNick).formerly [] := by
  rcases s.lifecycle_cases mask message presence currentNick with
    ⟨actor, new, hs, hc, h⟩ | ⟨gone, h, hkey, -⟩
  · have hkey : (PeerCall.lifecycle message presence currentNick).formerly =
        carriedFrom actor new := by
      funext key
      unfold PeerCall.formerly
      dsimp only
      rw [hs, hc]
    rw [h, hkey]
    exact rename_tells hk actor new _
  · rw [h]
    intro key asker ha
    rw [foldl_forget_lookup] at ha
    split_ifs at ha
    rw [hkey]
    exact ⟨hk key asker ha, (recorded_of_lookup ha).symm⟩

variable (mask) in
theorem lifecycle_share (s : PeerAvatars) (message : IrcMessage) (presence : PresenceIndex)
    (currentNick : String) : (s.lifecycle mask message presence currentNick).1.utf8 = s.utf8 ∧
      (s.lifecycle mask message presence currentNick).1.share = s.share := by
  rcases s.lifecycle_cases mask message presence currentNick with
    ⟨actor, new, -, -, h⟩ | ⟨gone, h, -⟩
  · rw [h]
    exact rename_share ..
  · rw [h]
    exact foldl_forget_share ..

theorem rememberedWho_same (s : PeerAvatars) (message : IrcMessage) (currentNick : String)
    (presence : PresenceIndex) :
    s.SameAnswers (s.rememberedWho mask message currentNick presence).1 := by
  unfold rememberedWho
  split
  · exact s.remembered_same ..
  · exact .refl s

theorem joined_same (s : PeerAvatars) (message : IrcMessage) (currentNick : String) :
    s.SameAnswers (s.joined mask message currentNick).1 := by
  unfold joined
  split
  · split
    · exact s.remembered_same ..
    · exact .refl s
  · exact .refl s

theorem call_tells (hk : s.Keyed) (hs : s.Sharing) (now : ℕ) (c : PeerCall) :
    s.Tells (s.call mask now c).1 c.formerly (s.call mask now c).2.send := by
  cases c with
  | elapse ms => exact (SameAnswers.refl s).tells hk
  | setCasemapping casemapping =>
    have h : s.SameAnswers { s with casemapping } := ⟨rfl, rfl, rfl, rfl, rfl, rfl⟩
    exact h.tells hk
  | setShare url => exact setShare_tells hk url
  | observe message currentNick presence replayed =>
    exact observe_tells hk hs message currentNick presence replayed now
  | rememberedWho message currentNick presence => exact (s.rememberedWho_same ..).tells hk
  | remembered nick user host currentNick presence => exact (s.remembered_same ..).tells hk
  | joined message currentNick => exact (s.joined_same ..).tells hk
  | speaker nick currentNick presence => exact (s.speaker_same ..).tells hk
  | request nick currentNick presence => exact (s.request_same ..).tells hk
  | lifecycle message presence currentNick =>
    exact lifecycle_tells hk message presence currentNick
  | observeMetadata events => exact (s.observeMetadata_same events).tells hk
  | tick currentNick presence order => exact tick_tells hk hs order now currentNick presence

variable (mask) in
theorem observe_share (s : PeerAvatars) (message : IrcMessage) (currentNick : String)
    (presence : PresenceIndex) (replayed : Bool) (now : ℕ) :
    (s.observe mask message currentNick presence replayed now).1.utf8 = s.utf8 ∧
      (s.observe mask message currentNick presence replayed now).1.share = s.share := by
  cases hq : querier message currentNick replayed with
  | none =>
    have h := s.observe_of_not_querier mask presence now hq
    exact ⟨h.1.utf8, h.1.share⟩
  | some sender =>
    rw [observe_querier hq]
    exact s.observeQuery_share ..

theorem tick_share (s : PeerAvatars) (order : KeyOrder) (now : ℕ) (currentNick : String)
    (presence : PresenceIndex) : (s.tick order now currentNick presence).1.utf8 = s.utf8 ∧
      (s.tick order now currentNick presence).1.share = s.share := by
  obtain ⟨hsame, -⟩ := s.tick_same order now currentNick presence
  rw [hsame.utf8, hsame.share]
  rcases s.notify_cases order now currentNick presence with ⟨-, h⟩ | h
  · rw [h]
    exact ⟨rfl, rfl⟩
  · generalize s.notify order now currentNick presence = r at h
    cases h with
    | quiet drops told => exact ⟨drops.utf8, drops.share⟩
    | notice drops found pending shared => exact ⟨drops.utf8, drops.share⟩

theorem Sharing.congr (h : s.Sharing) (hutf8 : s'.utf8 = s.utf8) (hshare : s'.share = s.share) :
    s'.Sharing := by
  unfold Sharing
  rw [hutf8, hshare]
  exact h

theorem Sharing.same (h : s.Sharing) (hs : s.SameAnswers s') : s'.Sharing :=
  h.congr hs.utf8 hs.share

theorem call_sharing (h : s.Sharing) (now : ℕ) (c : PeerCall) :
    (s.call mask now c).1.Sharing := by
  cases c with
  | elapse ms => exact h
  | setCasemapping casemapping => exact h
  | setShare url => exact fun shared hs => (Option.filter_eq_some_iff.mp hs).2
  | observe message currentNick presence replayed =>
    have ho := s.observe_share mask message currentNick presence replayed now
    exact h.congr ho.1 ho.2
  | rememberedWho message currentNick presence => exact h.same (s.rememberedWho_same ..)
  | remembered nick user host currentNick presence => exact h.same (s.remembered_same ..)
  | joined message currentNick => exact h.same (s.joined_same ..)
  | speaker nick currentNick presence => exact h.same (s.speaker_same ..)
  | request nick currentNick presence => exact h.same (s.request_same ..)
  | lifecycle message presence currentNick =>
    have hl := s.lifecycle_share mask message presence currentNick
    exact h.congr hl.1 hl.2
  | observeMetadata events => exact h.same (s.observeMetadata_same events)
  | tick currentNick presence order =>
    have ht := s.tick_share order now currentNick presence
    exact h.congr ht.1 ht.2

end PeerAvatars

end CayenChat.Avatars
