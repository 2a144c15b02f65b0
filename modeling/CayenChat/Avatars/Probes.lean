import CayenChat.Avatars.Askers

/-! # How often a user is queried

Lookups and queries wait in a bounded queue. A user is queried once more at
most, besides what waits already, until they leave.
-/

namespace CayenChat.Avatars.PeerAvatars

/-- The lookups and queries are within their limits, and those that wait are sent to the users they
are about. -/
structure Bounded (s : PeerAvatars) : Prop where
  queue : s.queue.length ≤ maxQueuedProbes
  inFlight : s.inFlight.length ≤ maxProbesInFlight
  stages : s.stages.entries.length ≤ maxProbedUsers
  keyed : ∀ probe ∈ s.queue, nicknameKey probe.nickname = probe.key

def queries (key : String) (probe : Probe) : Bool := probe.kind = .query && probe.key = key

/-- The queries that a user may still get: those that wait, and one more while the user was not
queried. -/
def openQueries (s : PeerAvatars) (key : String) : ℕ :=
  (if s.stages.lookup key = some .queried then 0 else 1) + s.queue.countP (queries key)

/-- What keeps the limits, and leaves nobody more queries to get. -/
structure Calm (s s' : PeerAvatars) : Prop where
  bounded : s.Bounded → s'.Bounded
  queries : ∀ key, s'.openQueries key ≤ s.openQueries key

variable {s s' s'' : PeerAvatars} {mask : CaseMapping → String → String → String → String}

namespace Calm

theorem refl (s : PeerAvatars) : s.Calm s := ⟨id, fun _ => le_rfl⟩

theorem trans (h : s.Calm s') (h' : s'.Calm s'') : s.Calm s'' :=
  ⟨fun hb => h'.bounded (h.bounded hb), fun key => (h'.queries key).trans (h.queries key)⟩

theorem of_inFlight (hstages : s'.stages = s.stages) (hqueue : s'.queue = s.queue)
    (h : s'.inFlight.length ≤ s.inFlight.length) : s.Calm s' where
  bounded hb := ⟨hqueue ▸ hb.queue, h.trans hb.inFlight, hstages ▸ hb.stages, hqueue ▸ hb.keyed⟩
  queries key := by
    unfold openQueries
    rw [hstages, hqueue]

theorem of_same (hstages : s'.stages = s.stages) (hqueue : s'.queue = s.queue)
    (h : s'.inFlight = s.inFlight) : s.Calm s' :=
  of_inFlight hstages hqueue (h ▸ le_rfl)

end Calm

section Queue

theorem countP_filter_le {α : Type*} (p q : α → Bool) (l : List α) :
    (l.filter q).countP p ≤ l.countP p := List.Sublist.countP_le List.filter_sublist

theorem enqueue_bounded (hb : s.Bounded) {kind : ProbeKind} {nick key : String}
    (hkey : nicknameKey nick = key) : (s.enqueue kind nick key).1.Bounded := by
  unfold enqueue
  split_ifs with hroom hfull
  · exact hb
  · exact ⟨hb.queue, hb.inFlight, hb.stages, hb.keyed⟩
  · exact ⟨hb.queue, hb.inFlight, hb.stages, hb.keyed⟩
  · refine ⟨?_, hb.inFlight, ?_, ?_⟩
    · have := List.length_filter_le (fun probe => decide (probe.key ≠ key)) s.queue
      dsimp only
      rw [List.length_append, List.length_singleton]
      omega
    · dsimp only
      cases hl : s.stages.lookup key with
      | none =>
        rw [hl] at hroom
        simp only [Option.isNone_none, Bool.true_and, decide_eq_true_eq] at hroom
        refine Map.length_insert_le.trans ?_
        omega
      | some stage =>
        rw [Map.length_insert_of_lookup hl]
        exact hb.stages
    · intro probe hp
      dsimp only at hp
      rcases List.mem_append.mp hp with hp | hp
      · exact hb.keyed probe (List.mem_filter.mp hp).1
      · rw [List.mem_singleton.mp hp]
        exact hkey

theorem enqueue_other (s : PeerAvatars) (kind : ProbeKind) (nick : String) {key other : String}
    (h : other ≠ key) : (s.enqueue kind nick key).1.openQueries other ≤ s.openQueries other := by
  unfold enqueue
  split_ifs
  · exact le_rfl
  · exact le_rfl
  · exact le_rfl
  · unfold openQueries
    dsimp only
    rw [Map.lookup_insert, if_neg h, List.countP_append]
    have hnew : [({ kind, nickname := nick, key } : Probe)].countP (queries other) = 0 := by
      simp [queries, h.symm]
    have := countP_filter_le (queries other) (fun probe => probe.key ≠ key) s.queue
    omega

theorem enqueue_key (s : PeerAvatars) (kind : ProbeKind) (nick key : String) :
    (s.enqueue kind nick key).1.openQueries key ≤ max 1 (s.openQueries key) := by
  unfold enqueue
  split_ifs
  · exact le_max_right ..
  · exact le_max_right ..
  · exact le_max_right ..
  · refine le_trans ?_ (le_max_left ..)
    unfold openQueries
    dsimp only
    rw [Map.lookup_insert, if_pos rfl, List.countP_append]
    have hnone : (s.queue.filter fun probe => probe.key ≠ key).countP (queries key) = 0 := by
      rw [List.countP_eq_zero]
      intro probe hp
      have := (List.mem_filter.mp hp).2
      simp_all [queries]
    rw [hnone, zero_add]
    cases kind <;> simp [queries]

theorem enqueue_calm {kind : ProbeKind} {nick key : String} (hkey : nicknameKey nick = key)
    (h : s.stages.lookup key ≠ some .queried) : s.Calm (s.enqueue kind nick key).1 where
  bounded hb := enqueue_bounded hb hkey
  queries other := by
    by_cases ho : other = key
    · have hopen : 1 ≤ s.openQueries key := by
        unfold openQueries
        rw [if_neg h]
        exact Nat.le_add_right ..
      rw [ho]
      exact (s.enqueue_key kind nick key).trans (max_le hopen le_rfl)
    · exact s.enqueue_other kind nick ho

theorem Calm.of_stage {key : String} {stage : ProbeStage}
    (hroom : (s.stages.lookup key).isSome ∨ s.stages.entries.length < maxProbedUsers)
    (h : s.stages.lookup key = some .queried → stage = .queried) :
    s.Calm { s with stages := s.stages.insert key stage } where
  bounded hb := by
    refine ⟨hb.queue, hb.inFlight, ?_, hb.keyed⟩
    dsimp only
    cases hl : s.stages.lookup key with
    | none =>
      rw [hl] at hroom
      exact Map.length_insert_le.trans (hroom.resolve_left Bool.false_ne_true)
    | some old =>
      rw [Map.length_insert_of_lookup hl]
      exact hb.stages
  queries other := by
    unfold openQueries
    dsimp only
    rw [Map.lookup_insert]
    by_cases ho : other = key
    · subst ho
      rw [if_pos rfl]
      by_cases hq : s.stages.lookup other = some .queried
      · rw [h hq, if_pos rfl, if_pos hq]
      · rw [if_neg hq]
        split_ifs <;> omega
    · rw [if_neg ho]

theorem markSeen_calm (s : PeerAvatars) (key : String) : s.Calm (s.markSeen key) := by
  unfold markSeen
  split_ifs with h
  · simp only [Bool.and_eq_true, Option.isNone_iff_eq_none, decide_eq_true_eq] at h
    apply Calm.of_stage (.inr h.2)
    rw [h.1]
    exact fun h => by cases h
  · exact .refl s

theorem markQueried_calm (s : PeerAvatars) (key : String) : s.Calm (s.markQueried key) := by
  unfold markQueried
  split_ifs with h
  · simp only [Bool.or_eq_true, decide_eq_true_eq] at h
    exact Calm.of_stage h fun _ => rfl
  · exact .refl s

end Queue

section Lines

theorem askBack_calm (s : PeerAvatars) (sender : String) (presence : PresenceIndex) :
    s.Calm (s.askBack sender presence).1 := by
  unfold askBack
  dsimp only
  split_ifs with h1 h2
  · exact .refl s
  · exact .refl s
  · simp only [Bool.or_eq_true, decide_eq_true_eq, not_or] at h2
    exact enqueue_calm rfl h2.2

theorem track_calm (s : PeerAvatars) (nickname : String) (change : Sources → Sources) :
    s.Calm (s.track nickname change) := by
  unfold track
  dsimp only
  split_ifs <;> exact .of_same rfl rfl rfl

theorem setPeer_calm (s : PeerAvatars) (nickname : String) (url : Option String) :
    s.Calm (s.setPeer nickname url).1 := by
  unfold setPeer
  dsimp only
  split_ifs
  · exact s.track_calm nickname _
  · exact .refl s

theorem cachePicture_calm (s : PeerAvatars) (nick : String) (identity : Option (String × String))
    (url : Option String) : s.Calm (s.cachePicture mask nick identity url) := by
  unfold cachePicture
  split <;> exact .of_same rfl rfl rfl

theorem realnameSeen_calm (s : PeerAvatars) (nick real : String)
    (identity : Option (String × String)) (currentNick : String) (presence : PresenceIndex) :
    s.Calm (s.realnameSeen mask nick real identity currentNick presence).1 := by
  unfold realnameSeen
  dsimp only
  split_ifs with h1 h2 h3 h4
  · exact .refl s
  · exact s.markSeen_calm _
  · exact .trans (.trans (s.markSeen_calm _) (cachePicture_calm ..)) (setPeer_calm _ nick none)
  · exact enqueue_calm rfl h4.1
  · exact .refl s

theorem numericReply_calm (s : PeerAvatars) (message : IrcMessage) (currentNick : String)
    (presence : PresenceIndex) (now : ℕ) :
    s.Calm (s.numericReply mask message currentNick presence now).1 := by
  unfold numericReply
  split
  · exact .refl s
  · split
    · dsimp only
      split_ifs
      · exact .refl s
      · exact s.realnameSeen_calm ..
    · split
      · exact .refl s
      · exact .of_inFlight rfl rfl (List.length_erase_le)
    · exact s.realnameSeen_calm ..
    · exact .of_inFlight rfl rfl (List.length_filter_le ..)
    · split_ifs
      · exact .of_inFlight rfl rfl (List.length_filter_le ..)
      · exact .refl s
    · exact .refl s

theorem rememberAsker_calm (s : PeerAvatars) (sender : String) (presence : PresenceIndex) :
    s.Calm (s.rememberAsker sender presence) := by
  unfold rememberAsker
  dsimp only
  split_ifs <;> exact .of_same rfl rfl rfl

theorem mayReply_calm (s : PeerAvatars) (sender : String) (now : ℕ) :
    s.Calm (s.mayReply sender now).1 := by
  unfold mayReply
  dsimp only
  split_ifs <;> exact .of_same rfl rfl rfl

theorem observeQuery_calm (s : PeerAvatars) (sender : String) (presence : PresenceIndex)
    (now : ℕ) : s.Calm (s.observeQuery sender presence now).1 := by
  have hback := (s.rememberAsker_calm sender presence).trans
    ((s.rememberAsker sender presence).askBack_calm sender presence)
  unfold observeQuery
  dsimp only
  split
  · exact hback
  · have hreply := hback.trans (mayReply_calm _ sender now)
    split_ifs
    · exact hreply.trans (.of_same rfl rfl rfl)
    · exact hreply

variable (mask) in
theorem observeAnswer_calm (s : PeerAvatars) (message : IrcMessage) (sender params : String) :
    s.Calm (s.observeAnswer mask message sender params).1 := by
  refine .trans (.trans (.trans ?_ (markQueried_calm _ _)) (cachePicture_calm ..))
    (setPeer_calm _ sender _)
  exact .of_inFlight rfl rfl (List.length_filter_le ..)

variable (mask) in
theorem observe_calm (s : PeerAvatars) (message : IrcMessage) (currentNick : String)
    (presence : PresenceIndex) (replayed : Bool) (now : ℕ) :
    s.Calm (s.observe mask message currentNick presence replayed now).1 := by
  unfold observe
  split
  · split
    · exact .refl s
    · split
      · exact .refl s
      · dsimp only
        split_ifs
        · exact s.observeQuery_calm ..
        · exact .refl s
  · split
    · exact .refl s
    · split
      · exact .refl s
      · rename_i params _ _ sender _
        have hanswer := s.observeAnswer_calm mask message sender params
        dsimp only
        generalize s.observeAnswer mask message sender params = answered at hanswer ⊢
        obtain ⟨answered, handled⟩ := answered
        split_ifs
        · exact hanswer
        · exact .refl s
        · exact hanswer
        · exact .refl s
  · exact s.numericReply_calm ..

theorem remembered_calm (s : PeerAvatars) (nick user host currentNick : String)
    (presence : Option PresenceIndex) :
    s.Calm (s.remembered mask nick user host currentNick presence).1 := by
  unfold remembered
  dsimp only
  split_ifs with h1 h2
  · exact .refl s
  · exact .refl s
  · simp only [Bool.or_eq_true, not_or, Option.not_isSome_iff_eq_none] at h2
    split
    · exact .of_same rfl rfl rfl
    · dsimp only
      refine .trans (.trans ?_ (enqueue_calm rfl ?_)) (setPeer_calm _ nick _)
      · exact .of_same rfl rfl rfl
      · dsimp only
        rw [h2.1]
        exact fun h => by cases h

theorem rememberedWho_calm (s : PeerAvatars) (message : IrcMessage) (currentNick : String)
    (presence : PresenceIndex) :
    s.Calm (s.rememberedWho mask message currentNick presence).1 := by
  unfold rememberedWho
  split
  · exact s.remembered_calm ..
  · exact .refl s

theorem joined_calm (s : PeerAvatars) (message : IrcMessage) (currentNick : String) :
    s.Calm (s.joined mask message currentNick).1 := by
  unfold joined
  split
  · split
    · exact s.remembered_calm ..
    · exact .refl s
  · exact .refl s

theorem speaker_calm (s : PeerAvatars) (nick currentNick : String) (presence : PresenceIndex) :
    s.Calm (s.speaker nick currentNick presence).1 := by
  unfold speaker
  dsimp only
  split_ifs with h1 h2
  · exact .refl s
  · exact .refl s
  · exact .refl s
  · simp only [Bool.or_eq_true, not_or, Option.not_isSome_iff_eq_none] at h2
    apply enqueue_calm rfl
    rw [h2.1]
    exact fun h => by cases h

theorem request_open (s : PeerAvatars) (nick currentNick : String) (presence : PresenceIndex) :
    (s.Bounded → (s.request nick currentNick presence).1.Bounded) ∧
      ∀ key, (s.request nick currentNick presence).1.openQueries key ≤ s.openQueries key + 1 := by
  have hout : s.Calm { s with inFlight := s.inFlight.filter fun probe =>
      probe.kind ≠ ProbeKind.query || probe.key ≠ nicknameKey nick } :=
    .of_inFlight rfl rfl (List.length_filter_le ..)
  unfold request
  dsimp only
  split_ifs
  · exact ⟨id, fun _ => Nat.le_succ _⟩
  · exact ⟨id, fun _ => Nat.le_succ _⟩
  · refine ⟨fun hb => enqueue_bounded (hout.bounded hb) rfl, fun key => ?_⟩
    have hopen := hout.queries key
    by_cases hkey : key = nicknameKey nick
    · rw [hkey] at hopen ⊢
      refine (enqueue_key _ .query nick _).trans ?_
      omega
    · refine (enqueue_other _ .query nick hkey).trans ?_
      omega

theorem observeMetadata_calm (s : PeerAvatars) (events : List Event) :
    s.Calm (s.observeMetadata events) := by
  unfold observeMetadata
  induction events generalizing s with
  | nil => exact .refl s
  | cons event events ih =>
    refine .trans ?_ (ih _)
    unfold observeMetadataEvent
    cases event with
    | userAvatar nickname url => exact s.track_calm nickname _
    | avatarsReset => exact .of_same rfl rfl rfl
    | _ => exact .refl s

end Lines

section Sending

def reaches (key : String) : IrcCommand → Bool
  | .privmsg target text => nicknameKey target = key && (avatarCtcp text).isSome
  | .notice target text => nicknameKey target = key && (avatarCtcp text).isSome
  | _ => false

theorem reaches_avatarText (nick key : String) (share : Option String) :
    reaches key (.notice nick (avatarText share)) = decide (nicknameKey nick = key) := by
  change (decide (nicknameKey nick = key) && (avatarCtcp (avatarText share)).isSome) = _
  rw [avatarCtcp_avatarText, Option.isSome_some, Bool.and_true]

theorem reaches_command {probe : Probe} (h : nicknameKey probe.nickname = probe.key)
    (key : String) : reaches key probe.command = queries key probe := by
  have hquery : (avatarCtcp queryText).isSome = true := by decide +kernel
  unfold Probe.command queries
  cases hk : probe.kind with
  | who => rfl
  | query =>
    change (decide (nicknameKey probe.nickname = key) && (avatarCtcp queryText).isSome) = _
    rw [hquery, h]
    simp

theorem nextSent_cases (currentNick : String) (presence : PresenceIndex) (queue : List Probe) :
    nextSent currentNick presence queue = ([], none) ∨
      ∃ dropped probe rest, nextSent currentNick presence queue = (rest, some probe) ∧
        queue = dropped ++ probe :: rest := by
  induction queue with
  | nil => exact .inl rfl
  | cons probe queue ih =>
    unfold nextSent
    split_ifs
    · rcases ih with h | ⟨dropped, next, rest, h, hq⟩
      · exact .inl h
      · exact .inr ⟨probe :: dropped, next, rest, h, by rw [hq]; rfl⟩
    · exact .inr ⟨[], probe, queue, rfl, rfl⟩

theorem sendProbe_open (hb : s.Bounded) (hroom : s.inFlight.length < maxProbesInFlight) (now : ℕ)
    (currentNick : String) (presence : PresenceIndex) :
    (s.sendProbe now currentNick presence).1.Bounded ∧
      ∀ key, (s.sendProbe now currentNick presence).2.countP (reaches key) +
        (s.sendProbe now currentNick presence).1.openQueries key ≤ s.openQueries key := by
  unfold sendProbe
  dsimp only
  rcases nextSent_cases currentNick presence s.queue with h | ⟨dropped, probe, rest, h, hq⟩
  · rw [h]
    refine ⟨⟨Nat.zero_le _, hb.inFlight, hb.stages, fun _ h => (List.not_mem_nil h).elim⟩,
      fun key => ?_⟩
    unfold openQueries
    simp
  · rw [h]
    have hsub : ∀ p ∈ probe :: rest, p ∈ s.queue := fun p hp =>
      hq ▸ List.mem_append_right dropped hp
    refine ⟨⟨?_, ?_, hb.stages, fun p hp => hb.keyed p (hsub p (List.mem_cons_of_mem _ hp))⟩,
      fun key => ?_⟩
    · have hlen := hb.queue
      rw [hq, List.length_append, List.length_cons] at hlen
      dsimp only
      omega
    · dsimp only
      rw [List.length_append, List.length_singleton]
      exact hroom
    · unfold openQueries
      dsimp only
      rw [hq, List.countP_append, List.countP_cons, List.countP_cons, List.countP_nil,
        reaches_command (hb.keyed probe (hsub probe List.mem_cons_self))]
      omega

theorem Drops.calm (h : s.Drops s') : s.Calm s' := by
  rw [h.rest]
  exact .of_same rfl rfl rfl

theorem Notified.calm {now : ℕ} {presence : PresenceIndex} {r : PeerAvatars × Option IrcCommand}
    (h : Notified now presence s r) : s.Calm r.1 := by
  cases h with
  | quiet drops told => exact drops.calm
  | notice drops found pending shared => exact drops.calm.trans (.of_same rfl rfl rfl)

theorem notify_calm (s : PeerAvatars) (order : KeyOrder) (now : ℕ) (currentNick : String)
    (presence : PresenceIndex) : s.Calm (s.notify order now currentNick presence).1 := by
  rcases s.notify_cases order now currentNick presence with ⟨-, h⟩ | h
  · rw [h]
    exact .refl s
  · exact h.calm

theorem tick_open (hb : s.Bounded) (order : KeyOrder) (now : ℕ) (currentNick : String)
    (presence : PresenceIndex) :
    (s.tick order now currentNick presence).1.Bounded ∧
      ∀ key, (s.tick order now currentNick presence).2.send.countP (reaches key) +
          (s.tick order now currentNick presence).1.openQueries key ≤
        (s.notify order now currentNick presence).2.toList.countP (reaches key) +
          s.openQueries key := by
  have hnotify := s.notify_calm order now currentNick presence
  unfold tick
  dsimp only
  have hexpired : (s.notify order now currentNick presence).1.Calm
      { (s.notify order now currentNick presence).1 with
        inFlight := (s.notify order now currentNick presence).1.inFlight.filter
          fun probe => now < probe.deadline } :=
    .of_inFlight rfl rfl (List.length_filter_le ..)
  have hcalm := hnotify.trans hexpired
  split_ifs with h
  · exact ⟨hcalm.bounded hb, fun key => Nat.add_le_add_left (hcalm.queries key) _⟩
  · rw [not_or, not_le] at h
    obtain ⟨hbounded, hsent⟩ :=
      sendProbe_open (hcalm.bounded hb) h.2 now currentNick presence
    refine ⟨hbounded, fun key => ?_⟩
    dsimp only
    rw [List.countP_append, Nat.add_assoc]
    exact Nat.add_le_add_left ((hsent key).trans (hcalm.queries key)) _

end Sending

section Presence

theorem forget_calm (s : PeerAvatars) (nick : String) :
    (s.Bounded → (s.forget nick).Bounded) ∧
      ∀ key, key ≠ nicknameKey nick → (s.forget nick).openQueries key ≤ s.openQueries key := by
  refine ⟨fun hb => ⟨?_, ?_, ?_, ?_⟩, fun key hkey => ?_⟩
  · exact (List.length_filter_le ..).trans hb.queue
  · unfold forget
    dsimp only
    rw [List.length_map]
    exact (List.length_filter_le ..).trans hb.inFlight
  · exact Map.length_erase_le.trans hb.stages
  · exact fun probe hp => hb.keyed probe (List.mem_filter.mp hp).1
  · unfold openQueries forget
    dsimp only
    rw [Map.lookup_erase, if_neg hkey]
    exact Nat.add_le_add_left (countP_filter_le ..) _

theorem forget_stages (s : PeerAvatars) (nick : String) :
    (s.forget nick).stages.lookup (nicknameKey nick) = none := AList.lookup_erase ..

theorem forget_queue (s : PeerAvatars) (nick : String) :
    ∀ probe ∈ (s.forget nick).queue, probe.key ≠ nicknameKey nick := by
  intro probe hp
  exact of_decide_eq_true (List.mem_filter.mp hp).2

theorem foldl_forget_calm (s : PeerAvatars) (gone : List String) :
    (s.Bounded → (gone.foldl forget s).Bounded) ∧
      ∀ key, key ∉ gone.map nicknameKey →
        (gone.foldl forget s).openQueries key ≤ s.openQueries key := by
  induction gone generalizing s with
  | nil => exact ⟨id, fun _ _ => le_rfl⟩
  | cons nick gone ih =>
    obtain ⟨hb, hq⟩ := ih (s.forget nick)
    obtain ⟨hb', hq'⟩ := s.forget_calm nick
    refine ⟨fun h => hb (hb' h), fun key hkey => ?_⟩
    rw [List.map_cons, List.mem_cons, not_or] at hkey
    exact (hq key hkey.2).trans (hq' key hkey.1)

theorem carryPicture_calm (s : PeerAvatars) (fromKey toKey new : String)
    (identity : Option (String × String)) :
    s.Calm (s.carryPicture mask fromKey toKey new identity).1 := by
  unfold carryPicture
  split
  · exact .refl s
  · dsimp only
    split
    · exact .of_same rfl rfl rfl
    · refine .trans ?_ (cachePicture_calm ..)
      exact .of_same rfl rfl rfl

def carriedStages (s : PeerAvatars) (fromKey toKey : String) : Map String ProbeStage :=
  match s.stages.lookup fromKey with
  | some stage => (s.stages.erase fromKey).insert toKey stage
  | none => s.stages

theorem length_carriedStages (s : PeerAvatars) (fromKey toKey : String) :
    (s.carriedStages fromKey toKey).entries.length ≤ s.stages.entries.length := by
  unfold carriedStages
  split
  · rename_i stage hl
    have := Map.length_erase_of_lookup hl
    refine Map.length_insert_le.trans ?_
    omega
  · exact le_rfl

theorem lookup_carriedStages {fromKey toKey : String} (hnone : s.stages.lookup toKey = none)
    (key : String) : (s.carriedStages fromKey toKey).lookup key =
      if key = toKey then s.stages.lookup fromKey
      else if key = fromKey then none else s.stages.lookup key := by
  unfold carriedStages
  cases hl : s.stages.lookup fromKey with
  | none =>
    dsimp only
    split_ifs with h1 h2
    · rw [h1, hnone]
    · rw [h2, hl]
    · rfl
  | some stage =>
    dsimp only
    rw [Map.lookup_insert, Map.lookup_erase]

theorem carry_stages (s : PeerAvatars) (fromKey toKey new : String) :
    (s.carry fromKey toKey new).stages = s.carriedStages fromKey toKey ∨
      (s.carriedStages fromKey toKey).lookup toKey = some .seen ∧
        (s.carry fromKey toKey new).stages = (s.carriedStages fromKey toKey).erase toKey := by
  have hstages : (s.carry fromKey toKey new).stages =
      if ((s.inFlight.filter fun probe => probe.kind = .who || probe.key ≠ fromKey).any
          fun probe => probe.key = fromKey) &&
          (s.carriedStages fromKey toKey).lookup toKey = some .seen then
        (s.carriedStages fromKey toKey).erase toKey
      else s.carriedStages fromKey toKey := rfl
  rw [hstages]
  split_ifs with h
  · rw [Bool.and_eq_true, decide_eq_true_eq] at h
    exact .inr ⟨h.2, rfl⟩
  · exact .inl rfl

theorem carry_queried {fromKey toKey : String} (hnone : s.stages.lookup toKey = none)
    (new key : String) : (s.carry fromKey toKey new).stages.lookup key = some .queried ↔
      (if key = toKey then s.stages.lookup fromKey
        else if key = fromKey then none else s.stages.lookup key) = some .queried := by
  rw [← lookup_carriedStages hnone]
  rcases s.carry_stages fromKey toKey new with h | ⟨hseen, h⟩
  · rw [h]
  · rw [h, Map.lookup_erase]
    split_ifs with hkey
    · rw [hkey, hseen]
      simp
    · rfl

theorem carry_bounded (hb : s.Bounded) {fromKey toKey new : String}
    (hkey : nicknameKey new = toKey) : (s.carry fromKey toKey new).Bounded := by
  refine ⟨?_, ?_, ?_, ?_⟩
  · exact (List.length_map ..).le.trans hb.queue
  · refine (List.length_map ..).le.trans ?_
    exact (List.length_filter_le ..).trans hb.inFlight
  · have hle := (s.length_carriedStages fromKey toKey).trans hb.stages
    rcases s.carry_stages fromKey toKey new with h | ⟨-, h⟩
    · rw [h]
      exact hle
    · rw [h]
      exact Map.length_erase_le.trans hle
  · intro probe hp
    obtain ⟨old, ho, rfl⟩ := List.mem_map.mp hp
    split_ifs
    · exact hkey
    · exact hb.keyed old ho

theorem carry_queries {fromKey toKey : String} (hne : fromKey ≠ toKey)
    (hnone : s.stages.lookup toKey = none) (hqueue : ∀ probe ∈ s.queue, probe.key ≠ toKey)
    (new key : String) : (s.carry fromKey toKey new).openQueries key =
      if key = toKey then s.openQueries fromKey
      else if key = fromKey then 1 else s.openQueries key := by
  have hcount : (s.carry fromKey toKey new).queue.countP (queries key) =
      if key = toKey then s.queue.countP (queries fromKey)
      else if key = fromKey then 0 else s.queue.countP (queries key) := by
    change (s.queue.map _).countP (queries key) = _
    rw [List.countP_map]
    split_ifs with h1 h2
    · apply List.countP_congr
      intro probe hp
      have := hqueue probe hp
      by_cases hk : probe.key = fromKey <;> simp [queries, hk, h1, this]
    · rw [List.countP_eq_zero]
      intro probe hp
      by_cases hk : probe.key = fromKey <;> simp [queries, hk, h2, Ne.symm hne]
    · apply List.countP_congr
      intro probe hp
      by_cases hk : probe.key = fromKey <;> simp [queries, hk, Ne.symm h1, Ne.symm h2]
  unfold openQueries
  rw [hcount, if_congr (carry_queried hnone new key) rfl rfl]
  split_ifs <;> simp_all

theorem rename_bounded (hb : s.Bounded) (actor new : String)
    (identity : Option (String × String)) : (s.rename mask actor new identity).1.Bounded := by
  unfold rename
  dsimp only
  split_ifs
  · exact ⟨hb.queue, hb.inFlight, hb.stages, hb.keyed⟩
  · apply (carryPicture_calm ..).bounded
    exact carry_bounded ((s.forget_calm new).1 hb) rfl

variable (mask) in
theorem rename_queries (s : PeerAvatars) (actor new : String) (identity : Option (String × String))
    {key : String} (h : key = nicknameKey actor ∨ key ≠ nicknameKey new) :
    (s.rename mask actor new identity).1.openQueries
        (if key = nicknameKey actor then nicknameKey new else key) ≤ s.openQueries key := by
  unfold rename
  dsimp only
  split_ifs with hkeys hactor hactor
  · rw [hactor, ← hkeys]
    exact le_rfl
  · exact le_rfl
  · refine ((carryPicture_calm ..).queries _).trans ?_
    rw [carry_queries hkeys (forget_stages ..) (forget_queue s new), if_pos rfl, hactor]
    exact (s.forget_calm new).2 _ hkeys
  · refine ((carryPicture_calm ..).queries _).trans ?_
    have hnew := h.resolve_left hactor
    rw [carry_queries hkeys (forget_stages ..) (forget_queue s new), if_neg hnew, if_neg hactor]
    exact (s.forget_calm new).2 _ hnew

end Presence

end CayenChat.Avatars.PeerAvatars
