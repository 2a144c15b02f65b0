import CayenChat.Avatars.Answers

/-! # The exchange between two clients

Every query, answer and notice of two clients who stay in sight of each other
uses up something: a query that the other may get, or what the other is not
aware of. So they come to rest, whatever the order of their steps.
-/

namespace CayenChat.Avatars

open Machine

namespace PeerAvatars

variable {s s' : PeerAvatars} {mask : CaseMapping → String → String → String → String}

theorem call_bounded (hb : s.Bounded) (now : ℕ) (c : PeerCall) :
    (s.call mask now c).1.Bounded := by
  cases c with
  | elapse ms => exact hb
  | setCasemapping casemapping => exact ⟨hb.queue, hb.inFlight, hb.stages, hb.keyed⟩
  | setShare url => exact ⟨hb.queue, hb.inFlight, hb.stages, hb.keyed⟩
  | observe message currentNick presence replayed => exact (s.observe_calm ..).bounded hb
  | rememberedWho message currentNick presence => exact (s.rememberedWho_calm ..).bounded hb
  | remembered nick user host currentNick presence => exact (s.remembered_calm ..).bounded hb
  | joined message currentNick => exact (s.joined_calm ..).bounded hb
  | speaker nick currentNick presence => exact (s.speaker_calm ..).bounded hb
  | request nick currentNick presence => exact (s.request_open ..).1 hb
  | lifecycle message presence currentNick =>
    change (s.lifecycle mask message presence currentNick).1.Bounded
    rcases s.lifecycle_cases mask message presence currentNick with
      ⟨actor, new, -, -, hl⟩ | ⟨gone, hl, -⟩
    · rw [hl]
      exact rename_bounded hb ..
    · rw [hl]
      exact (s.foldl_forget_calm gone).1 hb
  | observeMetadata events => exact (s.observeMetadata_calm events).bounded hb
  | tick currentNick presence order => exact (tick_open hb order now currentNick presence).1

/-! ## What a user is not aware of -/

def unaware (s : PeerAvatars) (key : String) : ℕ :=
  if (s.askers.lookup key).any fun asker => asker.known = s.share then 0 else 1

theorem unaware_le_one (s : PeerAvatars) (key : String) : s.unaware key ≤ 1 := by
  unfold unaware
  split_ifs <;> omega

theorem unaware_congr {key other : String}
    (h : (s'.askers.lookup other).map Asker.known = (s.askers.lookup key).map Asker.known)
    (hshare : s'.share = s.share) : s'.unaware other = s.unaware key := by
  have hany : ∀ (o : Option Asker) (share : Option String),
      (o.any fun asker => asker.known = share) = (o.map Asker.known).any (· = share) := by
    intro o share
    cases o <;> rfl
  unfold unaware
  rw [hany, hany, h, hshare]

theorem SameAnswers.unaware (h : s.SameAnswers s') (key : String) :
    s'.unaware key = s.unaware key :=
  unaware_congr (by rw [h.askers]) h.share

theorem unaware_of_known {key : String} {asker : Asker} (h : s.askers.lookup key = some asker)
    (hk : asker.known = s.share) : s.unaware key = 0 := by
  unfold unaware
  rw [h]
  exact if_pos (decide_eq_true hk)

theorem unaware_of_pending {key : String} (h : s.pending key = true) : s.unaware key = 1 := by
  unfold unaware
  unfold pending at h
  cases hl : s.askers.lookup key with
  | none => rfl
  | some asker =>
    rw [hl] at h
    have hne := of_decide_eq_true h
    exact if_neg fun h => hne (of_decide_eq_true h)

theorem Drops.unaware (h : s.Drops s') (key : String) : s'.unaware key ≤ s.unaware key := by
  rcases h.kept key with hl | ⟨-, hp⟩
  · exact (unaware_congr (by rw [hl]) h.share).le
  · rw [unaware_of_pending hp]
    exact s'.unaware_le_one key

theorem Notified.unaware {now : ℕ} {presence : PresenceIndex} {r : PeerAvatars × Option IrcCommand}
    (h : Notified now presence s r) (hk : s.Keyed) (key : String) :
    r.2.toList.countP (reaches key) + r.1.unaware key ≤ s.unaware key := by
  cases h with
  | quiet drops told => exact (Nat.zero_add _).le.trans (drops.unaware key)
  | @notice s' told asked drops found pending shared =>
    have htold := hk told asked (drops.lookup found)
    dsimp only [Option.toList_some]
    rw [List.countP_singleton, reaches_avatarText, htold]
    by_cases hkey : told = key
    · subst hkey
      rw [unaware_of_pending (drops.pending pending)]
      have hnone := unaware_of_known (s := { s' with
        askers := s'.askers.insert told { asked with known := s'.share }
        nextNotify := some (now + notifyInterval) }) (AList.lookup_insert _) rfl
      rw [hnone]
      split_ifs <;> omega
    · rw [if_neg (by simpa using hkey), Nat.zero_add]
      refine le_trans (le_of_eq ?_) (drops.unaware key)
      refine unaware_congr (s := s') ?_ ?_
      · dsimp only
        rw [Map.lookup_insert, if_neg (Ne.symm hkey)]
      · rfl

theorem notify_unaware (hk : s.Keyed) (order : KeyOrder) (now : ℕ) (currentNick : String)
    (presence : PresenceIndex) (key : String) :
    (s.notify order now currentNick presence).2.toList.countP (reaches key) +
      (s.notify order now currentNick presence).1.unaware key ≤ s.unaware key := by
  rcases s.notify_cases order now currentNick presence with ⟨-, h⟩ | h
  · rw [h]
    exact (Nat.zero_add _).le
  · exact h.unaware hk key

theorem rememberAsker_unaware (s : PeerAvatars) (sender : String) (presence : PresenceIndex)
    (key : String) : (s.rememberAsker sender presence).unaware key ≤ s.unaware key := by
  rcases s.rememberAsker_lookup sender presence key with h | ⟨-, hnone, -⟩
  · exact (unaware_congr (by rw [h]) (s.rememberAsker_share sender presence)).le
  · have hone : s.unaware key = 1 := by
      unfold unaware
      rw [hnone]
      rfl
    rw [hone]
    exact unaware_le_one ..

theorem markTold_unaware (s : PeerAvatars) (sender key : String) :
    (s.markTold sender).unaware key ≤ s.unaware key := by
  by_cases hkey : key = nicknameKey sender
  · cases hl : s.askers.lookup key with
    | none =>
      have hone : s.unaware key = 1 := by
        unfold unaware
        rw [hl]
        rfl
      rw [hone]
      exact unaware_le_one ..
    | some asker =>
      have hl' : (s.markTold sender).askers.lookup key = some { asker with known := s.share } := by
        unfold markTold
        dsimp only
        rw [Map.lookup_adjust, if_pos hkey, hl]
        rfl
      rw [unaware_of_known hl' rfl]
      exact Nat.zero_le _
  · refine (unaware_congr (s := s) ?_ ?_).le
    · unfold markTold
      dsimp only
      rw [Map.lookup_adjust, if_neg hkey]
    · rfl

theorem observeQuery_unaware (s : PeerAvatars) (sender : String) (presence : PresenceIndex)
    (now : ℕ) (key : String) :
    (s.observeQuery sender presence now).1.unaware key ≤ s.unaware key ∧
      (s.observeQuery sender presence now).2.send.countP (reaches key) ≤
        if nicknameKey sender = key then 1 else 0 := by
  have hback := ((s.rememberAsker sender presence).askBack_same sender presence).unaware key
  have hremember := hback.le.trans (s.rememberAsker_unaware sender presence key)
  have hreply : ∀ s : PeerAvatars, (s.mayReply sender now).1.unaware key = s.unaware key := by
    intro s
    obtain ⟨hask, hshare⟩ := s.mayReply_askers sender now
    exact unaware_congr (by rw [hask]) hshare
  unfold observeQuery
  dsimp only
  split
  · exact ⟨hremember, Nat.zero_le _⟩
  · split_ifs with hmay hkey hkey
    · refine ⟨((markTold_unaware ..).trans (hreply _).le).trans hremember, ?_⟩
      exact List.countP_le_length
    · refine ⟨((markTold_unaware ..).trans (hreply _).le).trans hremember, ?_⟩
      dsimp only
      rw [List.countP_singleton, reaches_avatarText, if_neg (by simpa using hkey)]
    · exact ⟨(hreply _).le.trans hremember, Nat.zero_le _⟩
    · exact ⟨(hreply _).le.trans hremember, Nat.zero_le _⟩

theorem foldl_forget_unaware (s : PeerAvatars) {gone : List String} {key : String}
    (h : key ∉ gone.map nicknameKey) : (gone.foldl forget s).unaware key = s.unaware key :=
  unaware_congr (by rw [foldl_forget_lookup, if_neg h]) (s.foldl_forget_share gone).2

variable (mask) in
theorem rename_unaware (s : PeerAvatars) {actor new key : String}
    (identity : Option (String × String))
    (h : if key = nicknameKey actor then validSender new = true else key ≠ nicknameKey new) :
    (s.rename mask actor new identity).1.unaware
      (if key = nicknameKey actor then nicknameKey new else key) = s.unaware key := by
  apply unaware_congr _ (s.rename_share actor new identity).2
  unfold rename
  dsimp only
  by_cases hkeys : nicknameKey actor = nicknameKey new
  · rw [if_pos hkeys]
    unfold respell
    dsimp only
    rw [Map.lookup_adjust]
    by_cases hactor : key = nicknameKey actor
    · rw [if_pos hactor, if_pos hkeys.symm, hactor, hkeys, Option.map_map]
      rfl
    · rw [if_neg hactor, if_neg hactor]
  · rw [if_neg hkeys, (carryPicture_same ..).askers,
      carry_lookup (by rw [forget_lookup, if_pos rfl]), forget_lookup, if_neg hkeys]
    by_cases hactor : key = nicknameKey actor
    · rw [if_pos hactor] at h ⊢
      rw [if_pos rfl, hactor, h]
      cases s.askers.lookup (nicknameKey actor) <;> rfl
    · rw [if_neg hactor] at h ⊢
      rw [if_neg h, if_neg hactor, forget_lookup, if_neg h]

end PeerAvatars

open PeerAvatars

/-! ## What a call uses up -/

def asks (key : String) : IrcCommand → Bool
  | .privmsg target text => nicknameKey target = key && (avatarCtcp text).isSome
  | _ => false

theorem reaches_of_asks {key : String} {line : IrcCommand} (h : asks key line = true) :
    reaches key line = true := by
  unfold asks at h
  split at h
  · exact h
  · cases h

def PeerCall.follow (key : String) : PeerCall → String
  | .lifecycle message _ _ =>
    match message.sourceNickname, message.command with
    | some actor, .nick new => if key = nicknameKey actor then nicknameKey new else key
    | _, _ => key
  | _ => key

/-- A user stays in sight: they take a nickname only that can be one, nobody else takes theirs, and
they do not leave the last channel we share. -/
def PeerCall.Spares (key : String) : PeerCall → Prop
  | .lifecycle message presence currentNick =>
    ∀ actor, message.sourceNickname = some actor →
      (∀ new, message.command = .nick new →
        if key = nicknameKey actor then validSender new = true else key ≠ nicknameKey new) ∧
      key ∉ (presence.departed message actor (sameNickname · currentNick)).map nicknameKey
  | _ => True

/-- The messages to a user that a call may give rise to. -/
def PeerCall.grants (key : String) : PeerCall → ℕ
  | .setShare _ => 1
  | .request .. => 2
  | .observe message currentNick _ replayed =>
    if (querier message currentNick replayed).any fun sender => nicknameKey sender = key then 1
    else 0
  | _ => 0

namespace PeerAvatars

variable {s s' : PeerAvatars} {mask : CaseMapping → String → String → String → String}

/-- What may be sent to a user yet: the queries they may get, each of which they may answer, and a
notice where they are not aware. -/
def credit (s : PeerAvatars) (key : String) : ℕ := 2 * s.openQueries key + s.unaware key

theorem Calm.credit (hc : s.Calm s') (hs : s.SameAnswers s') (key : String) :
    s'.credit key ≤ s.credit key := by
  have := hc.queries key
  have := hs.unaware key
  unfold PeerAvatars.credit
  omega

theorem observeQuery_asks (s : PeerAvatars) (sender : String) (presence : PresenceIndex) (now : ℕ)
    (key : String) : (s.observeQuery sender presence now).2.send.countP (asks key) = 0 := by
  unfold observeQuery
  dsimp only
  split
  · rfl
  · split_ifs <;> rfl

def cost (key : String) (lines : List IrcCommand) : ℕ :=
  lines.countP (reaches key) + lines.countP (asks key)

theorem observe_spends (s : PeerAvatars) (message : IrcMessage) (currentNick : String)
    (presence : PresenceIndex) (replayed : Bool) (now : ℕ) (key : String) :
    cost key ((s.observe mask message currentNick presence replayed now).2.getD {}).send +
        (s.observe mask message currentNick presence replayed now).1.credit key ≤
      s.credit key + (PeerCall.observe message currentNick presence replayed).grants key := by
  have hcalm := s.observe_calm mask message currentNick presence replayed now
  unfold PeerCall.grants
  dsimp only
  cases hq : querier message currentNick replayed with
  | none =>
    obtain ⟨hsame, hsend⟩ := s.observe_of_not_querier mask presence now hq
    rw [hsend]
    exact (Nat.zero_add _).le.trans (hcalm.credit hsame key)
  | some sender =>
    rw [observe_querier hq] at hcalm ⊢
    obtain ⟨hunaware, hsent⟩ := s.observeQuery_unaware sender presence now key
    have hopen := hcalm.queries key
    have hasks := s.observeQuery_asks sender presence now key
    unfold cost credit
    dsimp only [Option.getD_some, Option.any_some] at hopen ⊢
    simp only [decide_eq_true_eq]
    split_ifs at hsent ⊢ <;> omega

theorem lifecycle_spends (s : PeerAvatars) {message : IrcMessage} {presence : PresenceIndex}
    {currentNick key : String}
    (h : (PeerCall.lifecycle message presence currentNick).Spares key) :
    (s.lifecycle mask message presence currentNick).1.credit
      ((PeerCall.lifecycle message presence currentNick).follow key) ≤ s.credit key := by
  unfold PeerCall.follow
  dsimp only
  unfold lifecycle
  cases hactor : message.sourceNickname with
  | none => exact le_rfl
  | some actor =>
    obtain ⟨hnick, hgone⟩ := h actor hactor
    dsimp only
    cases hc : message.command with
    | nick new =>
      dsimp only
      have hname := hnick new hc
      have hkept : key = nicknameKey actor ∨ key ≠ nicknameKey new := by
        split_ifs at hname with hkey
        · exact .inl hkey
        · exact .inr hname
      have hopen := s.rename_queries mask actor new (prefixIdentity message) hkept
      have hunaware := s.rename_unaware mask (prefixIdentity message) hname
      unfold credit
      omega
    | _ =>
      dsimp only
      have hopen := (s.foldl_forget_calm _).2 key hgone
      have hunaware := s.foldl_forget_unaware hgone
      unfold credit
      omega

theorem tick_spends (hk : s.Keyed) (hb : s.Bounded) (order : KeyOrder) (now : ℕ)
    (currentNick : String) (presence : PresenceIndex) (key : String) :
    cost key (s.tick order now currentNick presence).2.send +
      (s.tick order now currentNick presence).1.credit key ≤ s.credit key := by
  obtain ⟨hsame, sent, hsent, -⟩ := s.tick_same order now currentNick presence
  have hopen := (tick_open hb order now currentNick presence).2 key
  have hnotice := notify_unaware hk order now currentNick presence key
  have hunaware := hsame.unaware key
  have hasks : sent.countP (asks key) ≤ sent.countP (reaches key) :=
    List.countP_mono_left fun line _ => reaches_of_asks
  have hnone : (s.notify order now currentNick presence).2.toList.countP (asks key) = 0 := by
    rcases s.notify_cases order now currentNick presence with ⟨-, h⟩ | h
    · rw [h]
      rfl
    · generalize s.notify order now currentNick presence = r at h
      cases h <;> rfl
  unfold cost credit
  rw [hsent, List.countP_append] at hopen
  rw [hsent, List.countP_append, List.countP_append]
  omega

variable (mask) in
/-- What a call sends to a user in sight, and leaves to be sent, is there before, or granted by the
call. -/
theorem call_spends (hk : s.Keyed) (hb : s.Bounded) (now : ℕ) {c : PeerCall} {key : String}
    (h : c.Spares key) : cost key (s.call mask now c).2.send +
      (s.call mask now c).1.credit (c.follow key) ≤ s.credit key + c.grants key := by
  have hquiet : ∀ {s' : PeerAvatars}, s'.credit key ≤ s.credit key →
      cost key [] + s'.credit key ≤ s.credit key + 0 := fun h => (Nat.zero_add _).le.trans h
  cases c with
  | elapse ms => exact hquiet le_rfl
  | setCasemapping casemapping => exact hquiet le_rfl
  | setShare url =>
    change cost key [] + (2 * s.openQueries key + (s.setShare url).unaware key) ≤
      2 * s.openQueries key + s.unaware key + 1
    have := (s.setShare url).unaware_le_one key
    have hcost : cost key [] = 0 := rfl
    omega
  | observe message currentNick presence replayed => exact s.observe_spends ..
  | rememberedWho message currentNick presence =>
    exact hquiet ((s.rememberedWho_calm ..).credit (s.rememberedWho_same ..) key)
  | remembered nick user host currentNick presence =>
    exact hquiet ((s.remembered_calm ..).credit (s.remembered_same ..) key)
  | joined message currentNick =>
    exact hquiet ((s.joined_calm ..).credit (s.joined_same ..) key)
  | speaker nick currentNick presence =>
    exact hquiet ((s.speaker_calm ..).credit (s.speaker_same ..) key)
  | request nick currentNick presence =>
    have hopen := (s.request_open nick currentNick presence).2 key
    have hunaware := (s.request_same nick currentNick presence).unaware key
    have hcost : cost key [] = 0 := rfl
    change cost key [] + (2 * (s.request nick currentNick presence).1.openQueries key +
      (s.request nick currentNick presence).1.unaware key) ≤
        2 * s.openQueries key + s.unaware key + 2
    omega
  | lifecycle message presence currentNick =>
    exact (Nat.zero_add _).le.trans (s.lifecycle_spends h)
  | observeMetadata events =>
    exact hquiet ((s.observeMetadata_calm events).credit (s.observeMetadata_same events) key)
  | tick currentNick presence order => exact tick_spends hk hb order now currentNick presence key

end PeerAvatars

end CayenChat.Avatars
