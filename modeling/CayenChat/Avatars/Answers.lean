import CayenChat.Avatars.Probes
import CayenChat.Ctcp.Budget

/-! # The budget of answers

Queries are answered within limits for all users and for each. Those who are
told of changes are bounded too, and are told one at a time.
-/

namespace CayenChat.Avatars

open Ctcp Window

namespace PeerAvatars

variable {s s' : PeerAvatars} {mask : CaseMapping → String → String → String → String}
  {answers : List Admitted} {now after : ℕ}

/-! ## Answers -/

def answersIn (now : ℕ) (lines : List IrcCommand) : List Admitted :=
  lines.filterMap fun
    | .notice target _ => some ⟨nicknameKey target, now⟩
    | _ => none

/-- What was answered until a time, with the budget that remembers it. -/
structure Remembers (s : PeerAvatars) (answers : List Admitted) (now : ℕ) : Prop where
  replies : ∃ seen ≤ now, s.replies = fresh replyWindow seen (answers.map Admitted.time)
  replied : ∀ a ∈ answers, now - a.time < replyIntervalPerUser →
    ∃ t ∈ s.replied.lookup a.key, a.time ≤ t
  past : ∀ a ∈ answers, a.time ≤ now
  paced : Paced replyWindow maxRepliesPerWindow (answers.map Admitted.time)
  users : ∀ key, Paced replyIntervalPerUser 1 (ofUser key answers)
  window : s.replies.length ≤ maxRepliesPerWindow
  recipients : s.replied.entries.length ≤ maxReplyRecipients

theorem Remembers.congr (h : s.Remembers answers now) (hreplies : s'.replies = s.replies)
    (hreplied : s'.replied = s.replied) : s'.Remembers answers now where
  replies := hreplies ▸ h.replies
  replied := hreplied ▸ h.replied
  past := h.past
  paced := h.paced
  users := h.users
  window := hreplies ▸ h.window
  recipients := hreplied ▸ h.recipients

theorem Remembers.same (h : s.Remembers answers now) (hs : s.SameAnswers s') :
    s'.Remembers answers now := h.congr hs.replies hs.replied

theorem Remembers.later (h : s.Remembers answers now) (hl : now ≤ after) :
    s.Remembers answers after where
  replies := by
    obtain ⟨seen, hs, hr⟩ := h.replies
    exact ⟨seen, hs.trans hl, hr⟩
  replied a ha ht := h.replied a ha (by omega)
  past a ha := (h.past a ha).trans hl
  paced := h.paced
  users := h.users
  window := h.window
  recipients := h.recipients

theorem Remembers.dropped (h : s.Remembers answers now) :
    (s.replies.dropWhile fun sent => !decide (now - sent < replyWindow)) =
      fresh replyWindow now (answers.map Admitted.time) := by
  obtain ⟨seen, hs, hr⟩ := h.replies
  have hord : s.replies.Pairwise (· ≤ ·) := by
    rw [hr]
    exact h.paced.ordered.filter _
  rw [dropWhile_stale hord, hr, fresh_fresh hs]

theorem lookup_recent {m : Map String ℕ} {key : String} {t u : ℕ} (h : t ∈ m.lookup key)
    (hu : u ≤ t) (hr : now - u < replyIntervalPerUser) :
    t ∈ (Map.keepValues (fun sent => decide (now - sent < replyIntervalPerUser)) m).lookup key := by
  rw [Map.lookup_keepValues, Option.mem_filter_iff]
  exact ⟨h, decide_eq_true (by omega)⟩

theorem length_keepValues_le {κ ν : Type*} (p : ν → Bool) (m : Map κ ν) :
    (Map.keepValues p m).entries.length ≤ m.entries.length := List.length_filter_le ..

def pruned (s : PeerAvatars) (now : ℕ) : PeerAvatars :=
  { s with
    replies := s.replies.dropWhile fun sent => !decide (now - sent < replyWindow)
    replied := Map.keepValues (fun sent => decide (now - sent < replyIntervalPerUser)) s.replied }

theorem mayReply_cases (s : PeerAvatars) (sender : String) (now : ℕ) :
    s.mayReply sender now = (s.pruned now, false) ∨
      (s.pruned now).replies.length < maxRepliesPerWindow ∧
        (s.pruned now).replied.lookup (nicknameKey sender) = none ∧
        (s.pruned now).replied.entries.length < maxReplyRecipients ∧
        s.mayReply sender now =
          ({ s.pruned now with
              replies := (s.pruned now).replies ++ [now]
              replied := (s.pruned now).replied.insert (nicknameKey sender) now }, true) := by
  unfold mayReply
  dsimp only
  split_ifs with h
  · exact .inl rfl
  · simp only [not_or, not_le, Option.not_isSome_iff_eq_none] at h
    exact .inr ⟨h.1, h.2.1, h.2.2, rfl⟩

theorem Remembers.pruned (h : s.Remembers answers now) :
    (s.pruned now).Remembers answers now where
  replies := ⟨now, le_rfl, h.dropped⟩
  replied a ha ht := by
    obtain ⟨t, htm, hle⟩ := h.replied a ha ht
    exact ⟨t, lookup_recent htm hle ht, hle⟩
  past := h.past
  paced := h.paced
  users := h.users
  window := (List.dropWhile_sublist _).length_le.trans h.window
  recipients := (length_keepValues_le _ _).trans h.recipients

theorem Remembers.fresh_user (h : s.Remembers answers now) {key : String}
    (hnone : (s.pruned now).replied.lookup key = none) :
    fresh replyIntervalPerUser now (ofUser key answers) = [] := by
  apply List.filter_eq_nil_iff.mpr
  intro t ht
  obtain ⟨a, ha, rfl⟩ := List.mem_map.mp ht
  obtain ⟨ha, hkey⟩ := List.mem_filter.mp ha
  intro hfresh
  obtain ⟨u, hu, -⟩ := h.pruned.replied a ha (of_decide_eq_true hfresh)
  rw [eq_of_beq hkey, hnone] at hu
  cases hu

theorem Remembers.answer (h : s.Remembers answers now) {key : String}
    (hroom : (s.pruned now).replies.length < maxRepliesPerWindow)
    (hnone : (s.pruned now).replied.lookup key = none)
    (hrecipients : (s.pruned now).replied.entries.length < maxReplyRecipients) :
    Remembers { s.pruned now with
      replies := (s.pruned now).replies ++ [now]
      replied := (s.pruned now).replied.insert key now } (answers ++ [⟨key, now⟩]) now where
  replies := by
    refine ⟨now, le_rfl, ?_⟩
    rw [List.map_append, fresh_append]
    dsimp only
    rw [show (s.pruned now).replies = _ from h.dropped]
    congr 1
    simp [fresh, replyWindow]
  replied := by
    intro a ha ht
    dsimp only
    rw [Map.lookup_insert]
    rcases List.mem_append.mp ha with ha | ha
    · split_ifs
      · exact ⟨now, rfl, h.past a ha⟩
      · exact h.pruned.replied a ha ht
    · rw [List.mem_singleton.mp ha, if_pos rfl]
      exact ⟨now, rfl, le_rfl⟩
  past := by
    intro a ha
    rcases List.mem_append.mp ha with ha | ha
    · exact h.past a ha
    · rw [List.mem_singleton.mp ha]
  paced := by
    rw [List.map_append]
    refine h.paced.next (fun t ht => ?_) ?_
    · obtain ⟨a, ha, rfl⟩ := List.mem_map.mp ht
      exact h.past a ha
    · rw [← h.dropped]
      exact hroom
  users other := by
    rw [ofUser_append]
    split_ifs with hother
    · subst hother
      refine (h.users key).next (fun t ht => ?_) ?_
      · obtain ⟨a, ha, rfl⟩ := List.mem_map.mp (ofUser_sublist.subset ht)
        exact h.past a ha
      · rw [h.fresh_user hnone]
        exact Nat.one_pos
    · rw [List.append_nil]
      exact h.users other
  window := by
    dsimp only
    rw [List.length_append, List.length_singleton]
    exact hroom
  recipients := Map.length_insert_le.trans hrecipients

theorem mayReply_remembers (h : s.Remembers answers now) (sender : String) :
    (s.mayReply sender now).1.Remembers
      (answers ++ if (s.mayReply sender now).2 then [⟨nicknameKey sender, now⟩] else []) now := by
  rcases s.mayReply_cases sender now with hr | ⟨hroom, hnone, hrecipients, hr⟩
  · rw [hr, if_neg Bool.false_ne_true, List.append_nil]
    exact h.pruned
  · rw [hr, if_pos rfl]
    exact h.answer hroom hnone hrecipients

theorem rememberAsker_budget (s : PeerAvatars) (sender : String) (presence : PresenceIndex) :
    (s.rememberAsker sender presence).replies = s.replies ∧
      (s.rememberAsker sender presence).replied = s.replied := by
  unfold rememberAsker
  dsimp only
  split_ifs <;> exact ⟨rfl, rfl⟩

theorem observeQuery_remembers (h : s.Remembers answers now) (sender : String)
    (presence : PresenceIndex) : (s.observeQuery sender presence now).1.Remembers
      (answers ++ answersIn now (s.observeQuery sender presence now).2.send) now := by
  have hremember := s.rememberAsker_budget sender presence
  have hback := (h.congr hremember.1 hremember.2).same
    ((s.rememberAsker sender presence).askBack_same sender presence)
  have hreply := mayReply_remembers hback sender
  unfold observeQuery
  dsimp only
  split
  · exact (List.append_nil answers).symm ▸ hback
  · split_ifs with hmay
    · rw [if_pos hmay] at hreply
      exact hreply.congr rfl rfl
    · rw [if_neg hmay] at hreply
      exact hreply

theorem Notified.budget {presence : PresenceIndex} {r : PeerAvatars × Option IrcCommand}
    (h : Notified now presence s r) : r.1.replies = s.replies ∧ r.1.replied = s.replied := by
  cases h with
  | quiet drops told =>
    rw [drops.rest]
    exact ⟨rfl, rfl⟩
  | notice drops found pending shared =>
    dsimp only
    rw [drops.rest]
    exact ⟨rfl, rfl⟩

theorem tick_budget (s : PeerAvatars) (order : KeyOrder) (now : ℕ) (currentNick : String)
    (presence : PresenceIndex) : (s.tick order now currentNick presence).1.replies = s.replies ∧
      (s.tick order now currentNick presence).1.replied = s.replied := by
  obtain ⟨hsame, -⟩ := s.tick_same order now currentNick presence
  rw [hsame.replies, hsame.replied]
  rcases s.notify_cases order now currentNick presence with ⟨-, h⟩ | h
  · rw [h]
    exact ⟨rfl, rfl⟩
  · exact h.budget

theorem foldl_forget_budget (s : PeerAvatars) (gone : List String) :
    (gone.foldl forget s).replies = s.replies ∧ (gone.foldl forget s).replied = s.replied := by
  induction gone generalizing s with
  | nil => exact ⟨rfl, rfl⟩
  | cons nick gone ih => exact ih (s.forget nick)

theorem rename_budget (s : PeerAvatars) (actor new : String)
    (identity : Option (String × String)) :
    (s.rename mask actor new identity).1.replies = s.replies ∧
      (s.rename mask actor new identity).1.replied = s.replied := by
  unfold rename
  dsimp only
  split_ifs
  · exact ⟨rfl, rfl⟩
  · exact ⟨(carryPicture_same ..).replies, (carryPicture_same ..).replied⟩

variable (mask) in
theorem lifecycle_budget (s : PeerAvatars) (message : IrcMessage) (presence : PresenceIndex)
    (currentNick : String) :
    (s.lifecycle mask message presence currentNick).1.replies = s.replies ∧
      (s.lifecycle mask message presence currentNick).1.replied = s.replied := by
  rcases s.lifecycle_cases mask message presence currentNick with
    ⟨actor, new, -, -, h⟩ | ⟨gone, h, -⟩
  · rw [h]
    exact rename_budget ..
  · rw [h]
    exact foldl_forget_budget ..

end PeerAvatars

open PeerAvatars

def PeerCall.answers (now : ℕ) : PeerCall → List IrcCommand → List Admitted
  | .observe .., lines => answersIn now lines
  | _, _ => []

namespace PeerAvatars

variable {s s' : PeerAvatars} {mask : CaseMapping → String → String → String → String}
  {answers : List Admitted} {now after : ℕ}

theorem call_remembers (h : s.Remembers answers now) (c : PeerCall) :
    (s.call mask now c).1.Remembers (answers ++ c.answers now (s.call mask now c).2.send)
      (c.after now) := by
  have hnone : ∀ {s' : PeerAvatars}, s'.Remembers answers now →
      s'.Remembers (answers ++ []) now := by
    intro s' h
    rw [List.append_nil]
    exact h
  cases c with
  | elapse ms => exact (hnone h).later (Nat.le_add_right now ms)
  | setCasemapping casemapping => exact hnone (h.congr rfl rfl)
  | setShare url => exact hnone (h.congr rfl rfl)
  | observe message currentNick presence replayed =>
    change (s.observe mask message currentNick presence replayed now).1.Remembers (answers ++
      answersIn now ((s.observe mask message currentNick presence replayed now).2.getD {}).send) now
    cases hq : querier message currentNick replayed with
    | none =>
      have ho := s.observe_of_not_querier mask presence now hq
      rw [ho.2]
      exact hnone (h.same ho.1)
    | some sender =>
      rw [observe_querier hq]
      exact observeQuery_remembers h sender presence
  | rememberedWho message currentNick presence => exact hnone (h.same (s.rememberedWho_same ..))
  | remembered nick user host currentNick presence => exact hnone (h.same (s.remembered_same ..))
  | joined message currentNick => exact hnone (h.same (s.joined_same ..))
  | speaker nick currentNick presence => exact hnone (h.same (s.speaker_same ..))
  | request nick currentNick presence => exact hnone (h.same (s.request_same ..))
  | lifecycle message presence currentNick =>
    have hl := s.lifecycle_budget mask message presence currentNick
    exact hnone (h.congr hl.1 hl.2)
  | observeMetadata events => exact hnone (h.same (s.observeMetadata_same events))
  | tick currentNick presence order =>
    have ht := s.tick_budget order now currentNick presence
    exact hnone (h.congr ht.1 ht.2)

/-! ## Notices -/

/-- Those who are told of changes are not too many, and the next one is not told too late. -/
structure Notifies (s : PeerAvatars) (now : ℕ) : Prop where
  askers : s.askers.entries.length ≤ maxNotifiedUsers
  due : ∀ due ∈ s.nextNotify, due ≤ now + notifyInterval

theorem Notifies.same (h : s.Notifies now) (hs : s.SameAnswers s') : s'.Notifies now :=
  ⟨hs.askers ▸ h.askers, hs.nextNotify ▸ h.due⟩

theorem Drops.length_le (h : s.Drops s') :
    s'.askers.entries.length ≤ s.askers.entries.length := by
  apply Map.length_le_of_lookup
  intro key hkey
  obtain ⟨asker, ha⟩ := Option.isSome_iff_exists.mp hkey
  rw [h.lookup ha]
  rfl

theorem Notified.notifies {presence : PresenceIndex} {r : PeerAvatars × Option IrcCommand}
    (h : Notified now presence s r) (hn : s.Notifies now) : r.1.Notifies now := by
  cases h with
  | quiet drops told =>
    refine ⟨drops.length_le.trans hn.askers, ?_⟩
    dsimp only
    rw [drops.rest]
    exact hn.due
  | notice drops found pending shared =>
    refine ⟨?_, ?_⟩
    · dsimp only
      rw [Map.length_insert_of_lookup found]
      exact drops.length_le.trans hn.askers
    · rintro due hd
      cases hd
      exact le_rfl

theorem tick_notifies (h : s.Notifies now) (order : KeyOrder) (currentNick : String)
    (presence : PresenceIndex) : (s.tick order now currentNick presence).1.Notifies now := by
  obtain ⟨hsame, -⟩ := s.tick_same order now currentNick presence
  refine Notifies.same ?_ hsame
  rcases s.notify_cases order now currentNick presence with ⟨-, hr⟩ | hr
  · rw [hr]
    exact h
  · exact hr.notifies h

theorem observeQuery_notifies (h : s.Notifies now) (sender : String) (presence : PresenceIndex) :
    (s.observeQuery sender presence now).1.Notifies now := by
  have hremember : (s.rememberAsker sender presence).Notifies now := by
    unfold rememberAsker
    dsimp only
    split_ifs with h1 h2 h3
    · exact h
    · exact h
    · exact h
    · refine ⟨Map.length_insert_le.trans ?_, h.due⟩
      rw [Option.not_isSome_iff_eq_none] at h3
      simpa [h3] using h2
  have hback := hremember.same ((s.rememberAsker sender presence).askBack_same sender presence)
  have hreply : ∀ {s : PeerAvatars}, s.Notifies now →
      (s.mayReply sender now).1.Notifies now := by
    intro s h
    rcases s.mayReply_cases sender now with hr | ⟨-, -, -, hr⟩
    · rw [hr]
      exact ⟨h.askers, h.due⟩
    · rw [hr]
      exact ⟨h.askers, h.due⟩
  unfold observeQuery
  dsimp only
  split
  · exact hback
  · split_ifs
    · refine ⟨?_, (hreply hback).due⟩
      exact Map.length_adjust.le.trans (hreply hback).askers
    · exact hreply hback

theorem foldl_forget_notifies (h : s.Notifies now) (gone : List String) :
    (gone.foldl forget s).Notifies now := by
  induction gone generalizing s with
  | nil => exact h
  | cons nick gone ih => exact ih ⟨Map.length_erase_le.trans h.askers, h.due⟩

theorem rename_notifies (h : s.Notifies now) (actor new : String)
    (identity : Option (String × String)) :
    (s.rename mask actor new identity).1.Notifies now := by
  unfold rename
  dsimp only
  split_ifs
  · exact ⟨Map.length_adjust.le.trans h.askers, h.due⟩
  · refine Notifies.same ?_ (carryPicture_same ..)
    have hforgotten : (s.forget new).Notifies now :=
      ⟨Map.length_erase_le.trans h.askers, h.due⟩
    refine ⟨?_, h.due⟩
    unfold carry
    dsimp only
    split
    · rename_i asker hl
      have := Map.length_erase_of_lookup hl
      have hle := hforgotten.askers
      split_ifs
      · refine Map.length_insert_le.trans ?_
        omega
      · omega
    · exact hforgotten.askers

theorem call_notifies (h : s.Notifies now) (c : PeerCall) :
    (s.call mask now c).1.Notifies (c.after now) := by
  cases c with
  | elapse ms => exact ⟨h.askers, fun due hd => (h.due due hd).trans (by simp [PeerCall.after])⟩
  | setCasemapping casemapping => exact ⟨h.askers, h.due⟩
  | setShare url => exact ⟨h.askers, h.due⟩
  | observe message currentNick presence replayed =>
    change (s.observe mask message currentNick presence replayed now).1.Notifies now
    cases hq : querier message currentNick replayed with
    | none =>
      have ho := s.observe_of_not_querier mask presence now hq
      exact h.same ho.1
    | some sender =>
      rw [observe_querier hq]
      exact observeQuery_notifies h sender presence
  | rememberedWho message currentNick presence => exact h.same (s.rememberedWho_same ..)
  | remembered nick user host currentNick presence => exact h.same (s.remembered_same ..)
  | joined message currentNick => exact h.same (s.joined_same ..)
  | speaker nick currentNick presence => exact h.same (s.speaker_same ..)
  | request nick currentNick presence => exact h.same (s.request_same ..)
  | lifecycle message presence currentNick =>
    change (s.lifecycle mask message presence currentNick).1.Notifies now
    rcases s.lifecycle_cases mask message presence currentNick with
      ⟨actor, new, -, -, hl⟩ | ⟨gone, hl, -⟩
    · rw [hl]
      exact rename_notifies h ..
    · rw [hl]
      exact foldl_forget_notifies h gone
  | observeMetadata events => exact h.same (s.observeMetadata_same events)
  | tick currentNick presence order => exact tick_notifies h order currentNick presence

def untold (s : PeerAvatars) : Finset String :=
  s.askers.keys.toFinset.filter fun key => s.pending key = true

theorem mem_untold {key : String} : key ∈ s.untold ↔ s.pending key = true := by
  unfold untold
  rw [Finset.mem_filter, and_iff_right_iff_imp]
  intro h
  rw [List.mem_toFinset]
  apply AList.mem_keys.mp
  apply AList.lookup_isSome.mp
  unfold pending at h
  cases hl : s.askers.lookup key with
  | none =>
    rw [hl] at h
    cases h
  | some asker => rfl

theorem card_untold_le (s : PeerAvatars) : s.untold.card ≤ s.askers.entries.length := by
  refine (Finset.card_filter_le ..).trans ((List.toFinset_card_le _).trans ?_)
  simp [AList.keys, List.keys]

theorem known_of_untold (h : s.untold = ∅) {key : String} {asker : Asker}
    (ha : s.askers.lookup key = some asker) : asker.known = s.share := by
  by_contra hne
  have hmem : key ∈ s.untold := by
    rw [mem_untold]
    unfold pending
    rw [ha]
    exact decide_eq_true hne
  rw [h] at hmem
  exact absurd hmem (Finset.notMem_empty key)

theorem SameAnswers.untold (h : s.SameAnswers s') : s'.untold = s.untold := by
  ext key
  rw [mem_untold, mem_untold]
  unfold pending
  rw [h.askers, h.share]

theorem Notified.untold {presence : PresenceIndex} {r : PeerAvatars × Option IrcCommand}
    (h : Notified now presence s r) : r.1.untold.card ≤ s.untold.card - 1 := by
  cases h with
  | quiet drops told =>
    rename_i s'
    have hnone : s'.untold = ∅ := by
      ext key
      simp [mem_untold, told key]
    dsimp only
    rw [hnone, Finset.card_empty]
    exact Nat.zero_le _
  | @notice s' told asker drops found pending shared =>
    rw [← Finset.card_erase_of_mem (mem_untold.mpr (drops.pending pending))]
    apply Finset.card_le_card
    intro key hkey
    rw [mem_untold] at hkey
    unfold PeerAvatars.pending at hkey
    dsimp only at hkey
    rw [Map.lookup_insert] at hkey
    split_ifs at hkey with hsame
    · simp at hkey
    · exact Finset.mem_erase.mpr ⟨hsame, mem_untold.mpr (drops.pending hkey)⟩

theorem tick_untold (hdue : ∀ due ∈ s.nextNotify, due ≤ now) (order : KeyOrder)
    (currentNick : String) (presence : PresenceIndex) :
    (s.tick order now currentNick presence).1.untold.card ≤ s.untold.card - 1 := by
  obtain ⟨hsame, -⟩ := s.tick_same order now currentNick presence
  rw [hsame.untold]
  rcases s.notify_cases order now currentNick presence with ⟨⟨due, hd, hlt⟩, -⟩ | h
  · exact absurd (hdue due hd) (Nat.not_le.mpr hlt)
  · exact h.untold

end PeerAvatars

end CayenChat.Avatars
