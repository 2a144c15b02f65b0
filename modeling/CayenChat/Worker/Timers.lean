import CayenChat.Avatars.Askers
import CayenChat.Avatars.Lookups
import CayenChat.Ctcp.Replies
import CayenChat.Echo.Echoes
import CayenChat.History.Lines
import CayenChat.Modes.Channels
import CayenChat.Regain.OpRegain

/-! # Timers

The worker sleeps until the earliest of the times its components name, and then runs the timer of
that component. Whatever the timer leaves is due later, so that at one instant no timer runs twice.
-/

namespace CayenChat

def Rests (now : ℕ) (deadline : Option ℕ) : Prop := ∀ due ∈ deadline, now < due

section Rests

variable {now : ℕ} {deadline : Option ℕ}

theorem Rests.filter (h : Rests now deadline) (p : ℕ → Bool) : Rests now (deadline.filter p) :=
  fun due hd => h due (Option.mem_filter_iff.mp hd).1

theorem rests_min {l : List ℕ} (h : ∀ due ∈ l, now < due) : Rests now l.min? :=
  fun due hd => h due (List.min?_mem hd)

theorem rests_head {α : Type*} (sent : α → ℕ) (timeout : ℕ) (l : List α) :
    Rests now ((l.dropWhile fun a => decide (timeout ≤ now - sent a)).head?.map
      (sent · + timeout)) := by
  intro due h
  obtain ⟨a, ha, rfl⟩ := Option.map_eq_some_iff.mp h
  have hlate := List.head?_dropWhile_not (fun a => decide (timeout ≤ now - sent a)) l
  rw [ha] at hlate
  have := of_decide_eq_false hlate
  omega

end Rests

/-! ## The components -/

theorem Echoes.expire_rests (e : Echoes) (now : ℕ) : Rests now (e.expire now).1.nextDeadline :=
  rests_head Pending.sent pendingTtl e.pending

theorem Ctcp.CtcpReplies.tick_rests (s : CtcpReplies) (now : ℕ) :
    Rests now (s.tick now).1.nextDeadline :=
  rests_head PendingPing.sent pingTimeout s.pending

theorem Modes.ChannelModes.takeQueries_rests (modes : ChannelModes) (now : ℕ) :
    Rests now (modes.takeQueries now).1.nextDeadline := by
  unfold nextDeadline
  split_ifs
  · rintro due ⟨⟩
  · refine rests_min fun due hdue => ?_
    obtain ⟨query, hquery, rfl⟩ := List.mem_map.mp hdue
    rcases List.mem_append.mp hquery with hold | hnew
    · exact of_decide_eq_true (List.mem_filter.mp hold).2
    · obtain ⟨name, -, rfl⟩ := List.mem_map.mp hnew
      exact Nat.lt_add_of_pos_right (by decide)

namespace HistoryRequests

variable {h : HistoryRequests} {now : ℕ}

theorem nextRequest_rests (hr : Rests now h.nextDeadline) :
    Rests now (h.nextRequest now).1.nextDeadline := by
  unfold nextRequest
  split
  · rintro due ⟨⟩
    exact Nat.lt_add_of_pos_right (by decide)
  · exact hr

theorem tick_rests (h : HistoryRequests) (now : ℕ) : Rests now (h.tick now).1.nextDeadline := by
  unfold tick
  split
  · rename_i hnone
    intro due hdue
    unfold nextDeadline at hdue
    rw [hnone] at hdue
    cases hdue
  · rename_i o ho
    split_ifs with hdue
    · intro due hd
      unfold nextDeadline at hd
      rw [ho] at hd
      cases hd
      exact hdue
    · intro due hd
      have hgone : (h.giveUp o).outstanding = none := by
        unfold giveUp
        split <;> rfl
      unfold nextDeadline at hd
      rw [(SameTables.fallBack (h.giveUp o) _).outstanding, hgone] at hd
      cases hd

end HistoryRequests

namespace OpRegain

variable {now : ℕ}

theorem rests_later {wait : ℕ} (h : 0 < wait) : Rests now (some (now + wait)) := by
  rintro due ⟨⟩
  exact Nat.lt_add_of_pos_right h

theorem Channel.attempt_rests (c : Channel) (now : ℕ) (flags : String) (rejoins : ℕ) :
    Rests now (c.attempt now flags rejoins).1.stage.due := by
  unfold attempt
  split
  · rintro due ⟨⟩
  · split
    · exact rests_later (by decide)
    · exact rests_later (by decide)

theorem Channel.poll_rests (c : Channel) (now : ℕ) (ready : Bool)
    (flagsOf : String → Option String) (rejoins : ℕ) :
    Rests now (c.poll now ready flagsOf rejoins).1.stage.due := by
  have hkept : ∀ due, ¬due ≤ now → c.stage.due = some due → Rests now c.stage.due := by
    intro due hdue hs other hother
    rw [hs] at hother
    cases hother
    exact not_le.mp hdue
  unfold poll
  split
  · rename_i due hs
    by_cases hdue : due ≤ now
    · rw [if_pos hdue]
      split
      · split
        · exact c.attempt_rests _ _ _
        · rintro due ⟨⟩
      · exact rests_later (by decide)
    · rw [if_neg hdue]
      exact hkept due hdue (by rw [hs]; rfl)
  · rename_i due _ _ hs
    by_cases hdue : due ≤ now
    · rw [if_pos hdue]
      rintro due ⟨⟩
    · rw [if_neg hdue]
      exact hkept due hdue (by rw [hs]; rfl)
  · rename_i due _ _ _ hs
    by_cases hdue : due ≤ now
    · rw [if_pos hdue]
      unfold judge
      dsimp only
      split
      · exact rests_later (by decide)
      · rintro due ⟨⟩
    · rw [if_neg hdue]
      exact hkept due hdue (by rw [hs]; rfl)
  · rename_i hs
    intro due hdue
    rw [hs] at hdue
    cases hdue

/-- A poll leaves a channel due later, unless it did not come to it. -/
theorem foldl_pollChannel_rests {ready : Bool} {flagsOf : String → Option String}
    {keys : List String} {acc : Map String Channel × List Step × ℕ} {key : String} {c : Channel}
    (h : (keys.foldl (pollChannel now ready flagsOf) acc).1.lookup key = some c) :
    Rests now c.stage.due ∨ key ∉ keys ∧ acc.1.lookup key = some c := by
  induction keys generalizing acc with
  | nil => exact .inr ⟨List.not_mem_nil, h⟩
  | cons first keys ih =>
    rcases ih h with hr | ⟨hkeys, hacc⟩
    · exact .inl hr
    · unfold pollChannel at hacc
      split at hacc
      · rename_i hnone
        refine .inr ⟨List.not_mem_cons_of_ne_of_not_mem ?_ hkeys, hacc⟩
        rintro rfl
        rw [hnone] at hacc
        cases hacc
      · dsimp only at hacc
        rw [Map.lookup_insert] at hacc
        split_ifs at hacc with hkey
        · cases hacc
          exact .inl (Channel.poll_rests _ _ _ _ _)
        · exact .inr ⟨List.not_mem_cons_of_ne_of_not_mem hkey hkeys, hacc⟩

theorem poll_rests (r : OpRegain) (order : TableOrder) (now : ℕ) (ready : Bool)
    (flagsOf : String → Option String) :
    Rests now (r.poll order now ready flagsOf).1.nextDeadline := by
  refine rests_min fun due hdue => ?_
  obtain ⟨c, hc, hs⟩ := List.mem_filterMap.mp hdue
  obtain ⟨key, hl⟩ := Map.mem_values.mp hc
  rcases foldl_pollChannel_rests hl with hr | ⟨hkeys, hl⟩
  · exact hr due hs
  · rw [(order.keys_perm _).mem_iff] at hkeys
    exact absurd (AList.mem_keys.mp (AList.lookup_isSome.mp (by rw [hl]; rfl))) hkeys

end OpRegain

namespace Avatars.MetadataState

variable {s : MetadataState} {l : Lookup} {now : ℕ}

theorem lapsed_due {L : List Lookup} (hl : l ∈ L.filterMap (expireLookup now))
    (hw : l.state ≠ .waiting) : now < l.due := by
  obtain ⟨old, -, hold⟩ := List.mem_filterMap.mp hl
  unfold expireLookup at hold
  split at hold
  · cases hold
    split_ifs with hdue
    · exact Nat.lt_add_of_pos_right (by decide)
    · exact not_le.mp hdue
  · split at hold
    · cases hold
      assumption
    · cases hold
  · cases hold
    exact absurd ‹_› hw

theorem lookupDue_rests (hl : l.state ≠ .waiting → now < l.due)
    (hw : l.state = .waiting → now < l.due ∨ maxLookupsInFlight ≤ s.inFlight ∨
      ∃ due ∈ s.nextLookup, now < due) : Rests now (s.lookupDue l) := by
  unfold lookupDue
  split
  · rename_i hwaiting
    split_ifs with hfull
    · rintro due ⟨⟩
    · rintro due ⟨⟩
      rcases hw hwaiting with hdue | hin | ⟨next, hnext, hdue⟩
      · cases s.nextLookup with
        | none => exact hdue
        | some next => exact lt_max_of_lt_right hdue
      · exact absurd hin hfull
      · rw [hnext]
        exact lt_max_of_lt_left hdue
  · rintro due ⟨⟩
    exact hl (by simp [*])
  · rintro due ⟨⟩
    exact hl (by simp [*])

/-- No lookup is left that is due and may be sent. -/
theorem sendLookup_rests (h : ∀ l ∈ s.lookups, l.state ≠ .waiting → now < l.due)
    (hl : l ∈ (s.sendLookup now).1.lookups) :
    Rests now ((s.sendLookup now).1.lookupDue l) := by
  rcases s.sendLookup_cases now with hs | ⟨pre, sent, post, hsplit, -, -, -, hs⟩
  · rw [hs] at hl ⊢
    refine lookupDue_rests (h l hl) fun hwaiting => ?_
    by_contra hnot
    push Not at hnot
    obtain ⟨hdue, hin, hnext⟩ := hnot
    have hmay : s.nextLookup.all (· ≤ now) = true ∧ s.inFlight < maxLookupsInFlight := by
      refine ⟨?_, hin⟩
      rw [Option.all_eq_true]
      exact fun due hd => decide_eq_true (hnext due hd)
    unfold sendLookup at hs
    rw [if_pos hmay] at hs
    split at hs
    · cases congrArg Prod.snd hs
    · rename_i hnone
      have := List.argmin_eq_none.mp hnone
      exact List.filter_eq_nil_iff.mp this l hl (by simp [hwaiting, hdue])
  · rw [hs] at hl ⊢
    refine lookupDue_rests (fun hstate => ?_)
      fun _ => .inr (.inr ⟨_, rfl, Nat.lt_add_of_pos_right (by decide)⟩)
    rcases List.mem_append.mp hl with hpre | hpost
    · exact h l (hsplit ▸ List.mem_append_left _ hpre) hstate
    · rcases List.mem_cons.mp hpost with rfl | hpost
      · exact Nat.lt_add_of_pos_right (by decide)
      · exact h l (hsplit ▸ List.mem_append_right _ (List.mem_cons_of_mem _ hpost)) hstate

theorem tick_rests (s : MetadataState) (now : ℕ) (joined : String → Bool) :
    Rests now (s.tick now joined).1.nextDeadline := by
  let t : MetadataState := { s with
    syncs := s.syncs.filter (now < ·.due)
    own := s.own.filter (now < ·.deadline)
    lookups := s.lookups.filterMap (expireLookup now) }
  have hnext : (s.tick now joined).1.nextDeadline = (t.sendLookup now).1.nextDeadline := by
    unfold tick
    dsimp only
    split <;> rfl
  have hrest : (t.sendLookup now).1.syncs = t.syncs ∧ (t.sendLookup now).1.own = t.own := by
    rcases t.sendLookup_cases now with hs | ⟨_, _, _, _, _, _, _, hs⟩ <;> rw [hs] <;>
      exact ⟨rfl, rfl⟩
  rw [hnext]
  refine rests_min fun due hdue => ?_
  rw [hrest.1, hrest.2] at hdue
  rcases List.mem_append.mp hdue with hdue | hdue
  · rcases List.mem_append.mp hdue with hdue | hdue
    · obtain ⟨sync, hsync, rfl⟩ := List.mem_map.mp hdue
      exact of_decide_eq_true (List.mem_filter.mp hsync).2
    · obtain ⟨own, hown, rfl⟩ := Option.map_eq_some_iff.mp (Option.mem_toList.mp hdue)
      exact of_decide_eq_true (Option.mem_filter_iff.mp hown).2
  · obtain ⟨l, hl, hd⟩ := List.mem_filterMap.mp hdue
    exact sendLookup_rests (fun _ hl hw => lapsed_due hl hw) hl due hd

end Avatars.MetadataState

namespace Avatars.PeerAvatars

variable {now : ℕ}

theorem notify_rests (s : PeerAvatars) (order : KeyOrder) (now : ℕ) (currentNick : String)
    (presence : PresenceIndex) {key : String}
    (hp : (s.notify order now currentNick presence).1.pending key = true) :
    ∃ due ∈ (s.notify order now currentNick presence).1.nextNotify, now < due := by
  rcases s.notify_cases order now currentNick presence with ⟨hdue, h⟩ | h
  · rw [h]
    exact hdue
  · generalize s.notify order now currentNick presence = r at h hp
    cases h with
    | quiet drops told =>
      rw [told key] at hp
      cases hp
    | notice drops found pending shared =>
      exact ⟨_, rfl, Nat.lt_add_of_pos_right (by decide)⟩

theorem sendProbe_rests (s : PeerAvatars) (now : ℕ) (currentNick : String)
    (presence : PresenceIndex) (hin : ∀ probe ∈ s.inFlight, now < probe.deadline) :
    (∀ probe ∈ (s.sendProbe now currentNick presence).1.inFlight, now < probe.deadline) ∧
      ((s.sendProbe now currentNick presence).1.queue = [] ∨
        ∃ due ∈ (s.sendProbe now currentNick presence).1.nextProbe, now < due) := by
  have hqueue : (nextSent currentNick presence s.queue).2 = none →
      (nextSent currentNick presence s.queue).1 = [] := by
    induction s.queue with
    | nil => exact fun _ => rfl
    | cons probe queue ih =>
      unfold nextSent
      split_ifs
      · exact ih
      · rintro ⟨⟩
  unfold sendProbe
  dsimp only
  split
  · rename_i hnone
    exact ⟨hin, .inl (hqueue hnone)⟩
  · refine ⟨fun probe hprobe => ?_, .inr ⟨_, rfl, Nat.lt_add_of_pos_right (by decide)⟩⟩
    rcases List.mem_append.mp hprobe with hold | hnew
    · exact hin probe hold
    · obtain rfl := List.mem_singleton.mp hnew
      exact Nat.lt_add_of_pos_right (by decide)

/-- Where a deadline would be read off the clock, none is left to be read. -/
theorem nextDeadline_rests {s : PeerAvatars} (clock : ℕ)
    (hin : ∀ probe ∈ s.inFlight, now < probe.deadline)
    (hsend : s.queue = [] ∨ maxProbesInFlight ≤ s.inFlight.length ∨
      ∃ due ∈ s.nextProbe, now < due)
    (hnotice : ∀ key, s.pending key = true → ∃ due ∈ s.nextNotify, now < due) :
    Rests now (s.nextDeadline clock) := by
  unfold nextDeadline
  refine rests_min fun due hdue => ?_
  rcases List.mem_append.mp hdue with hdue | hdue
  · rcases List.mem_append.mp hdue with hdue | hdue
    · split_ifs at hdue with hq
      · obtain rfl := List.mem_singleton.mp hdue
        rcases hsend with hempty | hfull | ⟨next, hnext, hlt⟩
        · exact absurd hempty hq.1
        · exact absurd hfull (not_le.mpr hq.2)
        · rw [hnext]
          exact hlt
      · cases hdue
    · obtain ⟨probe, hp, rfl⟩ := List.mem_map.mp (List.min?_mem (Option.mem_toList.mp hdue))
      exact hin probe hp
  · split_ifs at hdue with hasked
    · obtain rfl := List.mem_singleton.mp hdue
      obtain ⟨asker, hmem, hne⟩ := List.any_eq_true.mp hasked
      obtain ⟨key, hl⟩ := Map.mem_values.mp hmem
      obtain ⟨next, hnext, hlt⟩ := hnotice key (by
        unfold pending
        rw [hl]
        exact hne)
      rw [hnext]
      exact hlt
    · cases hdue

theorem tick_rests (s : PeerAvatars) (order : KeyOrder) (now : ℕ) (currentNick : String)
    (presence : PresenceIndex) (clock : ℕ) :
    Rests now ((s.tick order now currentNick presence).1.nextDeadline clock) := by
  let t : PeerAvatars := { (s.notify order now currentNick presence).1 with
    inFlight := (s.notify order now currentNick presence).1.inFlight.filter
      fun probe => now < probe.deadline }
  have hin : ∀ probe ∈ t.inFlight, now < probe.deadline :=
    fun probe hprobe => of_decide_eq_true (List.mem_filter.mp hprobe).2
  have hnotice : ∀ key, t.pending key = true → ∃ due ∈ t.nextNotify, now < due :=
    fun key hp => s.notify_rests order now currentNick presence hp
  unfold tick
  dsimp only
  split
  · rename_i hbusy
    refine nextDeadline_rests clock hin (.inr (hbusy.symm.imp_right fun h => ?_)) hnotice
    obtain ⟨due, hdue, hlt⟩ := (Option.any_eq_true ..).mp h
    exact ⟨due, hdue, of_decide_eq_true hlt⟩
  · have hsame := sendProbe_same t now currentNick presence
    obtain ⟨hflight, hqueue⟩ := sendProbe_rests t now currentNick presence hin
    refine nextDeadline_rests clock hflight (hqueue.imp_right .inr) fun key hp => ?_
    rw [hsame.nextNotify]
    unfold pending at hp
    rw [hsame.askers, hsame.share] at hp
    exact hnotice key hp

/-- A failed request of ours says nothing of others. -/
theorem observeMetadata_tick (s : PeerAvatars) (m : MetadataState) (now : ℕ)
    (joined : String → Bool) : s.observeMetadata (m.tick now joined).2.events = s := by
  unfold MetadataState.tick
  dsimp only
  cases (m.own.filter (·.deadline ≤ now)).bind OwnRequest.request with
  | none => rfl
  | some request => rfl

end Avatars.PeerAvatars

/-! ## The worker -/

open Avatars

/-- What a timer finds besides its component. -/
structure Surroundings where
  currentNick : String
  joined : String → Bool
  presence : PresenceIndex
  /-- Registered, with no alive check running and no nickname asked for. -/
  ready : Bool
  flagsOf : String → Option String
  channels : OpRegain.TableOrder
  askers : KeyOrder

inductive Timer
  | metadata
  | echo
  | history
  | modeQuery
  | regain
  | peer
  | ctcp
  deriving DecidableEq, Repr

/-- The components of the worker that have a timer, and which of them are in use. -/
structure Timers where
  registered : Bool
  metadataEnabled : Bool
  historyEnabled : Bool
  metadata : MetadataState
  echoes : Echoes
  history : HistoryRequests
  channelModes : Modes.ChannelModes
  regain : OpRegain
  peers : Option PeerAvatars
  ctcp : Ctcp.CtcpReplies

namespace Timers

/-- When a timer runs next, as it is seen at a time. -/
def deadline (t : Timers) (now : ℕ) : Timer → Option ℕ
  | .metadata => t.metadata.nextDeadline.filter fun _ => t.metadataEnabled
  | .echo => t.echoes.nextDeadline
  | .history => t.history.nextDeadline.filter fun _ => t.historyEnabled
  | .modeQuery => t.channelModes.nextDeadline.filter fun _ => t.registered
  | .regain => t.regain.nextDeadline
  | .peer => (t.peers.bind (·.nextDeadline now)).filter fun _ => t.registered
  | .ctcp => t.ctcp.nextDeadline

/-- Runs a timer. -/
def fire (t : Timers) (now : ℕ) (e : Surroundings) : Timer → Timers
  | .metadata =>
    let (metadata, handled) := t.metadata.tick now e.joined
    { t with metadata, peers := t.peers.map (·.observeMetadata handled.events) }
  | .echo => { t with echoes := (t.echoes.expire now).1 }
  | .history =>
    let (history, finished) := t.history.tick now
    { t with
      history := if finished.isSome && t.registered then (history.nextRequest now).1 else history }
  | .modeQuery => { t with channelModes := (t.channelModes.takeQueries now).1 }
  | .regain => { t with regain := (t.regain.poll e.channels now e.ready e.flagsOf).1 }
  | .peer =>
    { t with peers := t.peers.map fun peers =>
        (peers.tick e.askers now e.currentNick e.presence).1 }
  | .ctcp => { t with ctcp := (t.ctcp.tick now).1 }

def Fires (now : ℕ) : Timers → List (Timer × Surroundings) → Prop
  | _, [] => True
  | t, (timer, e) :: rest =>
    (∃ due ∈ t.deadline now timer, due ≤ now) ∧ Fires now (t.fire now e timer) rest

variable {t : Timers} {now : ℕ} {timer other : Timer} {l : List (Timer × Surroundings)}

theorem fire_rests (t : Timers) (now : ℕ) (e : Surroundings) (timer : Timer) :
    Rests now ((t.fire now e timer).deadline now timer) := by
  cases timer with
  | metadata => exact (t.metadata.tick_rests now e.joined).filter _
  | echo => exact t.echoes.expire_rests now
  | history =>
    refine Rests.filter ?_ _
    have h := t.history.tick_rests now
    unfold fire
    dsimp only
    split
    · exact HistoryRequests.nextRequest_rests h
    · exact h
  | modeQuery => exact (t.channelModes.takeQueries_rests now).filter _
  | regain => exact t.regain.poll_rests _ _ _ _
  | peer =>
    refine Rests.filter (fun due hdue => ?_) _
    obtain ⟨peers, hp, hd⟩ := Option.bind_eq_some_iff.mp hdue
    obtain ⟨old, -, rfl⟩ := Option.map_eq_some_iff.mp hp
    exact old.tick_rests _ _ _ _ now due hd
  | ctcp => exact t.ctcp.tick_rests now

/-- No timer brings another one forward. -/
theorem fire_deadline (t : Timers) (now : ℕ) (e : Surroundings) (h : other ≠ timer) :
    (t.fire now e timer).deadline now other = t.deadline now other := by
  have hpeers : t.peers.map (·.observeMetadata (t.metadata.tick now e.joined).2.events) =
      t.peers := by
    cases t.peers with
    | none => rfl
    | some peers => exact congrArg some (peers.observeMetadata_tick ..)
  cases timer <;> cases other <;> first | exact absurd rfl h | rfl | skip
  unfold fire deadline
  dsimp only
  rw [hpeers]

theorem Fires.not_mem (h : Fires now t l) (hr : Rests now (t.deadline now timer)) :
    timer ∉ l.map Prod.fst := by
  induction l generalizing t with
  | nil => exact List.not_mem_nil
  | cons head rest ih =>
    obtain ⟨first, e⟩ := head
    obtain ⟨⟨due, hdue, hle⟩, hrest⟩ := h
    by_cases hf : timer = first
    · subst hf
      exact absurd (hr due hdue) (not_lt.mpr hle)
    · refine List.not_mem_cons_of_ne_of_not_mem hf (ih hrest ?_)
      rwa [fire_deadline t now e hf]

/-- A message and a ping that nobody answers. -/
def unanswered : Timers where
  registered := true
  metadataEnabled := false
  historyEnabled := false
  metadata := { utf8 := true }
  echoes := { pending := [⟨1, none, "ann", false, "hi", false, 0⟩] }
  history := {}
  channelModes := {}
  regain := { enabled := false }
  peers := none
  ctcp := { avatar := false, network := "net", pending := [⟨"ann", "0", 0⟩], nonce := 0 }

def alone : Surroundings where
  currentNick := "me"
  joined _ := false
  presence := {}
  ready := true
  flagsOf _ := none
  channels := .standing
  askers := ⟨fun keys => keys, fun _ => .refl _⟩

end Timers

end CayenChat
