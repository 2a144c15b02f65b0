import CayenChat.App.Session
import CayenChat.Lib.Machine

/-! # The point a channel is resumed from

A disconnect of a session that could page leaves a point in every channel the
session had joined, unless an earlier one is still there. A reply that ends,
parting and asking for the latest lines instead take the point away, and so
does the end of a session that could not page.
-/

namespace CayenChat.App

namespace AppState

section Newest

def newestLines (messages : List Message) : List Message :=
  messages.drop (messages.length - resumeScanWindow)

def pointOf (messages : List Message) : Option ResumePoint :=
  (newestIdentified (newestLines messages)).map fun m => ⟨m.nativeId, m.timestamp⟩

/-- The newest line by its time, the last of equal ones, or else the last with an identifier where
no line has a time. -/
def IsNewest (l : List Message) (m : Message) : Prop :=
  ∃ before after, l = before ++ m :: after ∧
    ((∃ time, m.timestamp = some time ∧ (∀ a ∈ before, ∀ t ∈ a.timestamp, t ≤ time) ∧
        ∀ a ∈ after, ∀ t ∈ a.timestamp, t < time) ∨
      (∀ a ∈ l, a.timestamp = none) ∧ m.nativeId.isSome = true ∧ ∀ a ∈ after, a.nativeId = none)

variable {l : List Message} {m : Message}

theorem newestTimed_spec (h : ((l.filter (·.timestamp.isSome)).reverse.argmax fun m =>
      m.timestamp.getD 0) = some m) :
    ∃ before after, l = before ++ m :: after ∧ ∃ time, m.timestamp = some time ∧
      (∀ a ∈ before, ∀ t ∈ a.timestamp, t ≤ time) ∧ ∀ a ∈ after, ∀ t ∈ a.timestamp, t < time := by
  induction l using List.reverseRecOn with
  | nil => cases h
  | append_singleton l x ih =>
    rw [List.filter_append] at h
    cases hx : x.timestamp with
    | none =>
      rw [List.filter_cons_of_neg (by rw [hx]; decide), List.filter_nil, List.append_nil] at h
      obtain ⟨before, after, rfl, time, hm, hb, ha⟩ := ih h
      refine ⟨before, after ++ [x], by simp, time, hm, hb, fun a hal t ht => ?_⟩
      rcases List.mem_append.mp hal with hal | hal
      · exact ha a hal t ht
      · rw [List.mem_singleton.mp hal, hx] at ht
        cases ht
    | some time =>
      rw [List.filter_cons_of_pos (by rw [hx]; rfl), List.filter_nil, List.reverse_append,
        List.reverse_singleton, List.singleton_append, List.argmax_cons] at h
      cases hc : (l.filter (·.timestamp.isSome)).reverse.argmax fun m => m.timestamp.getD 0 with
      | none =>
        rw [hc] at h
        obtain rfl := Option.some.inj h
        refine ⟨l, [], rfl, time, hx, fun a ha t ht => ?_, fun a ha => by cases ha⟩
        have hnil := List.reverse_eq_nil_iff.mp (List.argmax_eq_none.mp hc)
        have := List.filter_eq_nil_iff.mp hnil a ha
        rw [Option.mem_def.mp ht] at this
        exact absurd rfl this
      | some c =>
        rw [hc] at h
        dsimp only at h
        split at h
        · rename_i hlt
          obtain rfl := Option.some.inj h
          obtain ⟨before, after, rfl, time', hm, hb, ha⟩ := ih hc
          rw [hx, hm, Option.getD_some, Option.getD_some] at hlt
          refine ⟨before, after ++ [x], by simp, time', hm, hb, fun a hal t ht => ?_⟩
          rcases List.mem_append.mp hal with hal | hal
          · exact ha a hal t ht
          · rw [List.mem_singleton.mp hal, hx] at ht
            exact Option.some.inj ht ▸ hlt
        · rename_i hge
          obtain rfl := Option.some.inj h
          refine ⟨l, [], rfl, time, hx, fun a ha t ht => ?_, fun a ha => by cases ha⟩
          have hmem : a ∈ (l.filter (·.timestamp.isSome)).reverse :=
            List.mem_reverse.mpr (List.mem_filter.mpr ⟨ha, by rw [Option.mem_def.mp ht]; rfl⟩)
          have hle := List.le_of_mem_argmax (f := fun m : Message => m.timestamp.getD 0) hmem hc
          rw [Option.mem_def.mp ht, Option.getD_some] at hle
          rw [hx, Option.getD_some, not_lt] at hge
          exact hle.trans hge

theorem newestIdentified_spec (h : newestIdentified l = some m) : IsNewest l m := by
  unfold newestIdentified at h
  rcases Option.or_eq_some_iff.mp h with h | ⟨hnone, h⟩
  · obtain ⟨before, after, hl, hm⟩ := newestTimed_spec h
    exact ⟨before, after, hl, Or.inl hm⟩
  · obtain ⟨hm, as, bs, heq, has⟩ := List.find?_eq_some_iff_append.mp h
    refine ⟨bs.reverse, as.reverse, ?_, Or.inr ⟨fun a ha => ?_, hm, fun a ha => ?_⟩⟩
    · rw [← List.reverse_reverse l, heq]
      simp
    · have hnil := List.reverse_eq_nil_iff.mp (List.argmax_eq_none.mp hnone)
      simpa using List.filter_eq_nil_iff.mp hnil a ha
    · simpa using has a (List.mem_reverse.mp ha)

theorem newestIdentified_eq_none : newestIdentified l = none ↔
    ∀ m ∈ l, m.timestamp = none ∧ m.nativeId = none := by
  unfold newestIdentified
  rw [Option.or_eq_none_iff, List.argmax_eq_none, List.reverse_eq_nil_iff, List.filter_eq_nil_iff,
    List.find?_eq_none]
  simp only [List.mem_reverse, Option.not_isSome_iff_eq_none]
  exact forall₂_and.symm

theorem pointOf_spec {p : ResumePoint} (h : pointOf l = some p) :
    ∃ m, IsNewest (newestLines l) m ∧ p = ⟨m.nativeId, m.timestamp⟩ := by
  obtain ⟨m, hm, rfl⟩ := Option.map_eq_some_iff.mp h
  exact ⟨m, newestIdentified_spec hm, rfl⟩

theorem pointOf_eq_none : pointOf l = none ↔
    ∀ m ∈ newestLines l, m.timestamp = none ∧ m.nativeId = none := by
  rw [pointOf, Option.map_eq_none_iff, newestIdentified_eq_none]

end Newest

variable {s s' s'' : AppState} {id : ConversationId} {network : NetworkId}

section Removing

/-- Conversations are removed with their points, and others are added. -/
structure Clears (s s' : AppState) : Prop where
  next : s.nextConversationId ≤ s'.nextConversationId
  kept : ∀ j < s.nextConversationId, s'.Known j →
    s.Known j ∧ s'.resumePoints.lookup j = s.resumePoints.lookup j
  fewer : ∀ j point, s'.resumePoints.lookup j = some point → s.resumePoints.lookup j = some point

theorem Clears.refl (s : AppState) : s.Clears s := ⟨le_rfl, fun _ _ h => ⟨h, rfl⟩, fun _ _ h => h⟩

theorem Clears.trans (h : s.Clears s') (h' : s'.Clears s'') : s.Clears s'' where
  next := h.next.trans h'.next
  kept j hj hk := by
    obtain ⟨hk', he'⟩ := h'.kept j (hj.trans_le h.next) hk
    obtain ⟨hk, he⟩ := h.kept j hj hk'
    exact ⟨hk, he'.trans he⟩
  fewer j point hj := h.fewer j point (h'.fewer j point hj)

theorem Clears.of_perm (hn : s'.nextConversationId = s.nextConversationId)
    (hp : s'.conversations.Perm s.conversations) (hs : s'.resumePoints = s.resumePoints) :
    s.Clears s' := by
  refine ⟨hn.ge, ?_, fun j point hj => hs ▸ hj⟩
  rintro j - ⟨c, hc, rfl⟩
  exact ⟨⟨c, hp.mem_iff.mp hc, rfl⟩, by rw [hs]⟩

theorem forgetAll_points (s : AppState) (network : NetworkId) (ids : List ConversationId)
    (j : ConversationId) : (s.forgetAll network ids).resumePoints.lookup j =
      if j ∈ ids then none else s.resumePoints.lookup j := by
  have h : (s.forgetAll network ids).resumePoints =
      ids.foldl (fun m id => m.erase id) s.resumePoints := by
    induction ids generalizing s with
    | nil => rfl
    | cons id ids ih => exact ih (s.forgetConversation network id)
  rw [h, lookup_eraseAll]

theorem removeConversations_clears (hi : s.Ids) (network : NetworkId) :
    s.Clears (s.removeConversations network).1 := by
  set s₁ : AppState := { s with
    conversations := s.conversations.filter (·.network ≠ network)
    channelIds := Map.retain (fun key => key.1 ≠ network) s.channelIds
    casemappings := s.casemappings.erase network } with hs₁
  have hkept := forgetAll_kept s₁ network (s.conversationsOf network)
  simp only [AppState.kept, Prod.mk.injEq] at hkept
  obtain ⟨-, hc, hx, -⟩ := hkept
  have hpoints := fun j => forgetAll_points s₁ network (s.conversationsOf network) j
  refine ⟨hx.ge, ?_, fun j point hj => ?_⟩
  swap
  · have hj := (hpoints j).symm.trans hj
    split at hj
    · cases hj
    · exact hj
  rintro j - ⟨c, hcs, rfl⟩
  replace hcs : c ∈ (s₁.forgetAll network (s.conversationsOf network)).conversations := hcs
  rw [hc] at hcs
  obtain ⟨hcs, hn⟩ := List.mem_filter.mp hcs
  refine ⟨⟨c, hcs, rfl⟩, (hpoints c.id).trans (if_neg fun hm => ?_)⟩
  exact of_decide_eq_true hn ((mem_conversationsOf hi.nodup hcs).mp hm)

theorem ensureConfiguredChannels_clears (s : AppState) (network : NetworkId)
    (channels : List String) : s.Clears (s.ensureConfiguredChannels network channels).1 := by
  unfold ensureConfiguredChannels
  refine List.foldlRecOn (motive := fun r : AppState × Option ConversationId => s.Clears r.1)
    channels _ (.refl s) fun r hr name _ => hr.trans ?_
  unfold ensureConfiguredChannel
  split
  · exact .refl r.1
  rcases addConversation_eq r.1 network .channel name with heq | ⟨-, -, heq⟩
  · rw [heq]
    exact .refl r.1
  · rw [heq]
    refine ⟨Nat.le_succ _, fun j hj hk => ?_, fun j point hj => hj⟩
    obtain ⟨c, hc, rfl⟩ := hk
    rcases List.eq_or_mem_of_mem_insertIdx hc with rfl | hc
    · exact absurd hj (lt_irrefl _)
    · exact ⟨⟨c, hc, rfl⟩, rfl⟩

theorem repairSelection_clears (s : AppState) : s.Clears s.repairSelection := by
  have h : s.repairSelection = { s with selected := s.repairSelection.selected } := by
    unfold repairSelection
    dsimp only
    split <;> split <;> rfl
  rw [h]
  exact .of_perm rfl (.refl _) rfl

theorem syncNetworks_clears (hi : s.Ids) (configs : List NetworkConfig) :
    s.Clears (s.syncNetworks configs) := by
  have hgone : ∀ ids : List NetworkId, (ids.foldl (fun s id => (forgetNetwork s id).1) s).Ids ∧
      s.Clears (ids.foldl (fun s id => (forgetNetwork s id).1) s) := fun ids => by
    refine List.foldlRecOn (motive := fun t : AppState => t.Ids ∧ s.Clears t) ids _
      ⟨hi, .refl s⟩ fun t ht id _ => ?_
    refine ⟨(forgetNetwork_follows t id ht.1).1, ht.2.trans ?_⟩
    exact (removeConversations_clears ht.1 id).trans (.of_perm rfl (.refl _) rfl)
  unfold AppState.syncNetworks
  dsimp only
  refine Clears.trans ?_ (repairSelection_clears _)
  refine List.foldlRecOn (motive := s.Clears) _ _ ?_ fun t ht config _ => ?_
  · exact (hgone _).2.trans (.of_perm rfl (List.perm_insertionSort _ _) rfl)
  · exact ht.trans (ensureConfiguredChannels_clears t config.id config.channels)

theorem resetNetwork_clears (hi : s.Ids) (network : NetworkId) (channels : List String) :
    s.Clears (s.resetNetwork network channels) := by
  unfold resetNetwork
  split
  · exact .refl s
  set s₁ : AppState := { (s.removeConversations network).1 with
    serverMessages := (s.removeConversations network).1.serverMessages.erase network
    systemMessages := (s.removeConversations network).1.systemMessages.filter (·.1 ≠ network)
    activeServers := (s.removeConversations network).1.activeServers.erase network
    statuses := (s.removeConversations network).1.statuses.insert network .connecting }
  have h₁ : s.Clears s₁ :=
    (removeConversations_clears hi network).trans (.of_perm rfl (.refl _) rfl)
  have h₂ : s₁.Clears (s₁.ensureConfiguredChannels network channels).1 :=
    ensureConfiguredChannels_clears s₁ network channels
  refine (h₁.trans h₂).trans (Clears.trans ?_ (repairSelection_clears _))
  exact .of_perm rfl (.refl _) rfl

theorem closePrivate_clears (hi : s.Ids) (id : ConversationId) :
    s.Clears (s.closePrivate id).1 := by
  unfold closePrivate
  split
  · exact .refl s
  · rename_i c hf
    refine ⟨le_rfl, ?_, fun j point hj => (lookup_of_erase hj).2⟩
    rintro j - ⟨a, ha, rfl⟩
    obtain ⟨ha, hne⟩ := (mem_eraseP hi.nodup hf a).mp ha
    refine ⟨⟨a, ha, rfl⟩, ?_⟩
    change (s.resumePoints.erase id).lookup a.id = _
    rw [Map.lookup_erase, if_neg hne]

end Removing

section Cutting

def pointAfter (s : AppState) (network : NetworkId) (couldPage : Bool) (c : Conversation)
    (point : Option ResumePoint) : Option ResumePoint :=
  if c.network ≠ network || c.isPrivate || c.id ∉ s.activeChannels then point
  else if couldPage then point.or (pointOf c.messages) else none

theorem lookup_foldl {f : Map ConversationId ResumePoint → Conversation →
      Map ConversationId ResumePoint} {g : Conversation → Option ResumePoint → Option ResumePoint}
    (hf : ∀ points c j, (f points c).lookup j =
      if j = c.id then g c (points.lookup j) else points.lookup j)
    {l : List Conversation} (hl : (l.map (·.id)).Nodup) (points : Map ConversationId ResumePoint)
    (j : ConversationId) : (l.foldl f points).lookup j =
      (l.find? (·.id = j)).elim (points.lookup j) fun c => g c (points.lookup j) := by
  induction l generalizing points with
  | nil => rfl
  | cons c l ih =>
    obtain ⟨hc, hl⟩ := List.nodup_cons.mp hl
    rw [List.foldl_cons, ih hl, hf, List.find?_cons]
    by_cases hj : c.id = j
    · have hnone : l.find? (·.id = j) = none := by
        refine List.find?_eq_none.mpr fun a ha => ?_
        rw [decide_eq_true_eq]
        exact fun haj => hc (List.mem_map.mpr ⟨a, ha, haj.trans hj.symm⟩)
      rw [hnone, decide_eq_true hj, if_pos hj.symm]
      rfl
    · rw [decide_eq_false hj, if_neg (Ne.symm hj)]

theorem lookup_cutOffChannels (hi : s.Ids) (network : NetworkId) (couldPage : Bool)
    (j : ConversationId) : (s.cutOffChannels network couldPage).lookup j =
      (s.conversation j).elim (s.resumePoints.lookup j) fun c =>
        s.pointAfter network couldPage c (s.resumePoints.lookup j) := by
  unfold cutOffChannels
  refine lookup_foldl (g := s.pointAfter network couldPage) (fun points c j => ?_) hi.nodup _ j
  unfold pointAfter
  split
  · exact (ite_self _).symm
  cases couldPage with
  | false =>
    change (points.erase c.id).lookup j = if j = c.id then none else points.lookup j
    exact Map.lookup_erase
  | true =>
    rw [if_neg (show ¬ (!true) = true from Bool.false_ne_true), if_pos rfl]
    have hpoint : pointOf c.messages = (newestIdentified (c.messages.drop
      (c.messages.length - resumeScanWindow))).map fun m => ⟨m.nativeId, m.timestamp⟩ := rfl
    rw [hpoint]
    generalize newestIdentified (c.messages.drop (c.messages.length - resumeScanWindow)) = newest
    cases hp : points.lookup c.id with
    | some point =>
      rw [if_pos Option.isSome_some]
      split
      · rename_i hj
        rw [hj, hp, Option.some_or]
      · rfl
    | none =>
      rw [if_neg (by simp)]
      cases newest with
      | none =>
        rw [Option.map_none, Option.or_none, ite_self]
      | some newest =>
        dsimp only
        rw [Map.lookup_insert]
        split
        · rename_i hj
          rw [hj, hp]
          rfl
        · rfl

theorem lookup_disconnect (hi : s.Ids) (hn : s.hasNetwork network = true) (reason : String)
    (j : ConversationId) :
    (s.setStatus network (.disconnected reason)).resumePoints.lookup j =
      (s.conversation j).elim (s.resumePoints.lookup j) fun c =>
        s.pointAfter network (network ∈ s.historyPaging) c (s.resumePoints.lookup j) := by
  have h : (s.setStatus network (.disconnected reason)).resumePoints =
      s.cutOffChannels network (network ∈ s.historyPaging) := by
    unfold setStatus
    rw [if_neg (by rw [hn]; exact Bool.false_ne_true)]
  rw [h, lookup_cutOffChannels hi]

end Cutting

section Answering

def EndsSession (s : AppState) (id : ConversationId) (paging : Bool) (i : AppCall) : Prop :=
  ∃ c reason, s.conversation id = some c ∧ c.kind = .channel ∧ id ∈ s.activeChannels ∧
    decide (c.network ∈ s.historyPaging) = paging ∧ i = .setStatus c.network (.disconnected reason)

/-- A call cuts a channel off at a point: it ends a session that had joined it and could page. -/
def CutsOff (id : ConversationId) (s : AppState) (i : AppCall) (point : ResumePoint) : Prop :=
  s.EndsSession id true i ∧ pointOf (s.log id) = some point

/-- A call answers the cuts of a conversation, or gives them up. -/
inductive Answers (lowercase : String → String) (id : ConversationId) (s : AppState) :
    AppCall → Prop
  | replied {gapNote : Option String} (h : (s.pendingHistory.lookup id).isSome = true) :
      Answers lowercase id s (.finishHistoryFor id gapNote)
  | parted {network : NetworkId} {name : String} (h : s.channelId network name = some id) :
      Answers lowercase id s (.partedChannel network name)
  | requested {network : NetworkId} {name : String} (h : s.channelId network name = some id) :
      Answers lowercase id s (.historyRequested network name)
  | requestedFor : Answers lowercase id s (.historyRequestedFor id)
  /-- The server can recover nothing. -/
  | ended {i : AppCall} (h : s.EndsSession id false i) : Answers lowercase id s i
  | removed {i : AppCall} (h : s.Known id) (hno : ¬ (s.call lowercase i).Known id) :
      Answers lowercase id s i

variable (lowercase : String → String) {i : AppCall}

theorem points_ended {paging : Bool} (hi : s.Ids) (hh : ∀ c ∈ s.conversations,
      s.hasNetwork c.network = true) (h : s.EndsSession id paging i) :
    (s.call lowercase i).resumePoints.lookup id =
      if paging then (s.resumePoints.lookup id).or (pointOf (s.log id)) else none := by
  obtain ⟨c, reason, hc, hk, ha, hp, rfl⟩ := h
  obtain ⟨hm, hid⟩ := conversation_mem hc
  have hlog : s.log id = c.messages := by
    unfold log
    rw [hc]
    rfl
  change (s.setStatus c.network (.disconnected reason)).resumePoints.lookup id = _
  rw [lookup_disconnect hi (hh c hm), hc, hlog, Option.elim_some, hp]
  unfold pointAfter
  rw [if_neg]
  rw [hid]
  simp [Conversation.isPrivate, hk, ha]

theorem finishHistoryFor_points (s : AppState) (id : ConversationId) (gapNote : Option String) :
    (s.finishHistoryFor id gapNote).1.resumePoints =
      if (s.pendingHistory.lookup id).isSome then s.resumePoints.erase id else s.resumePoints := by
  have hpoints : ∀ {t t' : AppState}, t'.session = t.session → t'.resumePoints = t.resumePoints :=
    fun h => congrArg (fun x => x.2.2) h
  unfold finishHistoryFor
  split
  · rename_i h
    rw [h]
    rfl
  rename_i lines h
  rw [h, if_pos Option.isSome_some]
  dsimp only
  split
  · rfl
  · refine hpoints (t := { s with
      pendingHistory := s.pendingHistory.erase id
      resumePoints := s.resumePoints.erase id }) ((appendReply_session id _ _).trans ?_)
    split
    · exact appendReplyLine_session id _ _
    · rfl

theorem finishOlderHistory_points (s : AppState) (id : ConversationId) (request : ℕ)
    (beginning : Bool) :
    (s.finishOlderHistory id request beginning).1.resumePoints = s.resumePoints := by
  unfold finishOlderHistory
  split
  · rfl
  dsimp only
  split
  · split
    · split <;> rfl
    · split <;> rfl
  · split <;> rfl

theorem lookup_erase_ne {β : Type} {m : Map ConversationId β} {j : ConversationId} (h : j ≠ id) :
    (m.erase j).lookup id = m.lookup id := by
  rw [Map.lookup_erase, if_neg (Ne.symm h)]

theorem points_answered (h : s.Sound) (hf : s.Fits i) (ha : s.Answers lowercase id i) :
    (s.call lowercase i).resumePoints.lookup id = none := by
  have herase : ∀ {β : Type} (m : Map ConversationId β), (m.erase id).lookup id = none := by
    intro β m
    rw [Map.lookup_erase, if_pos rfl]
  cases ha with
  | replied hp =>
    exact (congrArg _ (finishHistoryFor_points s id _)).trans (by rw [if_pos hp]; exact herase _)
  | @parted network name hid =>
    change (s.partedChannel network name).resumePoints.lookup id = none
    unfold partedChannel
    rw [hid]
    exact herase _
  | @requested network name hid =>
    change (s.historyRequested network name).resumePoints.lookup id = none
    unfold historyRequested
    rw [hid]
    exact herase _
  | requestedFor => exact herase s.resumePoints
  | ended he => exact points_ended lowercase h.ids h.homed he
  | removed hk hno =>
    by_contra hne
    refine hno ((h.call lowercase i hf).tables .resumePoints id ?_)
    exact Option.isSome_iff_ne_none.mpr hne

theorem points_cleared (h : s.Sound) (hc : s.Clears (s.call lowercase i))
    (ha : ¬ s.Answers lowercase id i) :
    (s.call lowercase i).resumePoints.lookup id = s.resumePoints.lookup id := by
  by_cases hk : s.Known id
  · have hk' : (s.call lowercase i).Known id := by
      by_contra hno
      exact ha (.removed hk hno)
    obtain ⟨c, hc', rfl⟩ := hk
    exact (hc.kept c.id (h.ids.fresh c hc') hk').2
  · have hnone : s.resumePoints.lookup id = none := by
      by_contra hne
      exact hk (h.tables .resumePoints id (Option.isSome_iff_ne_none.mpr hne))
    rw [hnone]
    by_contra hne
    obtain ⟨point, hp⟩ := Option.ne_none_iff_exists'.mp hne
    have := hc.fewer id point hp
    rw [hnone] at this
    cases this

theorem points_kept (h : s.Sound) (ha : ¬ s.Answers lowercase id i)
    (hc : ¬ s.EndsSession id true i) :
    (s.call lowercase i).resumePoints.lookup id = s.resumePoints.lookup id := by
  by_cases hi : reopens i = true
  swap
  · have := call_session lowercase s (Bool.eq_false_of_not_eq_true hi)
    exact congrArg (fun x => x.2.2.lookup id) this
  cases i with
  | syncNetworks configs => exact points_cleared lowercase h (syncNetworks_clears h.ids configs) ha
  | resetNetwork network channels =>
    exact points_cleared lowercase h (resetNetwork_clears h.ids network channels) ha
  | closePrivate j => exact points_cleared lowercase h (closePrivate_clears h.ids j) ha
  | setStatus network status =>
    change (s.setStatus network status).resumePoints.lookup id = _
    cases hn : s.hasNetwork network with
    | false =>
      unfold setStatus
      rw [hn]
      rfl
    | true =>
      cases status with
      | disconnected reason =>
        rw [lookup_disconnect h.ids hn]
        cases hcv : s.conversation id with
        | none => rfl
        | some c =>
          have hid := (conversation_mem hcv).2
          apply if_pos
          by_contra hno
          simp only [Bool.or_eq_true, decide_eq_true_eq, not_or, not_not] at hno
          obtain ⟨⟨rfl, hp⟩, hact⟩ := hno
          have hk : c.kind = .channel := by simpa [Conversation.isPrivate] using hp
          rw [hid] at hact
          cases hpage : decide (c.network ∈ s.historyPaging) with
          | true => exact hc ⟨c, reason, hcv, hk, hact, hpage, rfl⟩
          | false => exact ha (.ended ⟨c, reason, hcv, hk, hact, hpage, rfl⟩)
      | _ =>
        unfold setStatus
        rw [hn]
        rfl
  | partedChannel network name =>
    change (s.partedChannel network name).resumePoints.lookup id = _
    unfold partedChannel
    split
    · rename_i j hj
      exact lookup_erase_ne fun hid => ha (.parted (hid ▸ hj))
    · rfl
  | historyRequested network name =>
    change (s.historyRequested network name).resumePoints.lookup id = _
    unfold historyRequested
    split
    · rename_i j hj
      exact lookup_erase_ne fun hid => ha (.requested (hid ▸ hj))
    · rfl
  | historyRequestedFor j => exact lookup_erase_ne fun hid => ha (hid ▸ .requestedFor)
  | historyResumed network name =>
    change (s.historyResumed network name).resumePoints.lookup id = _
    unfold historyResumed
    split <;> rfl
  | pushHistoryLine j line =>
    change (s.pushHistoryLine j line).1.resumePoints.lookup id = _
    unfold pushHistoryLine
    split <;> rfl
  | finishHistoryFor j gapNote =>
    change (s.finishHistoryFor j gapNote).1.resumePoints.lookup id = _
    rw [finishHistoryFor_points]
    split
    · rename_i hp
      exact lookup_erase_ne fun hid => ha (by subst hid; exact .replied hp)
    · rfl
  | requestOlderHistory j =>
    change (s.requestOlderHistory j).1.resumePoints.lookup id = _
    unfold requestOlderHistory
    split
    · rfl
    dsimp only
    split
    · rfl
    split <;> rfl
  | finishOlderHistory j request beginning =>
    exact congrArg _ (finishOlderHistory_points s j request beginning)
  | _ => cases hi

theorem not_answers (h : s.EndsSession id true i) : ¬ s.Answers lowercase id i := by
  intro ha
  obtain ⟨c, reason, hc, -, -, hp, rfl⟩ := h
  cases ha with
  | ended h =>
    obtain ⟨c', reason', hc', -, -, hp', -⟩ := h
    rw [hc] at hc'
    cases hc'
    rw [hp] at hp'
    cases hp'
  | removed hk hno =>
    apply hno
    have heq : (s.setStatus c.network (.disconnected reason)).conversations = s.conversations := by
      unfold setStatus
      split <;> rfl
    obtain ⟨a, hm, rfl⟩ := hk
    exact ⟨a, heq ▸ hm, rfl⟩

theorem points_latch (h : s.Sound) (hf : s.Fits i) :
    Machine.Latches (CutsOff id) (Answers lowercase id) (AppState.call lowercase)
      (fun s => s.resumePoints.lookup id) s i where
  cleared ha := ⟨points_answered lowercase h hf ha, fun point hc => not_answers lowercase hc.1 ha⟩
  taken ha point := by
    by_cases hc : s.EndsSession id true i
    · rw [points_ended lowercase h.ids h.homed hc, if_pos rfl, Option.or_eq_some_iff]
      exact or_congr_right (and_congr_right fun _ => (and_iff_right hc).symm)
    · rw [points_kept lowercase h ha hc]
      exact (or_iff_left fun ⟨_, hcut⟩ => hc hcut.1).symm

end Answering

section Listing

theorem mem_historyResume (hi : s.Ids) {name : String} {point : ResumePoint} :
    (id, name, point) ∈ s.historyResume network ↔ ∃ c, s.conversation id = some c ∧
      c.network = network ∧ c.name = name ∧ s.resumePoints.lookup id = some point := by
  unfold historyResume
  rw [List.mem_filterMap]
  constructor
  · rintro ⟨c, hc, hp⟩
    obtain ⟨hm, hn⟩ := List.mem_filter.mp hc
    obtain ⟨p, hp, heq⟩ := Option.map_eq_some_iff.mp hp
    cases heq
    exact ⟨c, conversation_eq hi.nodup hm, of_decide_eq_true hn, rfl, hp⟩
  · rintro ⟨c, hc, hn, hname, hp⟩
    obtain ⟨hm, rfl⟩ := conversation_mem hc
    refine ⟨c, List.mem_filter.mpr ⟨hm, decide_eq_true hn⟩, ?_⟩
    rw [hp, ← hname]
    rfl

theorem historyResume_nodup (hi : s.Ids) (network : NetworkId) :
    ((s.historyResume network).map (·.1)).Nodup := by
  refine hi.nodup.sublist ?_
  have hsub : ∀ l : List Conversation, ((l.filterMap fun c =>
      (s.resumePoints.lookup c.id).map fun point => (c.id, c.name, point)).map (·.1)).Sublist
        (l.map (·.id)) := by
    intro l
    induction l with
    | nil => exact .refl _
    | cons c l ih =>
      rw [List.filterMap_cons]
      cases s.resumePoints.lookup c.id with
      | none => exact ih.cons c.id
      | some point => exact ih.cons_cons c.id
  exact (hsub _).trans (List.filter_sublist.map _)

end Listing

section Runs

variable (lowercase : String → String) (configs : List NetworkConfig)

theorem run_points (is : List AppCall) (hd : (configs.map (·.id)).Nodup)
    (h : Machine.Along Fits (AppState.call lowercase) (withNetworks configs) is)
    {point : ResumePoint} : (run lowercase configs is).resumePoints.lookup id = some point ↔
      Machine.FirstOffered (CutsOff id) (Answers lowercase id) (AppState.call lowercase)
        (withNetworks configs) is point := by
  have hlatches : Machine.Along (Machine.Latches (CutsOff id) (Answers lowercase id)
      (AppState.call lowercase) fun s => s.resumePoints.lookup id) (AppState.call lowercase)
      (withNetworks configs) is :=
    Machine.Along.of_invariant Sound (fun s i hs hi => hs.call lowercase i hi)
      (fun s i hs hi => points_latch lowercase hs hi) (withNetworks_sound hd) h
  refine Machine.latched_iff ?_ hlatches
  have hs := withNetworks_session configs
  simp only [session, Prod.mk.injEq] at hs
  change (withNetworks configs).resumePoints.lookup id = none
  rw [hs.2.2]
  rfl

/-- After every run the conversations of a network are listed, each once, that have been cut off
without an answer since, with the newest identified line that was held at the first of these cuts;
and a call takes a point away exactly when it answers the cuts of its conversation, and changes
none. -/
theorem resume_recovers (is : List AppCall) (hd : (configs.map (·.id)).Nodup)
    (h : Machine.Along Fits (AppState.call lowercase) (withNetworks configs) is) :
    let s := run lowercase configs is
    (∀ network id name point, (id, name, point) ∈ s.historyResume network ↔
      ∃ c, s.conversation id = some c ∧ c.network = network ∧ c.name = name ∧
        Machine.FirstOffered (CutsOff id) (Answers lowercase id) (AppState.call lowercase)
          (withNetworks configs) is point) ∧
    (∀ network, ((s.historyResume network).map (·.1)).Nodup) ∧
    (∀ l point, pointOf l = some point →
      ∃ m, IsNewest (newestLines l) m ∧ point = ⟨m.nativeId, m.timestamp⟩) ∧
    (∀ l, pointOf l = none ↔ ∀ m ∈ newestLines l, m.timestamp = none ∧ m.nativeId = none) ∧
    ∀ i, s.Fits i → ∀ id point, s.resumePoints.lookup id = some point →
      ((s.call lowercase i).resumePoints.lookup id = none ↔ s.Answers lowercase id i) ∧
      (¬ s.Answers lowercase id i → (s.call lowercase i).resumePoints.lookup id = some point) := by
  have hs : (run lowercase configs is).Sound := (structure_sound lowercase configs is hd h).1
  refine ⟨fun network id name point => ?_, historyResume_nodup hs.ids, fun l point => pointOf_spec,
    fun l => pointOf_eq_none, fun i hi id point hp => ?_⟩
  · rw [mem_historyResume hs.ids]
    simp only [run_points lowercase configs is hd h]
  · have hl : Machine.Latches (CutsOff id) (Answers lowercase id) (AppState.call lowercase)
        (fun s => s.resumePoints.lookup id) (run lowercase configs is) i :=
      points_latch lowercase hs hi
    obtain ⟨hcleared, htaken⟩ := hl
    have hkept : ¬ (run lowercase configs is).Answers lowercase id i →
        ((run lowercase configs is).call lowercase i).resumePoints.lookup id = some point :=
      fun ha => (htaken ha point).mpr (Or.inl hp)
    refine ⟨⟨fun hnone => ?_, fun ha => (hcleared ha).1⟩, hkept⟩
    by_contra ha
    rw [hkept ha] at hnone
    cases hnone

def timedLine (text : String) (time : SystemTime) : AppCall :=
  .appendConversationMessage 1 "bob" text .message { serverTime := some time } false

def partsAgain : List AppCall :=
  [.setStatus 1 .registered, .joinedChannel 1 "#a", timedLine "before" 1000000,
    .partedChannel 1 "#a", .setHistoryPaging 1 true]

def joinsLater : List AppCall :=
  [.setStatus 1 .registered, .setHistoryPaging 1 true, .joinedChannel 1 "#a",
    timedLine "after" 2000000]

def lost : AppCall := .setStatus 1 (.disconnected "Lost.")

theorem resume_recovers_parted :
    let s := run toAsciiLowercase [⟨1, "net", ["#a"]⟩] (partsAgain ++ lost :: joinsLater ++ [lost])
    s.historyResume 1 = [(1, "#a", ⟨none, some 2⟩)] ∧
      ((s.historyResume 1).map (·.1)).Nodup := by
  refine ⟨by decide +kernel, ?_⟩
  refine (resume_recovers toAsciiLowercase _ _ (by decide) ?_).2.1 1
  simp [Machine.Along, partsAgain, joinsLater, lost, timedLine, Fits]

/-- The first disconnect since which nothing was answered may have left no point: a channel it found
parted is resumed from a line that came later. -/
theorem resumed_from_later_line :
    ¬ ∀ (configs : List NetworkConfig) (before between : List AppCall) (network : NetworkId)
      (id : ConversationId) (c : Conversation) (first last : String) (point : ResumePoint),
      (configs.map (·.id)).Nodup →
      (∀ i ∈ before, ∀ reason, i ≠ .setStatus network (.disconnected reason)) →
      Machine.Along (fun s i => ¬ Answers toAsciiLowercase id s i) (call toAsciiLowercase)
        (run toAsciiLowercase configs (before ++ [.setStatus network (.disconnected first)]))
        between →
      let before' := before ++ .setStatus network (.disconnected first) :: between
      let s := run toAsciiLowercase configs before'
      s.conversation id = some c → c.network = network → c.kind = .channel →
      id ∈ s.activeChannels → network ∈ s.historyPaging →
      pointOf ((run toAsciiLowercase configs before).log id) = some point →
      (id, c.name, point) ∈ (run toAsciiLowercase configs
        (before' ++ [.setStatus network (.disconnected last)])).historyResume network := by
  intro h
  have hans : ∀ (t : AppState) (i : AppCall), (∀ reason n, i ≠ .setStatus n (.disconnected reason)) →
      (t.call toAsciiLowercase i).conversations.any (·.id = 1) = true →
      reopens i = false ∨ (∃ n status, i = .setStatus n status) → ¬ Answers toAsciiLowercase 1 t i := by
    intro t i hi hk hr ha
    cases ha with
    | ended he =>
      obtain ⟨c, reason, -, -, -, -, rfl⟩ := he
      exact hi reason c.network rfl
    | removed _ hno =>
      obtain ⟨c, hc, hid⟩ := List.any_eq_true.mp hk
      exact hno ⟨c, hc, of_decide_eq_true hid⟩
    | _ =>
      rcases hr with hr | ⟨n, status, hr⟩
      · cases hr
      · cases hr
  obtain ⟨c, hc⟩ := Option.isSome_iff_exists.mp (show ((run toAsciiLowercase [⟨1, "net", ["#a"]⟩]
    (partsAgain ++ lost :: joinsLater)).conversation 1).isSome = true by decide +kernel)
  have hname : ((run toAsciiLowercase [⟨1, "net", ["#a"]⟩] (partsAgain ++ lost :: joinsLater)).conversation 1).all
      (fun c => c.network = 1 && c.kind = .channel && c.name = "#a") = true := by decide +kernel
  rw [hc, Option.all_some] at hname
  simp only [Bool.and_eq_true, decide_eq_true_eq] at hname
  have hmem := h [⟨1, "net", ["#a"]⟩] partsAgain joinsLater 1 1 c "Lost." "Lost." ⟨none, some 1⟩
    (by decide) ?_ ?_ hc hname.1.1 hname.1.2 (by decide +kernel) (by decide +kernel)
    (by decide +kernel)
  · rw [hname.2] at hmem
    revert hmem
    decide +kernel
  · intro i hi reason
    fin_cases hi <;> simp [timedLine]
  · refine ⟨hans _ _ ?_ ?_ ?_, hans _ _ ?_ ?_ ?_, hans _ _ ?_ ?_ ?_, hans _ _ ?_ ?_ ?_, trivial⟩
    all_goals first
      | exact Or.inl rfl
      | exact Or.inr ⟨_, _, rfl⟩
      | decide +kernel
      | simp [timedLine]

end Runs

end AppState

end CayenChat.App
