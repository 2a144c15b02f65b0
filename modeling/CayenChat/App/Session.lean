import CayenChat.App.Networks

/-! # What a session leaves open

The replies a conversation waits for, its paging and the point it is resumed
from. Few calls touch them; the others leave all three as they are.
-/

namespace CayenChat.App

namespace AppState

def session (s : AppState) : Map ConversationId (List (Message × Bool)) ×
    Map ConversationId OlderHistory × Map ConversationId ResumePoint :=
  (s.pendingHistory, s.olderHistory, s.resumePoints)

variable {s s' s'' : AppState} {id : ConversationId} {network : NetworkId}

section Frame

theorem addConversation_session (s : AppState) (network : NetworkId) (kind : ConversationKind)
    (name : String) : (s.addConversation network kind name).1.session = s.session := by
  rcases addConversation_eq s network kind name with heq | ⟨-, -, heq⟩
  · rw [heq]
  · rw [heq]
    rfl

theorem ensureChannel_session (s : AppState) (network : NetworkId) (name : String) :
    (s.ensureChannel network name).1.session = s.session := by
  unfold ensureChannel
  split
  · rfl
  · exact addConversation_session s network .channel name

theorem selectChannel_session (s : AppState) (id : ConversationId) :
    (s.selectChannel id).session = s.session := by
  unfold selectChannel
  split <;> rfl

theorem selectServer_session (s : AppState) (id : NetworkId) :
    (s.selectServer id).session = s.session := by
  unfold selectServer
  split <;> rfl

theorem visitAttention_session (s : AppState) : s.visitAttention.session = s.session := by
  unfold visitAttention
  split
  · rfl
  · exact selectChannel_session _ _

theorem dispatch_session (s : AppState) (command : Command) :
    (s.dispatch command).session = s.session :=
  dispatch_rule (P := fun t => t.session = s.session) command rfl (selectChannel_session s)
    (selectServer_session s) fun _ => visitAttention_session s

theorem privateConversation_session (s : AppState) (network : NetworkId) (peerKey name : String)
    (create : Bool) : (s.privateConversation network peerKey name create).1.session = s.session := by
  have ha := addConversation_session s network (.privateTo peerKey) name
  unfold privateConversation
  split
  · rfl
  split
  · rfl
  dsimp only
  split
  · exact ha
  · dsimp only
    split <;> exact ha

theorem renamePrivate_session (s : AppState) (network : NetworkId) (fromKey toKey toName : String) :
    (s.renamePrivate network fromKey toKey toName).1.session = s.session := by
  unfold renamePrivate
  split
  · rfl
  split <;> rfl

theorem joinedChannel_session (s : AppState) (network : NetworkId) (name : String) :
    (s.joinedChannel network name).session = s.session := by
  have he := ensureChannel_session s network name
  unfold joinedChannel
  dsimp only
  split <;> exact he

theorem noteAttention_session (s : AppState) (id : ConversationId) :
    (s.noteAttention id).session = s.session := by
  unfold noteAttention
  split <;> rfl

theorem markUnread_session (s : AppState) (id : ConversationId) :
    (s.markUnread id).session = s.session := by
  unfold markUnread
  split <;> rfl

theorem appendToConversation_session (s : AppState) (id : ConversationId) (m : Message) :
    (s.appendToConversation id m).1.session = s.session := by
  obtain ⟨duplicates, hd, -, -⟩ := admitMessage_eq s id m
  unfold appendToConversation
  dsimp only
  rw [hd]
  split
  · rfl
  split
  · rfl
  split <;> rfl

theorem appendReplyLine_session (id : ConversationId) (r : AppState × ℕ) (line : Message × Bool) :
    (appendReplyLine id r line).1.session = r.1.session := by
  have ha := appendToConversation_session r.1 id line.1
  unfold appendReplyLine
  dsimp only
  split
  · split
    · exact (noteAttention_session _ id).trans ha
    · exact ha
  · exact ha

theorem appendReply_session (id : ConversationId) (lines : List (Message × Bool))
    (r : AppState × ℕ) : (lines.foldl (appendReplyLine id) r).1.session = r.1.session := by
  induction lines generalizing r with
  | nil => rfl
  | cons line lines ih => exact (ih _).trans (appendReplyLine_session id r line)

theorem appendChannelLineAt_session (s : AppState) (network : NetworkId) (name text : String)
    (line : Line) (info : MessageMeta) :
    (s.appendChannelLineAt network name text line info).session = s.session := by
  unfold appendChannelLineAt
  split
  · exact appendToConversation_session s _ _
  · rfl

theorem joinAlert_session (s : AppState) (network : NetworkId) (name text : String)
    (info : MessageMeta) :
    (s.appendRequestedJoinAlertAt network name text info).session = s.session := by
  have he := ensureChannel_session s network name
  unfold appendRequestedJoinAlertAt
  dsimp only
  split
  · exact (appendChannelLineAt_session _ network name text .alert info).trans he
  · exact he

theorem openBlock_session (s : AppState) (id : ConversationId) (request : ℕ) :
    (s.openBlock id request).session = s.session := by
  unfold openBlock
  split <;> rfl

theorem placeStreamed_session (s : AppState) (id : ConversationId) (m : Message) (attention : Bool) :
    (s.placeStreamed id m attention).session = s.session := by
  unfold placeStreamed
  dsimp only
  split <;> split <;> rfl

theorem pushOlderHistoryLine_session (s : AppState) (id : ConversationId) (request : ℕ)
    (line : TimelineLine) : (s.pushOlderHistoryLine id request line).1.session = s.session := by
  have ho := openBlock_session s id request
  unfold pushOlderHistoryLine
  split
  · rfl
  dsimp only
  split
  · exact ho
  split
  · exact ho
  split
  · exact ho
  split
  · exact ho
  · exact (placeStreamed_session _ id _ _).trans ho

/-- The calls that open or close something about history, or remove conversations. -/
def reopens : AppCall → Bool
  | .syncNetworks .. | .resetNetwork .. | .closePrivate .. | .setStatus .. | .partedChannel ..
  | .historyRequested .. | .historyRequestedFor .. | .historyResumed .. | .pushHistoryLine ..
  | .finishHistoryFor .. | .requestOlderHistory .. | .finishOlderHistory .. => true
  | _ => false

theorem call_session (lowercase : String → String) (s : AppState) {i : AppCall}
    (hi : reopens i = false) : (s.call lowercase i).session = s.session := by
  have harr : ∀ {i}, arranges i = true → (s.call lowercase i).session = s.session := by
    intro i hi
    obtain ⟨cs, orders, ranks, groups, next, -, -, h⟩ := call_arranged (s := s) lowercase hi
    rw [h]
    rfl
  cases i with
  | setChannelOrder | moveConversation | moveAfter | setGroups | createGroup | renameGroup
  | deleteGroup | setGroupCollapsed | moveToGroup | returnToServer => exact harr rfl
  | setCasemapping network mapping => rfl
  | joinedChannel network name => exact joinedChannel_session s network name
  | privateConversation network peerKey name create =>
    exact privateConversation_session s network peerKey name create
  | renamePrivate network fromKey toKey toName =>
    exact renamePrivate_session s network fromKey toKey toName
  | dispatch command => exact dispatch_session s command
  | takeReveal => rfl
  | markUnread id => exact markUnread_session s id
  | highlight id =>
    change (s.highlight id).session = s.session
    unfold highlight
    split <;> rfl
  | markHighlighted network name =>
    change (s.markHighlighted network name).session = s.session
    unfold markHighlighted
    split
    · split <;> rfl
    · rfl
  | noteAttention id => exact noteAttention_session s id
  | appendServerMessageAt id text info =>
    change (s.appendServerMessageAt id text info).session = s.session
    unfold appendServerMessageAt
    split <;> rfl
  | appendSystemMessage id text =>
    change (s.appendSystemMessage id text).session = s.session
    unfold appendSystemMessage
    split <;> rfl
  | appendDiagnosticMessage id text =>
    change (s.appendDiagnosticMessage id text).session = s.session
    unfold appendDiagnosticMessage
    split <;> rfl
  | appendConversationMessage id sender text kind info unread =>
    have ha := appendToConversation_session s id (sentMessage sender text kind info)
    change (s.appendConversationMessage id sender text kind info unread).1.session = s.session
    unfold appendConversationMessage
    dsimp only
    split
    · exact ha
    · dsimp only
      split
      · exact (markUnread_session _ id).trans ha
      · exact ha
  | appendConversationActivity id text => exact appendToConversation_session s id _
  | appendNetworkActivity id text =>
    change (s.appendNetworkActivity id text).session = s.session
    unfold appendNetworkActivity
    refine List.foldlRecOn (motive := fun t : AppState => t.session = s.session) _ _ rfl
      fun t ht c _ => ?_
    exact (appendToConversation_session t c _).trans ht
  | appendChannelMessageAt network name sender text kind info =>
    change (s.appendChannelMessageAt network name sender text kind info).1.session = s.session
    unfold appendChannelMessageAt
    split
    · change (s.appendServerMessageAt network _ info).session = s.session
      unfold appendServerMessageAt
      split <;> rfl
    · rename_i id _
      have ha := appendToConversation_session s id (sentMessage sender text kind info)
      dsimp only
      split
      · exact ha
      · dsimp only
        split
        · exact (markUnread_session _ id).trans ha
        · exact ha
  | appendChannelActivityAt network name text info =>
    exact appendChannelLineAt_session s network name text .activity info
  | appendChannelAlertAt network name text info =>
    exact appendChannelLineAt_session s network name text .alert info
  | appendRequestedJoinAlertAt network name text info =>
    exact joinAlert_session s network name text info
  | confirmMessage id sequence text kind info =>
    change (s.confirmMessage id sequence text kind info).1.session = s.session
    unfold confirmMessage
    split
    · rfl
    · obtain ⟨duplicates, hd, -, -⟩ := admitMessage_eq (s.setMessages id (edited (s.log id) sequence
        (confirmed text kind info))) id (confirmed text kind info ‹_›)
      dsimp only
      rw [hd]
      rfl
  | failMessage id sequence => rfl
  | setHistoryPaging network available =>
    change (s.setHistoryPaging network available).session = s.session
    unfold setHistoryPaging
    split <;> rfl
  | pushOlderHistoryLine id request line => exact pushOlderHistoryLine_session s id request line
  | syncNetworks | resetNetwork | closePrivate | setStatus | partedChannel | historyRequested
  | historyRequestedFor | historyResumed | pushHistoryLine | finishHistoryFor
  | requestOlderHistory | finishOlderHistory => cases hi

end Frame

section Closing

/-- Replies and pages are closed for some conversations, and nothing is opened. -/
structure Closes (s s' : AppState) : Prop where
  pending : ∀ j lines, s'.pendingHistory.lookup j = some lines →
    s.pendingHistory.lookup j = some lines
  older : ∀ j page, s'.olderHistory.lookup j = some page → s.olderHistory.lookup j = some page

theorem Closes.of_session (h : s'.session = s.session) : s.Closes s' := by
  simp only [session, Prod.mk.injEq] at h
  constructor
  · intro j lines hj
    rwa [h.1] at hj
  · intro j page hj
    rwa [h.2.1] at hj

theorem Closes.trans (h : s.Closes s') (h' : s'.Closes s'') : s.Closes s'' where
  pending j lines hj := h.pending j lines (h'.pending j lines hj)
  older j page hj := h.older j page (h'.older j page hj)

theorem lookup_of_erase {α β : Type} [DecidableEq α] {m : Map α β} {a b : α} {v : β}
    (h : (m.erase b).lookup a = some v) : a ≠ b ∧ m.lookup a = some v := by
  rw [Map.lookup_erase] at h
  split at h
  · cases h
  · exact ⟨‹_›, h⟩

theorem lookup_eraseAll {β : Type} {m : Map ConversationId β} (ids : List ConversationId)
    (j : ConversationId) : (ids.foldl (fun m id => m.erase id) m).lookup j =
      if j ∈ ids then none else m.lookup j := by
  induction ids generalizing m with
  | nil => simp
  | cons id ids ih =>
    rw [List.foldl_cons, ih, Map.lookup_erase]
    by_cases hj : j = id <;> by_cases hm : j ∈ ids <;> simp [hj, hm]

theorem forgetAll_closes (s : AppState) (network : NetworkId) (ids : List ConversationId) :
    s.Closes (s.forgetAll network ids) := by
  induction ids generalizing s with
  | nil => exact .of_session rfl
  | cons id ids ih =>
    refine Closes.trans ?_ (ih (s.forgetConversation network id))
    exact ⟨fun j lines hj => (lookup_of_erase hj).2, fun j page hj => (lookup_of_erase hj).2⟩

theorem removeConversations_closes (s : AppState) (network : NetworkId) :
    s.Closes (s.removeConversations network).1 := by
  have hf := forgetAll_closes { s with
    conversations := s.conversations.filter (·.network ≠ network)
    channelIds := Map.retain (fun key => key.1 ≠ network) s.channelIds
    casemappings := s.casemappings.erase network } network (s.conversationsOf network)
  exact ⟨hf.pending, hf.older⟩

theorem repairSelection_session (s : AppState) : s.repairSelection.session = s.session := by
  unfold repairSelection
  dsimp only
  split <;> split <;> rfl

theorem ensureConfiguredChannels_session (s : AppState) (network : NetworkId)
    (channels : List String) :
    (s.ensureConfiguredChannels network channels).1.session = s.session := by
  unfold ensureConfiguredChannels
  refine List.foldlRecOn (motive := fun r : AppState × Option ConversationId =>
    r.1.session = s.session) channels _ rfl fun r hr name _ => ?_
  refine Eq.trans ?_ hr
  unfold ensureConfiguredChannel
  split
  · rfl
  · exact addConversation_session r.1 network .channel name

theorem syncNetworks_closes (s : AppState) (configs : List NetworkConfig) :
    s.Closes (s.syncNetworks configs) := by
  have hgone : ∀ ids : List NetworkId,
      s.Closes (ids.foldl (fun s id => (forgetNetwork s id).1) s) := fun ids => by
    refine List.foldlRecOn (motive := s.Closes) ids _ (.of_session rfl) fun t ht id _ => ?_
    exact (ht.trans (removeConversations_closes t id)).trans (.of_session rfl)
  unfold AppState.syncNetworks
  dsimp only
  refine Closes.trans ?_ (.of_session (repairSelection_session _))
  refine List.foldlRecOn (motive := s.Closes) _ _ ?_ fun t ht config _ => ?_
  · exact (hgone _).trans (.of_session rfl)
  · exact ht.trans (.of_session (ensureConfiguredChannels_session t config.id config.channels))

theorem resetNetwork_closes (s : AppState) (network : NetworkId) (channels : List String) :
    s.Closes (s.resetNetwork network channels) := by
  unfold resetNetwork
  split
  · exact .of_session rfl
  · refine (removeConversations_closes s network).trans (.of_session ?_)
    refine (repairSelection_session _).trans ?_
    exact ensureConfiguredChannels_session _ network channels

theorem closePrivate_closes (s : AppState) (id : ConversationId) :
    s.Closes (s.closePrivate id).1 := by
  unfold closePrivate
  split
  · exact .of_session rfl
  · exact ⟨fun j lines hj => (lookup_of_erase hj).2, fun j page hj => (lookup_of_erase hj).2⟩

theorem setStatus_closes (s : AppState) (id : NetworkId) (status : ConnectionStatus) :
    s.Closes (s.setStatus id status) := by
  have herase : ∀ {β : Type} {m : Map ConversationId β} {ids : List ConversationId} {j : ℕ} {v : β},
      (ids.foldl (fun m id => m.erase id) m).lookup j = some v → m.lookup j = some v := by
    intro β m ids j v h
    rw [lookup_eraseAll] at h
    split at h
    · cases h
    · exact h
  unfold setStatus
  split
  · exact .of_session rfl
  cases status with
  | disconnected reason => exact ⟨fun j lines hj => herase hj, fun j page hj => herase hj⟩
  | _ => exact .of_session rfl

theorem partedChannel_closes (s : AppState) (network : NetworkId) (name : String) :
    s.Closes (s.partedChannel network name) := by
  unfold partedChannel
  split
  · exact ⟨fun j lines hj => hj, fun j page hj => (lookup_of_erase hj).2⟩
  · exact .of_session rfl

end Closing

section Kept

/-- Replies consist of history, and a page in flight is of a paging that goes on. -/
structure SessionKept (s : AppState) : Prop where
  requested : ∀ j lines, s.pendingHistory.lookup j = some lines →
    ∀ line ∈ lines, line.1.isHistory = true
  paging : ∀ j page, s.olderHistory.lookup j = some page → page.inFlight.isSome = true →
    page.finished = false

theorem SessionKept.close (h : s.SessionKept) (hc : s.Closes s') : s'.SessionKept where
  requested j lines hj := h.requested j lines (hc.pending j lines hj)
  paging j page hj := h.paging j page (hc.older j page hj)

theorem SessionKept.of_session (h : s.SessionKept) (hs : s'.session = s.session) :
    s'.SessionKept := h.close (.of_session hs)

theorem SessionKept.await (h : s.SessionKept) (id : ConversationId) {lines : List (Message × Bool)}
    (hl : ∀ line ∈ lines, line.1.isHistory = true)
    (points : Map ConversationId ResumePoint) :
    ({ s with pendingHistory := s.pendingHistory.insert id lines, resumePoints := points } :
      AppState).SessionKept := by
  constructor
  · intro j lines' hj
    change (s.pendingHistory.insert id lines).lookup j = some lines' at hj
    rw [Map.lookup_insert] at hj
    split at hj
    · exact Option.some.inj hj ▸ hl
    · exact h.requested j lines' hj
  · exact h.paging

theorem SessionKept.page (h : s.SessionKept) (id : ConversationId) {page : OlderHistory}
    (hp : page.inFlight.isSome = true → page.finished = false) (request : ℕ) :
    ({ s with nextHistoryRequest := request, olderHistory := s.olderHistory.insert id page } :
      AppState).SessionKept := by
  constructor
  · exact h.requested
  · intro j page' hj
    change (s.olderHistory.insert id page).lookup j = some page' at hj
    rw [Map.lookup_insert] at hj
    split at hj
    · exact Option.some.inj hj ▸ hp
    · exact h.paging j page' hj

theorem settleBlock_session (s : AppState) (id : ConversationId) (first stop : ℤ)
    (note : Option Message) : (s.settleBlock id first stop note).1.session = s.session := rfl

theorem SessionKept.finishHistoryFor (h : s.SessionKept) (id : ConversationId)
    (gapNote : Option String) : (s.finishHistoryFor id gapNote).1.SessionKept := by
  unfold AppState.finishHistoryFor
  split
  · exact h
  have he : ({ s with
      pendingHistory := s.pendingHistory.erase id
      resumePoints := s.resumePoints.erase id } : AppState).SessionKept :=
    h.close ⟨fun j lines hj => (lookup_of_erase hj).2, fun j page hj => hj⟩
  dsimp only
  split
  · exact he
  refine he.of_session ((appendReply_session id _ _).trans ?_)
  split
  · exact appendReplyLine_session id _ _
  · rfl

theorem SessionKept.finishOlderHistory (h : s.SessionKept) (id : ConversationId) (request : ℕ)
    (beginning : Bool) : (s.finishOlderHistory id request beginning).1.SessionKept := by
  unfold AppState.finishOlderHistory
  split
  · exact h
  set s₁ : AppState := { s with
    olderHistory := Map.adjust s.olderHistory id fun state => { state with inFlight := none }
    historyBlocks := s.historyBlocks.erase id } with hs₁
  have h₁ : s₁.SessionKept := by
    constructor
    · exact h.requested
    · intro j page hj hin
      rw [hs₁] at hj
      change (Map.adjust s.olderHistory id _).lookup j = some page at hj
      rw [Map.lookup_adjust] at hj
      split at hj
      · obtain ⟨page', -, rfl⟩ := Option.map_eq_some_iff.mp hj
        cases hin
      · exact h.paging j page hj hin
  have hsettled : ∀ r : AppState × ℕ, r.1.session = s₁.session →
      (if beginning || r.2 = 0 then
        (({ r.1 with olderHistory := r.1.olderHistory.insert id { finished := true } } :
          AppState), r.2)
      else r).1.SessionKept := by
    intro r hr
    have hk := h₁.of_session hr
    split
    · exact hk.page id (fun hin => by cases hin) r.1.nextHistoryRequest
    · exact hk
  dsimp only
  apply hsettled
  split
  · split
    · exact settleBlock_session s₁ id _ _ none
    · rfl
  · rfl

theorem SessionKept.call (h : s.SessionKept) (lowercase : String → String) (i : AppCall) :
    (s.call lowercase i).SessionKept := by
  by_cases hi : reopens i = true
  swap
  · exact h.of_session (call_session lowercase s (Bool.eq_false_of_not_eq_true hi))
  cases i with
  | syncNetworks configs => exact h.close (syncNetworks_closes s configs)
  | resetNetwork network channels => exact h.close (resetNetwork_closes s network channels)
  | closePrivate id => exact h.close (closePrivate_closes s id)
  | setStatus id status => exact h.close (setStatus_closes s id status)
  | partedChannel network name => exact h.close (partedChannel_closes s network name)
  | historyRequestedFor id => exact h.await id (fun line hl => by cases hl) _
  | historyRequested network name =>
    change (s.historyRequested network name).SessionKept
    unfold historyRequested
    split
    · exact h.await _ (fun line hl => by cases hl) _
    · exact h
  | historyResumed network name =>
    change (s.historyResumed network name).SessionKept
    unfold historyResumed
    split
    · exact h.await _ (fun line hl => by cases hl) s.resumePoints
    · exact h
  | pushHistoryLine id line =>
    change (s.pushHistoryLine id line).1.SessionKept
    unfold pushHistoryLine
    split
    · exact h
    · rename_i lines hl
      refine h.await id (fun line' hm => ?_) s.resumePoints
      rcases List.mem_append.mp hm with hm | hm
      · exact h.requested id lines hl line' hm
      · rw [List.mem_singleton.mp hm]
        rfl
  | finishHistoryFor id gapNote => exact h.finishHistoryFor id gapNote
  | requestOlderHistory id =>
    change (s.requestOlderHistory id).1.SessionKept
    unfold requestOlderHistory
    split
    · exact h
    dsimp only
    split
    · exact h
    split
    · exact h
    · exact h.page id (fun _ => rfl) _
  | finishOlderHistory id request beginning => exact h.finishOlderHistory id request beginning
  | _ => cases hi

theorem withNetworks_session (configs : List NetworkConfig) :
    (withNetworks configs).session = (∅, ∅, ∅) := by
  have hrun : ∀ s : AppState, (configs.foldl (fun s config =>
      ({ s with
        networks := s.networks ++ [⟨config.id, config.name⟩]
        statuses := s.statuses.insert config.id (.disconnected "Not connected.") } :
        AppState).ensureConfiguredChannels config.id config.channels |>.1) s).session =
      s.session := by
    intro s
    refine List.foldlRecOn (motive := fun t : AppState => t.session = s.session) configs _ rfl
      fun t ht config _ => ?_
    exact (ensureConfiguredChannels_session _ config.id config.channels).trans ht
  unfold withNetworks
  dsimp only
  split <;> exact hrun _

theorem run_sessionKept (lowercase : String → String) (configs : List NetworkConfig)
    (is : List AppCall) : (run lowercase configs is).SessionKept := by
  refine Machine.exec_invariant' SessionKept (fun s i h => h.call lowercase i) ?_
  have h := withNetworks_session configs
  simp only [session, Prod.mk.injEq] at h
  constructor
  · intro j lines hj
    rw [h.1] at hj
    cases hj
  · intro j page hj
    rw [h.2.1] at hj
    cases hj

end Kept

end AppState

end CayenChat.App
