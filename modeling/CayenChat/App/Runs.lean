import CayenChat.App.Simulation

/-! # Runs of calls

Conversations are added, removed and arranged without touching the lines of the
others, so that a whole run of calls is a run of events of the logs.
-/

namespace CayenChat.App

namespace AppState

variable {s s' : AppState} {id : ConversationId} {network : NetworkId}

section Structure

theorem shelf_congr (hlog : s'.log = s.log) (hsrv : s'.serverMessages = s.serverMessages)
    (ht : s'.nextMessageSequence = s.nextMessageSequence)
    (hf : s'.olderSequenceFloor = s.olderSequenceFloor)
    (hb : s'.historyBlocks = s.historyBlocks) (hd : s'.duplicates = s.duplicates)
    (ha : s'.attention = s.attention) : s'.shelf = s.shelf := by
  have hl : s'.lines = s.lines := by
    funext source
    cases source with
    | conversation j => exact congrFun hlog j
    | server n =>
      change (s'.serverMessages.lookup n).getD [] = _
      rw [hsrv]
      rfl
  have hfil : s'.filterOf = s.filterOf := by
    funext j
    unfold filterOf
    rw [hd]
  unfold shelf
  rw [hl, ht, hf, hb, hfil, ha]

theorem log_eq_iff (h : (s.conversations.map (·.id)).Nodup) (id : ConversationId)
    {l : List Message} (hl : l ≠ []) :
    s.log id = l ↔ ∃ c ∈ s.conversations, c.id = id ∧ c.messages = l := by
  unfold log
  constructor
  · intro he
    cases hc : s.conversation id with
    | none =>
      rw [hc] at he
      exact absurd he.symm hl
    | some c =>
      rw [hc] at he
      obtain ⟨hm, hid⟩ := conversation_mem hc
      exact ⟨c, hm, hid, he⟩
  · rintro ⟨c, hm, rfl, rfl⟩
    rw [conversation_eq h hm]
    rfl

theorem log_eq_of_mem (h : (s.conversations.map (·.id)).Nodup)
    (h' : (s'.conversations.map (·.id)).Nodup)
    (hm : ∀ c, c.messages ≠ [] → (c ∈ s'.conversations ↔ c ∈ s.conversations)) :
    s'.log = s.log := by
  funext j
  by_cases hl : s.log j = []
  · by_contra hne
    rw [hl] at hne
    obtain ⟨c, hc, hj, hcm⟩ := (log_eq_iff h' _ hne).mp rfl
    have := (log_eq_iff h j hne).mpr
      ⟨c, (hm c (hcm ▸ hne)).mp hc, hj, hcm⟩
    exact hne (this.symm.trans hl)
  · obtain ⟨c, hc, hj, hcm⟩ := (log_eq_iff h _ hl).mp rfl
    exact (log_eq_iff h' _ hl).mpr ⟨c, (hm c (hcm ▸ hl)).mpr hc, hj, hcm⟩

theorem Arranged.follows (h : s.Arranged s') : s.Follows [] s' := by
  intro hi
  obtain ⟨cs, orders, ranks, groups, next, hp, -, rfl⟩ := h
  have hn : (cs.map (·.id)).Nodup := (hp.map _).nodup_iff.mpr hi.nodup
  refine ⟨⟨hn, fun c hc => hi.fresh c (hp.mem_iff.mp hc)⟩, ?_⟩
  refine shelf_congr ?_ rfl rfl rfl rfl rfl rfl
  exact log_eq_of_mem hi.nodup hn fun c _ => hp.mem_iff

theorem sortConversations_follows (s : AppState) : s.Follows [] s.sortConversations := by
  intro hi
  have hp : s.sortConversations.conversations.Perm s.conversations := List.perm_insertionSort _ _
  have hn : (s.sortConversations.conversations.map (·.id)).Nodup :=
    (hp.map _).nodup_iff.mpr hi.nodup
  refine ⟨⟨hn, fun c hc => hi.fresh c (hp.mem_iff.mp hc)⟩, ?_⟩
  refine shelf_congr ?_ rfl rfl rfl rfl rfl rfl
  exact log_eq_of_mem hi.nodup hn fun c _ => hp.mem_iff

theorem channelSlot_mem (s : AppState) (network : NetworkId) (name : String) {start stop : ℕ}
    (h : start ≤ stop) :
    start ≤ s.channelSlot network name start stop ∧
      s.channelSlot network name start stop ≤ stop := by
  unfold channelSlot
  cases s.channelRanks.lookup network with
  | none => exact ⟨h, le_rfl⟩
  | some ranks =>
    have hle := Search.partitionPoint_le
      (p := fun c : Conversation => decide (channelRank ranks c.name ≤ channelRank ranks name))
      (l := (s.conversations.take stop).drop start)
    rw [List.length_drop, List.length_take] at hle
    dsimp only
    omega

theorem conversationSlot_le (s : AppState) (network : NetworkId) (isPrivate : Bool) (name : String) :
    s.conversationSlot network isPrivate name ≤ s.conversations.length := by
  have hfind : ∀ {p : Conversation → Bool} {i}, s.conversations.findIdx? p = some i →
      i < s.conversations.length := fun h => (List.findIdx?_eq_some_iff_getElem.mp h).1
  have hindex : ((s.afterLast fun c => c.network = network && (isPrivate || !c.isPrivate)).or
      (s.conversations.findIdx? (·.network = network))).getD (s.emptyNetworkSlot network) ≤
        s.conversations.length := by
    unfold afterLast emptyNetworkSlot
    cases hr : s.conversations.reverse.findIdx? fun c =>
        c.network = network && (isPrivate || !c.isPrivate) with
    | some i => exact Nat.sub_le _ _
    | none =>
      cases hf : s.conversations.findIdx? (·.network = network) with
      | some i => exact (hfind hf).le
      | none =>
        cases he : s.conversations.findIdx? fun c =>
            s.networkPosition network < s.networkPosition c.network with
        | some i => exact (hfind he).le
        | none => exact le_rfl
  unfold conversationSlot
  dsimp only
  split
  · rename_i start hs
    split
    · rcases le_total start (((s.afterLast fun c => c.network = network &&
          (isPrivate || !c.isPrivate)).or (s.conversations.findIdx? (·.network = network))).getD
          (s.emptyNetworkSlot network)) with h | h
      · exact (channelSlot_mem s network name h).2.trans hindex
      · unfold channelSlot
        have := hfind hs
        split
        · exact hindex
        · rw [List.drop_eq_nil_of_le (by rw [List.length_take]; omega)]
          exact this.le
    · exact hindex
  · exact hindex

theorem addConversation_follows (s : AppState) (network : NetworkId) (kind : ConversationKind)
    (name : String) : s.Follows [] (s.addConversation network kind name).1 := by
  unfold addConversation
  split
  · exact .refl s
  intro hi
  have hp : ∀ i c, i ≤ s.conversations.length →
      (s.conversations.insertIdx i c).Perm (c :: s.conversations) := fun i c h =>
    List.perm_insertIdx c _ h
  have hle := conversationSlot_le s network (kind ≠ .channel) name
  set new : Conversation := { id := s.nextConversationId, network, kind, name }
  have hperm := hp _ new hle
  have hn : ((s.conversations.insertIdx (s.conversationSlot network (kind ≠ .channel) name)
      new).map (·.id)).Nodup := by
    refine (hperm.map _).nodup_iff.mpr (List.nodup_cons.mpr ⟨?_, hi.nodup⟩)
    intro hm
    obtain ⟨c, hc, hid⟩ := List.mem_map.mp hm
    exact (hi.fresh c hc).ne hid
  refine ⟨⟨hn, ?_⟩, ?_⟩
  · intro c hc
    rcases List.mem_cons.mp (hperm.mem_iff.mp hc) with rfl | hc
    · exact Nat.lt_succ_self _
    · exact (hi.fresh c hc).trans (Nat.lt_succ_self _)
  · refine shelf_congr ?_ rfl rfl rfl rfl rfl rfl
    refine log_eq_of_mem hi.nodup hn fun c hcm => ?_
    refine hperm.mem_iff.trans ⟨fun hc => ?_, fun hc => .tail _ hc⟩
    rcases List.mem_cons.mp hc with rfl | hc
    · exact absurd rfl hcm
    · exact hc

theorem forgetConversations_shelf (network : NetworkId) (ids : List ConversationId) {b : Shelf}
    (h : s.shelf = { b with lines := fun
      | .conversation j => if j ∈ ids then [] else b.lines (.conversation j)
      | .server n => b.lines (.server n) }) :
    (ids.foldl (fun s id => s.forgetConversation network id) s).shelf =
      (ids.map LogEvent.forget).foldl Shelf.step b := by
  induction ids generalizing s b with
  | nil =>
    rw [List.foldl_nil, h]
    change _ = b
    congr 1
    funext source
    cases source with
    | conversation j => exact if_neg (List.not_mem_nil)
    | server n => rfl
  | cons id ids ih =>
    rw [List.foldl_cons, List.map_cons, List.foldl_cons]
    apply ih
    have hlines : s.lines = _ := congrArg Shelf.lines h
    have hblocks : (fun j => s.historyBlocks.lookup j) = b.blocks := congrArg Shelf.blocks h
    have hfilters : s.filterOf = b.filters := congrArg Shelf.filters h
    have hattention : s.attention = b.attention := congrArg Shelf.attention h
    have htop : s.nextMessageSequence = b.top := congrArg Shelf.top h
    have hfloor : s.olderSequenceFloor = b.floor := congrArg Shelf.floor h
    rw [shelf, Shelf.mk.injEq]
    refine ⟨?_, htop, hfloor, ?_, ?_, ?_⟩
    · change s.lines = _
      rw [hlines]
      funext source
      cases source with
      | server n => rfl
      | conversation j =>
        change (if j ∈ id :: ids then [] else b.lines (.conversation j)) =
          if j ∈ ids then [] else Function.update b.lines (.conversation id) [] (.conversation j)
        by_cases hj : j = id <;> by_cases hm : j ∈ ids <;> simp [hj, hm]
    · funext j
      change (s.historyBlocks.erase id).lookup j = Function.update b.blocks id none j
      rw [Map.lookup_erase, Function.update_apply, ← hblocks]
    · funext j
      change ((s.duplicates.erase id).lookup j).getD {} = Function.update b.filters id {} j
      rw [Map.lookup_erase, Function.update_apply, ← hfilters]
      split_ifs <;> rfl
    · change s.attention.filter (·.1 ≠ id) = b.attention.filter (·.1 ≠ id)
      rw [hattention]

theorem foldl_forget_conversations (network : NetworkId) (ids : List ConversationId) :
    (ids.foldl (fun s id => s.forgetConversation network id) s).conversations = s.conversations ∧
      (ids.foldl (fun s id => s.forgetConversation network id) s).nextConversationId =
        s.nextConversationId := by
  induction ids generalizing s with
  | nil => exact ⟨rfl, rfl⟩
  | cons id ids ih => exact ih

theorem log_removed (h : (s.conversations.map (·.id)).Nodup)
    (h' : (s'.conversations.map (·.id)).Nodup) {ids : List ConversationId}
    (hm : ∀ c, c ∈ s'.conversations ↔ c ∈ s.conversations ∧ c.id ∉ ids) (j : ConversationId) :
    s'.log j = if j ∈ ids then [] else s.log j := by
  split_ifs with hj
  · by_contra hne
    obtain ⟨c, hc, rfl, -⟩ := (log_eq_iff h' _ hne).mp rfl
    exact ((hm c).mp hc).2 hj
  · by_cases hl : s.log j = []
    · rw [hl]
      by_contra hne
      obtain ⟨c, hc, hid, hcm⟩ := (log_eq_iff h' _ hne).mp rfl
      have := (log_eq_iff h j hne).mpr ⟨c, ((hm c).mp hc).1, hid, hcm⟩
      exact hne (this.symm.trans hl)
    · obtain ⟨c, hc, rfl, hcm⟩ := (log_eq_iff h _ hl).mp rfl
      exact (log_eq_iff h' _ hl).mpr ⟨c, (hm c).mpr ⟨hc, hj⟩, rfl, hcm⟩

theorem mem_conversationsOf (h : (s.conversations.map (·.id)).Nodup) {c : Conversation}
    (hc : c ∈ s.conversations) : c.id ∈ s.conversationsOf network ↔ c.network = network := by
  constructor
  · intro hm
    obtain ⟨c', hc', hid⟩ := List.mem_map.mp hm
    obtain ⟨hc', hn⟩ := List.mem_filter.mp hc'
    rw [← List.inj_on_of_nodup_map h hc' hc hid]
    exact of_decide_eq_true hn
  · intro hn
    exact List.mem_map_of_mem (List.mem_filter.mpr ⟨hc, decide_eq_true hn⟩)

theorem mem_eraseP (h : (s.conversations.map (·.id)).Nodup) {c : Conversation}
    (hf : s.conversations.find? (fun c => c.id = id && c.isPrivate) = some c) (c' : Conversation) :
    c' ∈ s.conversations.eraseP (fun c => c.id = id && c.isPrivate) ↔
      c' ∈ s.conversations ∧ c'.id ≠ id := by
  have hc := List.find?_some hf
  obtain ⟨a, l₁, l₂, -, ha, hl, he⟩ := List.exists_of_eraseP
    (p := fun c => c.id = id && c.isPrivate) (List.mem_of_find?_eq_some hf) hc
  rw [Bool.and_eq_true, decide_eq_true_eq] at ha
  rw [he, hl]
  rw [hl, List.map_append, List.map_cons, List.nodup_middle, List.nodup_cons,
    ← List.map_append] at h
  simp only [List.mem_append, List.mem_cons]
  constructor
  · intro hm
    refine ⟨hm.imp_right Or.inr, fun hid => h.1 ?_⟩
    rw [ha.1, ← hid]
    exact List.mem_map_of_mem (List.mem_append.mpr hm)
  · rintro ⟨hm | rfl | hm, hne⟩
    · exact Or.inl hm
    · exact absurd ha.1 hne
    · exact Or.inr hm

theorem removeConversations_follows (s : AppState) (network : NetworkId) :
    s.Follows ((s.conversationsOf network).map .forget) (s.removeConversations network).1 := by
  intro hi
  unfold removeConversations
  dsimp only
  set s₁ : AppState := { s with
    conversations := s.conversations.filter (·.network ≠ network)
    channelIds := Map.retain (fun key => key.1 ≠ network) s.channelIds
    casemappings := s.casemappings.erase network } with hs₁
  obtain ⟨hcs, hnext⟩ := foldl_forget_conversations (s := s₁) network (s.conversationsOf network)
  have hi₁ : s₁.Ids := ⟨hi.nodup.sublist (List.filter_sublist.map _),
    fun c hc => hi.fresh c (List.mem_filter.mp hc).1⟩
  change (List.foldl (fun s id => s.forgetConversation network id) s₁
    (s.conversationsOf network)).Ids ∧ _
  constructor
  · exact hi₁.congr (by rw [hcs]) hnext
  · apply forgetConversations_shelf network
    unfold shelf
    congr 1
    funext source
    cases source with
    | server n => rfl
    | conversation j =>
      refine log_removed hi.nodup hi₁.nodup (fun c => List.mem_filter.trans ?_) j
      refine and_congr_right fun hc => ?_
      change _ ↔ c.id ∉ s.conversationsOf network
      rw [mem_conversationsOf hi.nodup hc, decide_eq_true_eq]

theorem clear_follows (s : AppState) (id : NetworkId) {s' : AppState}
    (hs : s'.shelf = ({ s with serverMessages := s.serverMessages.erase id } : AppState).shelf)
    (hc : s'.conversations = s.conversations)
    (hn : s'.nextConversationId = s.nextConversationId) : s.Follows [.clear id] s' := by
  refine .single (fun h => h.congr (by rw [hc]) hn) fun _ => ?_
  rw [hs]
  unfold shelf Shelf.step Shelf.setLines
  dsimp only
  congr 1
  funext source
  rw [Function.update_apply]
  cases source with
  | conversation j => rfl
  | server n =>
    simp only [Source.server.injEq]
    change ((s.serverMessages.erase id).lookup n).getD [] = _
    rw [Map.lookup_erase]
    split_ifs <;> rfl

def leaveEvents (s : AppState) (network : NetworkId) : List LogEvent :=
  (s.conversationsOf network).map .forget ++ [.clear network]

theorem forgetNetwork_follows (s : AppState) (id : NetworkId) :
    s.Follows (s.leaveEvents id) (s.forgetNetwork id).1 :=
  (removeConversations_follows s id).trans (clear_follows _ id rfl rfl rfl)

def goneEvents : AppState → List NetworkId → List LogEvent
  | _, [] => []
  | s, id :: ids => s.leaveEvents id ++ goneEvents (s.forgetNetwork id).1 ids

theorem goneEvents_follows (s : AppState) (ids : List NetworkId) :
    s.Follows (s.goneEvents ids) (ids.foldl (fun s id => (forgetNetwork s id).1) s) := by
  induction ids generalizing s with
  | nil => exact .refl s
  | cons id ids ih => exact (forgetNetwork_follows s id).trans (ih _)

theorem ensureConfiguredChannel_follows (s : AppState) (network : NetworkId) (name : String) :
    s.Follows [] (s.ensureConfiguredChannel network name).1 := by
  unfold ensureConfiguredChannel
  split
  · exact .refl s
  · exact addConversation_follows s network .channel name

theorem ensureConfiguredChannels_follows (s : AppState) (network : NetworkId)
    (channels : List String) : s.Follows [] (s.ensureConfiguredChannels network channels).1 := by
  unfold ensureConfiguredChannels
  suffices h : ∀ r : AppState × Option ConversationId, s.Follows [] r.1 →
      s.Follows [] (channels.foldl (fun r channel =>
        let ensured := r.1.ensureConfiguredChannel network channel
        (ensured.1, r.2.or ensured.2)) r).1 from h _ (.refl s)
  induction channels with
  | nil => exact fun _ h => h
  | cons channel channels ih =>
    intro r h
    exact ih _ (h.trans (ensureConfiguredChannel_follows r.1 network channel))

theorem ensureChannel_follows (s : AppState) (network : NetworkId) (name : String) :
    s.Follows [] (s.ensureChannel network name).1 := by
  unfold ensureChannel
  split
  · exact .refl s
  · exact addConversation_follows s network .channel name

theorem Follows.ite {p : Prop} [Decidable p] {es : List LogEvent} {s'' : AppState}
    (h : s.Follows es s') (h' : s.Follows es s'') : s.Follows es (if p then s' else s'') := by
  split
  · exact h
  · exact h'

theorem repairSelection_follows (s : AppState) : s.Follows [] s.repairSelection := by
  unfold repairSelection
  dsimp only
  exact .ite (.refl s) (.quiet rfl rfl rfl)

theorem addedChannels_follows (s : AppState) (added : List NetworkConfig) :
    s.Follows [] (added.foldl (fun s config =>
      (ensureConfiguredChannels s config.id config.channels).1) s) := by
  induction added generalizing s with
  | nil => exact .refl s
  | cons config added ih =>
    exact (ensureConfiguredChannels_follows s config.id config.channels).trans (ih _)

def syncEvents (s : AppState) (configs : List NetworkConfig) : List LogEvent :=
  s.goneEvents ((s.networks.map (·.id)).filter fun id => !configs.any (·.id = id))

theorem syncNetworks_follows (s : AppState) (configs : List NetworkConfig) :
    s.Follows (s.syncEvents configs) (s.syncNetworks configs) := by
  have h := goneEvents_follows s ((s.networks.map (·.id)).filter fun id =>
    !configs.any (·.id = id))
  unfold syncNetworks
  dsimp only
  rw [syncEvents, ← List.append_nil (goneEvents _ _)]
  refine h.trans (Follows.after ?_ (repairSelection_follows _))
  refine Follows.after ?_ (addedChannels_follows _ _)
  refine Follows.after ?_ (sortConversations_follows _)
  exact .quiet rfl rfl rfl

theorem empty_ordered (selected : Selection) :
    ({ selected } : AppState).Ids ∧ ({ selected } : AppState).shelf.Ordered := by
  have hl : ∀ source, ({ selected } : AppState).shelf.lines source = [] := by
    rintro (j | n) <;> rfl
  refine ⟨⟨List.nodup_nil, fun c hc => by cases hc⟩, ?_⟩
  constructor
  · exact fun source => hl source ▸ List.Pairwise.nil
  · intro source
    rw [hl]
    exact Nat.zero_le _
  · intro source m hm
    rw [hl] at hm
    cases hm
  · intro source m hm
    rw [hl] at hm
    cases hm
  · exact le_rfl
  · exact le_rfl
  · intro id k hk
    cases hk
  · intro id _ k _ hk
    cases hk

theorem addNetworks_follows (s : AppState) (configs : List NetworkConfig) :
    s.Follows [] (configs.foldl (fun s config =>
      ({ s with
        networks := s.networks ++ [⟨config.id, config.name⟩]
        statuses := s.statuses.insert config.id (.disconnected "Not connected.") } :
        AppState).ensureConfiguredChannels config.id config.channels |>.1) s) := by
  induction configs generalizing s with
  | nil => exact .refl s
  | cons config configs ih =>
    have hq : s.Follows [] { s with
      networks := s.networks ++ [⟨config.id, config.name⟩]
      statuses := s.statuses.insert config.id (.disconnected "Not connected.") } :=
      .quiet rfl rfl rfl
    exact (hq.trans (ensureConfiguredChannels_follows _ _ _)).trans (ih _)

theorem withNetworks_shelf (configs : List NetworkConfig) :
    (withNetworks configs).Ids ∧
      ∃ selected, (withNetworks configs).shelf = ({ selected } : AppState).shelf := by
  have hrun : ∀ selected, (configs.foldl (fun s config =>
      ({ s with
        networks := s.networks ++ [⟨config.id, config.name⟩]
        statuses := s.statuses.insert config.id (.disconnected "Not connected.") } :
        AppState).ensureConfiguredChannels config.id config.channels |>.1)
      ({ selected } : AppState)).Ids ∧ (configs.foldl (fun s config =>
      ({ s with
        networks := s.networks ++ [⟨config.id, config.name⟩]
        statuses := s.statuses.insert config.id (.disconnected "Not connected.") } :
        AppState).ensureConfiguredChannels config.id config.channels |>.1)
      ({ selected } : AppState)).shelf = ({ selected } : AppState).shelf := fun selected =>
    addNetworks_follows { selected } configs (empty_ordered selected).1
  unfold withNetworks
  dsimp only
  split
  · exact ⟨(hrun _).1.congr rfl rfl, _, (hrun _).2⟩
  · exact ⟨(hrun _).1, _, (hrun _).2⟩

theorem withNetworks_ids (configs : List NetworkConfig) :
    (withNetworks configs).Ids ∧ (withNetworks configs).shelf.Ordered := by
  obtain ⟨hi, selected, hs⟩ := withNetworks_shelf configs
  rw [hs]
  exact ⟨hi, (empty_ordered selected).2⟩

theorem resetNetwork_follows (s : AppState) (network : NetworkId) (channels : List String) :
    s.Follows (if s.hasNetwork network then s.leaveEvents network else [])
      (s.resetNetwork network channels) := by
  unfold resetNetwork
  cases hn : s.hasNetwork network with
  | false => exact .refl s
  | true =>
    set s₁ : AppState := { (s.removeConversations network).1 with
      serverMessages := (s.removeConversations network).1.serverMessages.erase network
      systemMessages := (s.removeConversations network).1.systemMessages.filter (·.1 ≠ network)
      activeServers := (s.removeConversations network).1.activeServers.erase network
      statuses := (s.removeConversations network).1.statuses.insert network .connecting }
    have h₁ : s.Follows (s.leaveEvents network) s₁ :=
      (removeConversations_follows s network).trans (clear_follows _ network rfl rfl rfl)
    rw [if_pos rfl, ← List.append_nil (s.leaveEvents network)]
    refine h₁.trans (Follows.after ?_ (repairSelection_follows _))
    exact Follows.after (ensureConfiguredChannels_follows s₁ network channels)
      (.quiet rfl rfl rfl)

theorem modifyConversation_follows (s : AppState) (id : ConversationId)
    {f : Conversation → Conversation} (hf : ∀ c, (f c).id = c.id)
    (hm : ∀ c, (f c).messages = c.messages) : s.Follows [] (s.modifyConversation id f) := by
  intro hi
  refine ⟨hi.modify hf, shelf_congr ?_ rfl rfl rfl rfl rfl rfl⟩
  funext j
  unfold log
  rw [conversation_modify hf]
  split_ifs
  · cases s.conversation j with
    | none => rfl
    | some c => exact hm c
  · rfl

theorem privateConversation_follows (s : AppState) (network : NetworkId) (peerKey name : String)
    (create : Bool) : s.Follows [] (s.privateConversation network peerKey name create).1 := by
  have hadd := addConversation_follows s network (.privateTo peerKey) name
  unfold privateConversation
  split
  · exact modifyConversation_follows s _ (fun _ => rfl) fun _ => rfl
  · split
    · exact .refl s
    · dsimp only
      split
      · exact hadd
      · dsimp only
        split
        · exact hadd.trans (.quiet rfl rfl rfl)
        · exact hadd

theorem renamePrivate_follows (s : AppState) (network : NetworkId) (fromKey toKey toName : String) :
    s.Follows [] (s.renamePrivate network fromKey toKey toName).1 := by
  unfold renamePrivate
  split
  · exact .refl s
  · split
    · exact .refl s
    · exact modifyConversation_follows s _ (fun _ => rfl) fun _ => rfl

def closeEvents (s : AppState) (id : ConversationId) : List LogEvent :=
  if (s.conversations.find? fun c => c.id = id && c.isPrivate).isSome then [.forget id] else []

theorem closePrivate_follows (s : AppState) (id : ConversationId) :
    s.Follows (s.closeEvents id) (s.closePrivate id).1 := by
  unfold closePrivate closeEvents
  cases hf : s.conversations.find? fun c => c.id = id && c.isPrivate with
  | none => exact .refl s
  | some c =>
    intro hi
    set s₁ : AppState := { s with
      conversations := s.conversations.eraseP fun c => c.id = id && c.isPrivate }
    have hsub : s₁.conversations.Sublist s.conversations := List.eraseP_sublist
    have hi₁ : s₁.Ids := ⟨hi.nodup.sublist (hsub.map _), fun c hc => hi.fresh c (hsub.subset hc)⟩
    refine ⟨hi₁.congr rfl rfl, ?_⟩
    refine forgetConversations_shelf (s := s₁) (b := s.shelf) c.network [id] ?_
    unfold shelf
    congr 1
    funext source
    cases source with
    | server n => rfl
    | conversation j =>
      refine log_removed hi.nodup hi₁.nodup (fun c' => (mem_eraseP hi.nodup hf c').trans ?_) j
      rw [List.mem_singleton]

theorem joinedChannel_follows (s : AppState) (network : NetworkId) (name : String) :
    s.Follows [] (s.joinedChannel network name) := by
  have h := ensureChannel_follows s network name
  unfold joinedChannel
  dsimp only
  split
  · exact h.trans (.quiet rfl rfl rfl)
  · exact h

theorem partedChannel_follows (s : AppState) (network : NetworkId) (name : String) :
    s.Follows [] (s.partedChannel network name) := by
  unfold partedChannel
  split
  · exact .quiet rfl rfl rfl
  · exact .refl s

def joinAlertEvents (s : AppState) (network : NetworkId) (name text : String) (info : MessageMeta) :
    List LogEvent :=
  let r := s.ensureChannel network name
  if r.2.isSome then r.1.channelLineEvents network name text .alert info else []

theorem appendRequestedJoinAlertAt_follows (s : AppState) (network : NetworkId)
    (name text : String) (info : MessageMeta) :
    s.Follows (s.joinAlertEvents network name text info)
      (s.appendRequestedJoinAlertAt network name text info) := by
  have h := ensureChannel_follows s network name
  unfold appendRequestedJoinAlertAt joinAlertEvents
  dsimp only
  split
  · exact h.trans (appendChannelLineAt_follows _ network name text .alert info)
  · exact h

theorem setStatus_follows (s : AppState) (id : NetworkId) (status : ConnectionStatus) :
    s.Follows [] (s.setStatus id status) := by
  unfold setStatus
  refine .ite (.refl s) ?_
  cases status with
  | _ => exact .quiet rfl rfl rfl

theorem setCasemapping_follows (s : AppState) (network : NetworkId) (mapping : CaseMapping) :
    s.Follows [] (s.setCasemapping network mapping) := .quiet rfl rfl rfl

end Structure

section Dispatch

theorem selectChannel_follows (s : AppState) (id : ConversationId) :
    s.Follows [] (s.selectChannel id) := by
  unfold selectChannel
  exact .ite (.quiet rfl rfl rfl) (.refl s)

theorem selectServer_follows (s : AppState) (id : NetworkId) : s.Follows [] (s.selectServer id) := by
  unfold selectServer
  exact .ite (.quiet rfl rfl rfl) (.refl s)

theorem visitAttention_follows (s : AppState) : s.Follows [.visit] s.visitAttention := by
  have hstep : s.shelf.step .visit = { s.shelf with attention :=
    (s.attention.dropWhile fun e => !heldIn (s.log e.1) e.2).tail } := rfl
  intro hi
  change _ ∧ _ = s.shelf.step .visit
  rw [hstep]
  unfold visitAttention
  split
  · rename_i h
    have h' : s.attention.dropWhile (fun e => !heldIn (s.log e.1) e.2) = [] := h
    rw [h']
    exact ⟨hi.congr rfl rfl, rfl⟩
  · rename_i id sequence rest h
    have h' : s.attention.dropWhile (fun e => !heldIn (s.log e.1) e.2) =
      (id, sequence) :: rest := h
    rw [h']
    obtain ⟨hids, hshelf⟩ := selectChannel_follows { s with attention := rest } id
      (hi.congr rfl rfl)
    exact ⟨hids.congr rfl rfl, hshelf⟩

def dispatchEvents : Command → List LogEvent
  | .nextNotifiedMessage => [.visit]
  | _ => []

theorem dispatch_follows (s : AppState) (command : Command) :
    s.Follows (dispatchEvents command) (s.dispatch command) := by
  by_cases hc : command = .nextNotifiedMessage
  · rw [hc]
    exact visitAttention_follows s
  · have hnone : dispatchEvents command = [] := by
      unfold dispatchEvents
      split
      · exact absurd rfl hc
      · rfl
    rw [hnone]
    exact dispatch_rule (P := s.Follows []) command (.refl s) (selectChannel_follows s)
      (selectServer_follows s) fun h => absurd h hc

end Dispatch

/-- What a call is for the logs. -/
def events (s : AppState) : AppCall → List LogEvent
  | .syncNetworks configs => s.syncEvents configs
  | .resetNetwork network _ => if s.hasNetwork network then s.leaveEvents network else []
  | .closePrivate id => s.closeEvents id
  | .dispatch command => dispatchEvents command
  | .noteAttention id => [.note id]
  | .appendServerMessageAt id text info => s.serverEvents id (newMessage "server" text .text info)
  | .appendSystemMessage id text => s.serverEvents id (newMessage "server" text .activity {})
  | .appendDiagnosticMessage id text =>
    s.serverEvents id (newMessage "diagnostic" text .activity {})
  | .appendConversationMessage id sender text kind info _ =>
    s.appendEvents id (sentMessage sender text kind info) false
  | .appendConversationActivity id text =>
    s.appendEvents id (newMessage "" text .activity {}) false
  | .appendNetworkActivity id text => (s.conversationsOf id).flatMap fun c =>
    s.appendEvents c (newMessage "" text .activity {}) false
  | .appendChannelMessageAt network name sender text kind info =>
    s.channelEvents network name sender text kind info
  | .appendChannelActivityAt network name text info =>
    s.channelLineEvents network name text .activity info
  | .appendChannelAlertAt network name text info => s.channelLineEvents network name text .alert info
  | .appendRequestedJoinAlertAt network name text info => s.joinAlertEvents network name text info
  | .confirmMessage id sequence text kind info => [.confirm id sequence text kind info]
  | .failMessage id sequence => [.fail id sequence]
  | .finishHistoryFor id gapNote => s.replyEvents id gapNote
  | .pushOlderHistoryLine id request line => s.pushEvents id request line
  | .finishOlderHistory id request _ => s.settleEvents id request
  | _ => []

theorem call_follows (lowercase : String → String) (s : AppState) (i : AppCall) :
    s.Follows (s.events i) (s.call lowercase i) := by
  have hmark : ∀ id, s.Follows [] (s.highlight id) := fun id => by
    unfold highlight
    exact .ite (.quiet rfl rfl rfl) (.refl s)
  cases i with
  | syncNetworks configs => exact syncNetworks_follows s configs
  | resetNetwork network channels => exact resetNetwork_follows s network channels
  | setStatus id status => exact setStatus_follows s id status
  | setCasemapping network mapping => exact setCasemapping_follows s network mapping
  | joinedChannel network name => exact joinedChannel_follows s network name
  | partedChannel network name => exact partedChannel_follows s network name
  | privateConversation network peerKey name create =>
    exact privateConversation_follows s network peerKey name create
  | renamePrivate network fromKey toKey toName =>
    exact renamePrivate_follows s network fromKey toKey toName
  | closePrivate id => exact closePrivate_follows s id
  | setChannelOrder network order => exact (setChannelOrder_arranged s network order).follows
  | moveConversation id move => exact (moveConversation_arranged s id move).follows
  | moveAfter id other => exact (moveAfter_arranged s id other).follows
  | setGroups specs => exact (setGroups_regrouped lowercase s specs).arranged.follows
  | createGroup name => exact (createGroup_regrouped lowercase s name).arranged.follows
  | renameGroup id name => exact (renameGroup_regrouped lowercase s id name).arranged.follows
  | deleteGroup id => exact (regrouped_groups s _).arranged.follows
  | setGroupCollapsed id collapsed =>
    exact (setGroupCollapsed_regrouped s id collapsed).arranged.follows
  | moveToGroup id group before => exact (moveToGroup_regrouped s id group before).arranged.follows
  | returnToServer id => exact (returnToServer_regrouped s id).arranged.follows
  | dispatch command => exact dispatch_follows s command
  | takeReveal => exact .quiet rfl rfl rfl
  | markUnread id => exact markUnread_follows s id
  | highlight id => exact hmark id
  | markHighlighted network name =>
    change s.Follows [] (s.markHighlighted network name)
    unfold markHighlighted
    split
    · exact .ite (.quiet rfl rfl rfl) (.refl s)
    · exact .refl s
  | noteAttention id => exact fun hi => ⟨noteAttention_ids hi id, shelf_noteAttention s id⟩
  | appendServerMessageAt id text info => exact appendServerMessageAt_follows s id text info
  | appendSystemMessage id text => exact appendSystemMessage_follows s id text
  | appendDiagnosticMessage id text => exact appendDiagnosticMessage_follows s id text
  | appendConversationMessage id sender text kind info unread =>
    exact appendConversationMessage_follows s id sender text kind info unread
  | appendConversationActivity id text => exact appendToConversation_follows s id _
  | appendNetworkActivity id text => exact appendNetworkActivity_follows s id text
  | appendChannelMessageAt network name sender text kind info =>
    exact appendChannelMessageAt_follows s network name sender text kind info
  | appendChannelActivityAt network name text info =>
    exact appendChannelLineAt_follows s network name text .activity info
  | appendChannelAlertAt network name text info =>
    exact appendChannelLineAt_follows s network name text .alert info
  | appendRequestedJoinAlertAt network name text info =>
    exact appendRequestedJoinAlertAt_follows s network name text info
  | confirmMessage id sequence text kind info =>
    exact confirmMessage_follows s id sequence text kind info
  | failMessage id sequence => exact failMessage_follows s id sequence
  | historyRequested network name =>
    change s.Follows [] (s.historyRequested network name)
    unfold historyRequested
    split
    · exact .quiet rfl rfl rfl
    · exact .refl s
  | historyRequestedFor id => exact .quiet rfl rfl rfl
  | historyResumed network name =>
    change s.Follows [] (s.historyResumed network name)
    unfold historyResumed
    split
    · exact .quiet rfl rfl rfl
    · exact .refl s
  | pushHistoryLine id line =>
    change s.Follows [] (s.pushHistoryLine id line).1
    unfold pushHistoryLine
    split
    · exact .refl s
    · exact .quiet rfl rfl rfl
  | finishHistoryFor id gapNote => exact finishHistoryFor_follows s id gapNote
  | setHistoryPaging network available =>
    change s.Follows [] (s.setHistoryPaging network available)
    unfold setHistoryPaging
    exact .ite (.quiet rfl rfl rfl) (.quiet rfl rfl rfl)
  | requestOlderHistory id =>
    change s.Follows [] (s.requestOlderHistory id).1
    unfold requestOlderHistory
    split
    · exact .refl s
    · dsimp only
      split
      · exact .refl s
      · split
        · exact .refl s
        · exact .quiet rfl rfl rfl
  | pushOlderHistoryLine id request line => exact pushOlderHistoryLine_follows s id request line
  | finishOlderHistory id request beginning =>
    exact finishOlderHistory_follows s id request beginning

variable (lowercase : String → String) (configs : List NetworkConfig)

def history (is : List AppCall) : List LogEvent :=
  Machine.collect events (call lowercase) (withNetworks configs) is

theorem run_shelf (is : List AppCall) :
    (run lowercase configs is).Ids ∧ (run lowercase configs is).shelf =
      (history lowercase configs is).foldl Shelf.step (withNetworks configs).shelf := by
  let I : AppState → List LogEvent → Prop := fun s es =>
    s.Ids ∧ s.shelf = es.foldl Shelf.step (withNetworks configs).shelf
  have hstep : ∀ s es i, I s es → I (call lowercase s i) (es ++ events s i) := by
    rintro s es i ⟨hi, hs⟩
    obtain ⟨hi', hs'⟩ := call_follows lowercase s i hi
    exact ⟨hi', by rw [hs', hs, List.foldl_append]⟩
  have h : I (run lowercase configs is) ([] ++ history lowercase configs is) :=
    Machine.collect_invariant I hstep ⟨(withNetworks_ids configs).1, rfl⟩
  exact h

theorem run_ordered (is : List AppCall) : (run lowercase configs is).shelf.Ordered := by
  rw [(run_shelf lowercase configs is).2]
  change (Machine.exec Shelf.step _ _).Ordered
  exact Machine.exec_invariant' Shelf.Ordered (fun _ e h => Shelf.step_ordered h e)
    (withNetworks_ids configs).2

theorem run_ascending (is : List AppCall) (source : Source) :
    Ascending ((run lowercase configs is).lines source) :=
  (run_ordered lowercase configs is).ascending source

theorem historyIn_iff {l : List Message} (h : Ascending l) {x : ℤ} :
    historyIn l x = true ↔ ∃ m ∈ l, m.sequence = x ∧ m.isHistory = true := by
  rw [historyIn, Option.any_eq_true]
  refine exists_congr fun m => ?_
  rw [h.lookup_eq_some, and_assoc]

theorem confirmMessage_spec (h : Ascending (s.log id)) (x : ℤ) (text : Option String) (kind : Kind)
    (info : MessageMeta) :
    ((s.confirmMessage id x text kind info).2 = true ↔ ∃ m ∈ s.log id, m.sequence = x) ∧
      (s.confirmMessage id x text kind info).1.log id =
        (s.log id).map fun m => if m.sequence = x then confirmed text kind info m else m := by
  unfold confirmMessage
  cases hm : Search.lookup Message.sequence x (s.log id) with
  | none =>
    have hno := h.lookup_eq_none.mp hm
    refine ⟨⟨fun h => (by cases h), fun ⟨m, hm, hx⟩ => absurd hx (hno m hm)⟩, ?_⟩
    refine ((List.map_congr_left fun m hm => ?_).trans (List.map_id' _)).symm
    exact if_neg (hno m hm)
  | some m =>
    obtain ⟨hmem, hx⟩ := h.lookup_eq_some.mp hm
    refine ⟨⟨fun _ => ⟨m, hmem, hx⟩, fun _ => rfl⟩, ?_⟩
    obtain ⟨duplicates, hd, -, -⟩ := admitMessage_eq (s.setMessages id (edited (s.log id) x
      (confirmed text kind info))) id (confirmed text kind info m)
    dsimp only
    rw [hd]
    change (s.setMessages id _).log id = _
    rw [log_setMessages (s := s) _ (Or.inr (conversation_of_log hm)), Function.update_self,
      edited_eq h]

theorem failMessage_spec (h : Ascending (s.log id)) (x : ℤ) :
    (s.failMessage id x).log id = (s.log id).map fun m => if m.sequence = x then failed m else m := by
  unfold failMessage
  rw [log_setMessages (s := s), Function.update_self, edited_eq h]
  cases hc : s.conversation id with
  | none =>
    unfold log
    rw [hc]
    exact Or.inl rfl
  | some c => exact Or.inr rfl

/-- Logs ascend within their bound, no sequence is in two logs, and every search by sequence finds a
line exactly when it is held. -/
theorem logs_ordered (is : List AppCall) :
    let s := run lowercase configs is
    (∀ c ∈ s.conversations, s.lines (.conversation c.id) = c.messages) ∧
    (∀ source, (s.lines source).Pairwise (fun a b => a.sequence < b.sequence) ∧
      (s.lines source).length ≤ maxRetained) ∧
    (∀ source other, source ≠ other → ∀ m ∈ s.lines source, ∀ m' ∈ s.lines other,
      m.sequence ≠ m'.sequence) ∧
    (∀ hit m, s.hitMessage hit = some m ↔ m ∈ s.lines hit.source ∧ m.sequence = hit.sequence) ∧
    (∀ id x, heldIn (s.log id) x = true ↔ ∃ m ∈ s.log id, m.sequence = x) ∧
    (∀ id x, historyIn (s.log id) x = true ↔
      ∃ m ∈ s.log id, m.sequence = x ∧ m.isHistory = true) ∧
    (∀ id x text kind info,
      ((s.confirmMessage id x text kind info).2 = true ↔ ∃ m ∈ s.log id, m.sequence = x) ∧
      (s.confirmMessage id x text kind info).1.log id =
        (s.log id).map fun m => if m.sequence = x then confirmed text kind info m else m) ∧
    ∀ id x, (s.failMessage id x).log id =
      (s.log id).map fun m => if m.sequence = x then failed m else m := by
  have ha := run_ascending lowercase configs is
  have ho := run_ordered lowercase configs is
  have hi := (run_shelf lowercase configs is).1
  refine ⟨?_, fun source => ⟨ha source, ho.bounded source⟩, ?_, ?_, ?_, ?_, ?_, ?_⟩
  · intro c hc
    change ((conversation _ c.id).map (·.messages)).getD [] = _
    rw [conversation_eq hi.nodup hc]
    rfl
  · intro source other hne m hm m' hm' heq
    exact ho.apart source m hm other hne.symm m' hm' heq.symm
  · exact fun hit m => (ha hit.source).lookup_eq_some
  · exact fun id x => (ha (.conversation id)).heldIn_iff
  · exact fun id x => historyIn_iff (ha (.conversation id))
  · exact fun id x => confirmMessage_spec (ha (.conversation id)) x
  · exact fun id => failMessage_spec (ha (.conversation id))

end AppState

end CayenChat.App
