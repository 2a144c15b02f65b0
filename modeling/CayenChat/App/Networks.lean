import CayenChat.App.Structure

/-! # Networks and their conversations

Networks are configured, start over and compare names as their servers do,
peers change their names, and the user selects. Every table stays sound.
-/

namespace CayenChat.App

namespace AppState

variable {s s' : AppState} {id : ConversationId} {network : NetworkId}

section Casemapping

theorem lookup_index (f : Conversation → NetworkId × String) (channels : List Conversation)
    (ids : Map (NetworkId × String) ConversationId) (key : NetworkId × String) :
    (channels.foldl (fun ids c =>
      if (ids.lookup (f c)).isNone then ids.insert (f c) c.id else ids) ids).lookup key =
      (ids.lookup key).or ((channels.find? fun c => f c = key).map (·.id)) := by
  induction channels generalizing ids with
  | nil => exact Option.or_none.symm
  | cons c channels ih =>
    rw [List.foldl_cons, ih, List.find?_cons]
    by_cases hkey : f c = key
    · subst hkey
      rw [decide_eq_true rfl, Option.map_some]
      cases hl : ids.lookup (f c) with
      | none =>
        rw [if_pos (by rw [Option.isNone_none]), AList.lookup_insert]
        rfl
      | some v =>
        rw [if_neg (by simp), hl]
        rfl
    · rw [decide_eq_false hkey]
      split
      · rw [AList.lookup_insert_ne (Ne.symm hkey)]
      · rfl

theorem casemapping_set (s : AppState) (network : NetworkId) (mapping : CaseMapping)
    (n : NetworkId) : (s.setCasemapping network mapping).casemapping n =
      if n = network then mapping else s.casemapping n := by
  unfold setCasemapping casemapping
  dsimp only
  split
  · rename_i hd
    rw [Map.lookup_erase]
    split
    · exact hd.symm
    · rfl
  · rw [Map.lookup_insert]
    split
    · rfl
    · rfl

theorem setCasemapping_held (h : s.Held) (network : NetworkId) (mapping : CaseMapping) :
    (s.setCasemapping network mapping).Held := by
  have hlookup : ∀ key, (s.setCasemapping network mapping).channelIds.lookup key =
      ((Map.retain (fun key => key.1 ≠ network) s.channelIds).lookup key).or
        (((s.conversations.filter fun c => c.network = network && c.kind = .channel).find? fun c =>
          (network, mapping.fold c.name) = key).map (·.id)) := fun key =>
    lookup_index (fun c => (network, mapping.fold c.name)) _ _ key
  have hkey : ∀ c : Conversation, c.network = network →
      (s.setCasemapping network mapping).keyOf c = (network, mapping.fold c.name) := by
    rintro c rfl
    unfold keyOf
    rw [casemapping_set, if_pos rfl]
  have hother : ∀ c : Conversation, c.network ≠ network →
      (s.setCasemapping network mapping).keyOf c = s.keyOf c := by
    intro c hn
    unfold keyOf
    rw [casemapping_set, if_neg hn]
  constructor
  · exact ((setCasemapping_follows s network mapping) h.ids).1
  · intro t j hj
    have hj' : s.Holds j t := by cases t <;> exact hj
    exact h.tables t j hj'
  · exact h.selection
  · intro c hc hchan
    rw [hlookup]
    by_cases hn : c.network = network
    · rw [hkey c hn, Option.isSome_or, Bool.or_eq_true, Option.isSome_map]
      right
      rw [List.find?_isSome]
      refine ⟨c, List.mem_filter.mpr ⟨hc, ?_⟩, decide_eq_true rfl⟩
      rw [decide_eq_true hn, decide_eq_true hchan]
      rfl
    · rw [hother c hn, Map.lookup_retain,
        if_pos (show decide ((s.keyOf c).1 ≠ network) = true from decide_eq_true hn),
        Option.isSome_or, h.keyed c hc hchan, Bool.true_or]
  · intro key j hj
    rw [hlookup, Map.lookup_retain] at hj
    rcases Option.or_eq_some_iff.mp hj with hj | ⟨-, hj⟩
    · split at hj
      · rename_i hn
        obtain ⟨c, hc, hid, hchan, rfl⟩ := h.named key j hj
        exact ⟨c, hc, hid, hchan, hother c (of_decide_eq_true hn)⟩
      · cases hj
    · obtain ⟨c, hc, rfl⟩ := Option.map_eq_some_iff.mp hj
      have hk := List.find?_some hc
      obtain ⟨hcs, hp⟩ := List.mem_filter.mp (List.mem_of_find?_eq_some hc)
      obtain ⟨hn, hchan⟩ := Bool.and_eq_true_iff.mp hp
      exact ⟨c, hcs, rfl, of_decide_eq_true hchan,
        (hkey c (of_decide_eq_true hn)).trans (of_decide_eq_true hk)⟩
  · exact h.peers
  · exact h.few
  · exact h.fewPrivate
  · exact h.remembered

theorem Sound.setCasemapping (h : s.Sound) (network : NetworkId) (mapping : CaseMapping) :
    (s.setCasemapping network mapping).Sound where
  toHeld := setCasemapping_held h.toHeld network mapping
  toPlaced := ⟨h.distinct, h.homed, h.grouped⟩
  server := h.server
  nothing := h.nothing

end Casemapping

section Peers

theorem privateId_spec {peerKey : String} (h : s.privateId network peerKey = some id) :
    ∃ c ∈ s.conversations, c.id = id ∧ c.network = network ∧ c.kind = .privateTo peerKey := by
  obtain ⟨c, hc, rfl⟩ := Option.map_eq_some_iff.mp h
  have hp := List.find?_some hc
  simp only [Bool.and_eq_true, decide_eq_true_eq] at hp
  refine ⟨c, List.mem_of_find?_eq_some hc, rfl, hp.1, ?_⟩
  have hk := hp.2
  unfold Conversation.peerKey at hk
  split at hk
  · rename_i key hkind
    rw [hkind, Option.some.inj hk]
  · cases hk

theorem privateId_eq_none {peerKey : String} (h : s.privateId network peerKey = none) :
    ∀ c ∈ s.conversations, c.network = network → c.kind ≠ .privateTo peerKey := by
  intro c hc hn hk
  have := List.find?_eq_none.mp (Option.map_eq_none_iff.mp h) c hc
  apply this
  rw [decide_eq_true hn, Conversation.peerKey, hk]
  simp

theorem mem_modify (h : (s.conversations.map (·.id)).Nodup) {c : Conversation}
    (hc : c ∈ s.conversations) {f : Conversation → Conversation} (a : Conversation) :
    a ∈ (s.modifyConversation c.id f).conversations ↔
      a = f c ∨ a ∈ s.conversations ∧ a.id ≠ c.id := by
  unfold modifyConversation
  dsimp only
  generalize s.conversations = l at h hc ⊢
  induction l with
  | nil => cases hc
  | cons b l ih =>
    obtain ⟨hb, hl⟩ := List.nodup_cons.mp h
    have hne : ∀ a ∈ l, a.id ≠ b.id := fun a ha heq => hb (List.mem_map.mpr ⟨a, ha, heq⟩)
    by_cases hbc : b.id = c.id
    · have hcb : c = b := by
        rcases List.mem_cons.mp hc with hc | hc
        · exact hc
        · exact absurd hbc.symm (hne c hc)
      subst hcb
      rw [List.replaceF, if_pos rfl, List.mem_cons, List.mem_cons]
      constructor
      · rintro (ha | ha)
        · exact Or.inl ha
        · exact Or.inr ⟨Or.inr ha, hne a ha⟩
      · rintro (ha | ⟨rfl | ha, hid⟩)
        · exact Or.inl ha
        · exact absurd rfl hid
        · exact Or.inr ha
    · have hc' : c ∈ l := (List.mem_cons.mp hc).resolve_left fun heq => hbc (heq ▸ rfl)
      rw [List.replaceF, if_neg hbc, List.mem_cons, List.mem_cons, ih hl hc']
      constructor
      · rintro (rfl | ha | ⟨ha, hid⟩)
        · exact Or.inr ⟨Or.inl rfl, hbc⟩
        · exact Or.inl ha
        · exact Or.inr ⟨Or.inr ha, hid⟩
      · rintro (ha | ⟨rfl | ha, hid⟩)
        · exact Or.inr (Or.inl ha)
        · exact Or.inl rfl
        · exact Or.inr (Or.inr ⟨ha, hid⟩)

theorem length_places (h : s'.conversations.map Conversation.place =
    s.conversations.map Conversation.place) (p : NetworkId × Bool → Bool) :
    (s'.conversations.filter (p ∘ Conversation.place)).length =
      (s.conversations.filter (p ∘ Conversation.place)).length := by
  rw [← List.countP_eq_length_filter, ← List.countP_eq_length_filter, ← List.countP_map,
    ← List.countP_map, h]

theorem Sound.renamed (h : s.Sound) {c : Conversation} (hc : c ∈ s.conversations)
    (hp : c.isPrivate = true) {toKey : String} (toName : String)
    (hno : ∀ a ∈ s.conversations, a.id ≠ c.id → a.network = c.network →
      a.kind ≠ .privateTo toKey) :
    (s.modifyConversation c.id fun c =>
      { c with kind := .privateTo toKey, name := toName }).Sound := by
  set f : Conversation → Conversation := fun c => { c with kind := .privateTo toKey, name := toName }
  have hmem := mem_modify h.ids.nodup hc (f := f)
  have hplaces : (s.modifyConversation c.id f).conversations.map Conversation.place =
      s.conversations.map Conversation.place := by
    apply map_replaceF_of_mem
    intro a ha hid
    rw [List.inj_on_of_nodup_map h.ids.nodup ha hc hid]
    exact Prod.ext rfl hp.symm
  have hknown : ∀ {j}, s.Known j → (s.modifyConversation c.id f).Known j := by
    rintro j ⟨a, ha, rfl⟩
    by_cases hid : a.id = c.id
    · exact ⟨f c, (hmem _).mpr (Or.inl rfl), hid.symm⟩
    · exact ⟨a, (hmem _).mpr (Or.inr ⟨ha, hid⟩), rfl⟩
  have hchannel : ∀ a ∈ s.conversations, a.kind = .channel → a.id ≠ c.id := by
    intro a ha hchan hid
    rw [List.inj_on_of_nodup_map h.ids.nodup ha hc hid] at hchan
    exact of_decide_eq_true hp hchan
  constructor
  · constructor
    · exact h.ids.modify fun _ => rfl
    · intro t j hj
      have hj' : s.Holds j t := by cases t <;> exact hj
      exact hknown (h.tables t j hj')
    · intro j hj
      exact (h.selection j hj).imp_left hknown
    · intro a ha hchan
      rcases (hmem a).mp ha with rfl | ⟨ha, -⟩
      · cases hchan
      · exact h.keyed a ha hchan
    · intro key j hj
      obtain ⟨a, ha, hrest⟩ := h.named key j hj
      exact ⟨a, (hmem a).mpr (Or.inr ⟨ha, hchannel a ha hrest.2.1⟩), hrest⟩
    · intro a ha b hb hap hn hk
      rcases (hmem a).mp ha with rfl | ⟨ha, hac⟩
      · rcases (hmem b).mp hb with rfl | ⟨hb, hbc⟩
        · rfl
        · exact absurd hk.symm (hno b hb hbc hn.symm)
      · rcases (hmem b).mp hb with rfl | ⟨hb, hbc⟩
        · exact absurd hk (hno a ha hac hn)
        · exact h.peers a ha b hb hap hn hk
    · exact fun n => (length_places hplaces fun a => a.1 = n).trans_le (h.few n)
    · exact fun n => (length_places hplaces fun a => a.1 = n && a.2).trans_le (h.fewPrivate n)
    · exact h.remembered
  · constructor
    · exact h.distinct
    · intro a ha
      rcases (hmem a).mp ha with rfl | ⟨ha, -⟩
      · exact h.homed c hc
      · exact h.homed a ha
    · unfold Grouped
      rw [hplaces]
      exact h.grouped
  · exact h.server
  · exact h.nothing

theorem Sound.renamePrivate (h : s.Sound) (network : NetworkId) (fromKey toKey toName : String) :
    (s.renamePrivate network fromKey toKey toName).1.Sound := by
  unfold AppState.renamePrivate
  split
  · exact h
  rename_i id hid
  split
  · exact h
  rename_i hkeys
  obtain ⟨c, hc, rfl, rfl, hkind⟩ := privateId_spec hid
  have hp : c.isPrivate = true := decide_eq_true (by rw [hkind]; exact fun heq => by cases heq)
  refine h.renamed hc hp toName fun a ha hid hn hk => ?_
  by_cases heq : fromKey = toKey
  · subst heq
    have := h.peers c hc a ha hp hn.symm (hkind.trans hk.symm)
    exact hid (this ▸ rfl)
  · rw [not_and, Bool.not_eq_true, Option.isSome_eq_false_iff, Option.isNone_iff_eq_none] at hkeys
    exact privateId_eq_none (hkeys heq) a ha hn hk

end Peers

section Conversations

theorem Sound.add (h : s.Sound) {kind : ConversationKind} (hf : s.Fresh network kind)
    (name : String) : (s.addConversation network kind name).1.Sound := by
  have hheld := h.toHeld.add hf name
  have hplaced : (s.addConversation network kind name).1.Placed := h.toPlaced.add kind name
  rcases addConversation_eq s network kind name with heq | ⟨-, -, heq⟩
  · rwa [heq]
  · rw [heq] at hheld hplaced ⊢
    exact ⟨hheld, hplaced, h.server, h.nothing⟩

theorem known_add {kind : ConversationKind} {name : String}
    (h : (s.addConversation network kind name).2 = some id) :
    (s.addConversation network kind name).1.Known id := by
  rcases addConversation_eq s network kind name with heq | ⟨-, -, heq⟩
  · rw [heq] at h
    cases h
  · rw [heq] at h ⊢
    obtain rfl := Option.some.inj h
    have hle := conversationSlot_le s network (kind ≠ .channel) name
    exact ⟨s.newConversation network kind name,
      (List.perm_insertIdx _ _ hle).mem_iff.mpr List.mem_cons_self, rfl⟩

theorem active_keeps (hk : s.Known id) :
    s.Keeps { s with activeChannels := insert id s.activeChannels } := by
  refine Keeps.under hk rfl fun t j hj => ?_
  cases t with
  | activeChannels =>
    rcases Finset.mem_insert.mp hj with rfl | hj
    · exact Or.inr ⟨rfl, by decide, by decide⟩
    · exact Or.inl hj
  | _ => exact Or.inl hj

theorem Sound.ensureChannel (h : s.Sound) (network : NetworkId) (name : String) :
    (s.ensureChannel network name).1.Sound := by
  unfold AppState.ensureChannel
  split
  · exact h
  · exact h.add (Or.inl rfl) name

theorem Sound.known_ensure (h : s.Sound) {name : String}
    (hid : (s.ensureChannel network name).2 = some id) :
    (s.ensureChannel network name).1.Known id := by
  unfold AppState.ensureChannel at hid ⊢
  split at hid
  · rename_i heq
    rw [Option.some.inj hid] at heq
    exact h.known_channel heq
  · exact known_add hid

theorem Sound.joinedChannel (h : s.Sound) (network : NetworkId) (name : String) :
    (s.joinedChannel network name).Sound := by
  have he := h.ensureChannel network name
  unfold AppState.joinedChannel
  dsimp only
  split
  · rename_i id hid
    exact he.keep (active_keeps (h.known_ensure hid))
  · exact he

theorem Sound.joinAlert (h : s.Sound) (network : NetworkId) (name text : String)
    (info : MessageMeta) : (s.appendRequestedJoinAlertAt network name text info).Sound := by
  have he := h.ensureChannel network name
  unfold appendRequestedJoinAlertAt
  dsimp only
  split
  · exact he.keep (appendChannelLineAt_keeps _ network name text .alert info)
  · exact he

theorem partedChannel_keeps (s : AppState) (network : NetworkId) (name : String) :
    s.Keeps (s.partedChannel network name) := by
  unfold partedChannel
  split
  · refine .quiet rfl fun t j hj => ?_
    cases t with
    | activeChannels => exact (Finset.mem_erase.mp hj).2
    | olderHistory | resumePoints => exact (Map.of_lookup_erase hj).1
    | _ => exact hj
  · exact .refl s

theorem of_cutOff {couldPage : Bool}
    (h : ((s.cutOffChannels network couldPage).lookup id).isSome) :
    (s.resumePoints.lookup id).isSome ∨ s.Known id := by
  revert h
  unfold cutOffChannels
  refine List.foldlRecOn
    (motive := fun points : Map ConversationId ResumePoint => (points.lookup id).isSome → _)
    s.conversations _ Or.inl fun points ih c hc h => ?_
  split at h
  · exact ih h
  split at h
  · exact ih (Map.of_lookup_erase h).1
  split at h
  · exact ih h
  split at h
  · exact ih h
  · rcases Map.of_lookup_insert h with h | rfl
    · exact ih h
    · exact Or.inr ⟨c, hc, rfl⟩

theorem of_eraseAll {α : Type} {m : Map ConversationId α} {ids : List ConversationId}
    (h : ((ids.foldl (fun m id => m.erase id) m).lookup id).isSome) : (m.lookup id).isSome := by
  induction ids generalizing m with
  | nil => exact h
  | cons j ids ih => exact (Map.of_lookup_erase (ih h)).1

theorem setStatus_keeps (s : AppState) (id : NetworkId) (status : ConnectionStatus) :
    s.Keeps (s.setStatus id status) := by
  unfold setStatus
  refine .ite (.refl s) ?_
  cases status with
  | registered =>
    refine Keeps.of_frame rfl fun t j hj => ?_
    cases t with
    | activeChannels =>
      rcases Finset.mem_union.mp hj with hj | hj
      · exact Or.inl hj
      · obtain ⟨c, hc, rfl⟩ := List.mem_map.mp (List.mem_toFinset.mp hj)
        refine Or.inr ⟨⟨c, (List.mem_filter.mp hc).1, rfl⟩, ?_⟩
        rintro (h | h) <;> cases h
    | _ => exact Or.inl hj
  | disconnected reason =>
    refine Keeps.of_frame rfl fun t j hj => ?_
    cases t with
    | activeChannels => exact Or.inl (Finset.mem_sdiff.mp hj).1
    | resumePoints =>
      rcases of_cutOff hj with hj | hk
      · exact Or.inl hj
      · exact Or.inr ⟨hk, by rintro (h | h) <;> cases h⟩
    | pendingHistory | olderHistory => exact Or.inl (of_eraseAll hj)
    | _ => exact Or.inl hj
  | _ => exact .quiet rfl fun t j hj => by cases t <;> exact hj

theorem Sound.privateConversation (h : s.Sound) (network : NetworkId) (peerKey name : String)
    (create : Bool) : (s.privateConversation network peerKey name create).1.Sound := by
  unfold AppState.privateConversation
  split
  · rename_i id hid
    obtain ⟨c, hc, rfl, -, hkind⟩ := privateId_spec hid
    apply h.keep
    apply Keeps.modify
    intro a ha hid
    rw [List.inj_on_of_nodup_map h.ids.nodup ha hc hid]
    unfold Conversation.head
    rw [hkind]
    rfl
  · rename_i hnone
    split
    · exact h
    · rename_i hroom
      rw [Bool.or_eq_true, not_or, decide_eq_true_eq, not_le] at hroom
      have hadd := h.add (Or.inr ⟨privateId_eq_none hnone, hroom.2⟩) name
      dsimp only
      split
      · exact hadd
      · rename_i id hid
        dsimp only
        split
        · exact hadd.keep (active_keeps (known_add hid))
        · exact hadd

theorem Sound.closePrivate (h : s.Sound) (id : ConversationId) :
    (s.closePrivate id).1.Sound := by
  obtain ⟨ids, hr⟩ := closePrivate_removes h.toHeld id
  have hheld := h.toHeld.remove hr
  have hplaced := h.toPlaced.remove hr
  unfold AppState.closePrivate at hheld hplaced hr ⊢
  split
  · exact h
  rename_i c hc
  rw [hc] at hheld hplaced
  refine ⟨hheld, hplaced, fun n hn => ?_, fun hn => ?_⟩
  · dsimp only [forgetConversation] at hn
    split at hn
    · rw [← Selection.server.inj hn]
      exact h.homed c (List.mem_of_find?_eq_some hc)
    · exact h.server n hn
  · dsimp only [forgetConversation] at hn
    split at hn
    · cases hn
    · exact h.nothing hn

end Conversations

section Selecting

theorem Held.select (h : s.Held) (hp : s.Placed) {previous : Option ConversationId}
    {target : Selection} {unread highlighted : Finset ConversationId}
    (hprev : ∀ id, previous = some id → s.Known id) (hu : unread ⊆ s.unread)
    (hh : highlighted ⊆ s.highlighted)
    (hchan : ∀ id, target = .channel id → s.Known id ∧ id ∉ unread ∧ id ∉ highlighted)
    (hserver : ∀ id, target = .server id → s.hasNetwork id = true)
    (hnone : target = .none → s.networks = []) :
    ({ s with previousChannel := previous, selected := target, unread, highlighted } :
      AppState).Sound := by
  constructor
  · constructor
    · exact h.ids.congr rfl rfl
    · intro t j hj
      cases t with
      | unread => exact h.tables .unread j (hu hj)
      | highlighted => exact h.tables .highlighted j (hh hj)
      | previousChannel => exact hprev j hj
      | activeChannels => exact h.tables .activeChannels j hj
      | attention => exact h.tables .attention j hj
      | duplicates => exact h.tables .duplicates j hj
      | pendingHistory => exact h.tables .pendingHistory j hj
      | historyBlocks => exact h.tables .historyBlocks j hj
      | olderHistory => exact h.tables .olderHistory j hj
      | resumePoints => exact h.tables .resumePoints j hj
    · exact hchan
    · exact h.keyed
    · exact h.named
    · exact h.peers
    · exact h.few
    · exact h.fewPrivate
    · exact h.remembered
  · exact ⟨hp.distinct, hp.homed, hp.grouped⟩
  · exact hserver
  · exact hnone

theorem Sound.selectChannel (h : s.Sound) (id : ConversationId) : (s.selectChannel id).Sound := by
  unfold AppState.selectChannel
  split
  swap
  · exact h
  rename_i hk
  refine h.toHeld.select h.toPlaced (fun j hj => ?_) (Finset.erase_subset _ _)
    (Finset.erase_subset _ _) (fun j hj => ?_) (fun j hj => by cases hj) (fun hj => by cases hj)
  · split at hj
    · rename_i current hs
      split at hj
      · rw [← Option.some.inj hj]
        exact (h.selection current hs).1
      · exact h.tables .previousChannel j hj
    · exact h.tables .previousChannel j hj
  · obtain rfl := Selection.channel.inj hj
    exact ⟨known_of_any hk, Finset.notMem_erase _ _, Finset.notMem_erase _ _⟩

theorem selectChannel_selected {id : ConversationId} (h : s.Known id) :
    (s.selectChannel id).selected = .channel id := by
  obtain ⟨c, hc, rfl⟩ := h
  have hany : s.conversations.any (·.id = c.id) = true :=
    List.any_eq_true.mpr ⟨c, hc, decide_eq_true rfl⟩
  rw [AppState.selectChannel, if_pos hany]

theorem Sound.selectServer (h : s.Sound) (id : NetworkId) : (s.selectServer id).Sound := by
  unfold AppState.selectServer
  split
  swap
  · exact h
  rename_i hn
  refine h.toHeld.select h.toPlaced (fun j hj => ?_) subset_rfl subset_rfl
    (fun j hj => by cases hj) (fun j hj => ?_) (fun hj => by cases hj)
  · split at hj
    · rename_i current hs
      rw [← Option.some.inj hj]
      exact (h.selection current hs).1
    · exact h.tables .previousChannel j hj
  · rwa [← Selection.server.inj hj]

theorem Sound.select (h : s.Sound) (target : Selection) : (s.select target).Sound := by
  cases target with
  | server id => exact h.selectServer id
  | channel id => exact h.selectChannel id
  | none => exact h

theorem Sound.visitAttention (h : s.Sound) : s.visitAttention.Sound := by
  -- what is left of the queue was in it
  have hdrop : ∀ rest : Attention, (∀ e ∈ rest, e ∈ s.attention) →
      ({ s with attention := rest } : AppState).Sound := by
    intro rest hsub
    refine h.keep (.quiet rfl fun t j hj => ?_)
    cases t with
    | attention =>
      obtain ⟨x, hx⟩ := hj
      exact ⟨x, hsub _ hx⟩
    | _ => exact hj
  unfold AppState.visitAttention
  split
  · exact hdrop [] fun e he => by cases he
  · rename_i id x rest hq
    have hsub : ∀ e ∈ rest, e ∈ s.attention := fun e he =>
      (List.dropWhile_sublist _).subset (hq ▸ List.mem_cons_of_mem _ he)
    refine ((hdrop rest hsub).selectChannel id).keep ?_
    exact .quiet rfl fun t j hj => by cases t <;> exact hj

theorem Sound.dispatch (h : s.Sound) (command : Command) : (s.dispatch command).Sound :=
  dispatch_rule command h h.selectChannel h.selectServer fun _ => h.visitAttention

theorem Held.selectFirst (h : s.Held) (hp : s.Placed) {target : Selection}
    (hcons : ∀ n rest, s.networks = n :: rest → target = .server n.id)
    (hnil : s.networks = [] → target = .none) :
    ({ s with selected := target } : AppState).Sound := by
  apply h.select hp (h.tables .previousChannel) subset_rfl subset_rfl
  · intro id hid
    cases hn : s.networks with
    | nil =>
      rw [hnil hn] at hid
      cases hid
    | cons n rest =>
      rw [hcons n rest hn] at hid
      cases hid
  · intro id hid
    cases hn : s.networks with
    | nil =>
      rw [hnil hn] at hid
      cases hid
    | cons n rest =>
      rw [hcons n rest hn] at hid
      rw [← Selection.server.inj hid, hasNetwork, hn]
      simp
  · intro hid
    cases hn : s.networks with
    | nil => rfl
    | cons n rest =>
      rw [hcons n rest hn] at hid
      cases hid

theorem Held.repair (h : s.Held) (hp : s.Placed) : s.repairSelection.Sound := by
  unfold repairSelection
  dsimp only
  split
  · rename_i id hs
    split
    · rename_i hvalid
      refine ⟨h, hp, fun n hn => ?_, fun hn => (by rw [hs] at hn; cases hn)⟩
      rw [hs] at hn
      rwa [← Selection.server.inj hn]
    · exact h.selectFirst hp (fun n rest hn => by rw [hn]) fun hn => by rw [hn]
  · rename_i id hs
    split
    · exact ⟨h, hp, fun n hn => (by rw [hs] at hn; cases hn), fun hn => (by rw [hs] at hn; cases hn)⟩
    · exact h.selectFirst hp (fun n rest hn => by rw [hn]) fun hn => by rw [hn]
  · rename_i hs
    split
    · rename_i hvalid
      exact ⟨h, hp, fun n hn => (by rw [hs] at hn; cases hn),
        fun _ => List.isEmpty_iff.mp hvalid⟩
    · exact h.selectFirst hp (fun n rest hn => by rw [hn]) fun hn => by rw [hn]

end Selecting

section Networks

def Standing (s : AppState) : Prop := s.Held ∧ s.Placed

theorem Standing.keep (h : s.Standing) (hk : s.Keeps s') : s'.Standing :=
  ⟨h.1.keep hk.toCovers, h.2.keep hk⟩

theorem Standing.remove (h : s.Standing) {ids : List ConversationId} (hr : s.Removes s' ids) :
    s'.Standing :=
  ⟨h.1.remove hr, h.2.remove hr⟩

theorem Standing.ensure (h : s.Standing) (network : NetworkId) (name : String) :
    (s.ensureConfiguredChannel network name).1.Standing := by
  unfold ensureConfiguredChannel
  split
  · exact h
  · exact ⟨h.1.add (Or.inl rfl) name, h.2.add .channel name⟩

def still (s : AppState) : List Network × Finset ConversationId × Finset ConversationId × Selection :=
  (s.networks, s.unread, s.highlighted, s.selected)

theorem ensure_still (s : AppState) (network : NetworkId) (name : String) :
    (s.ensureConfiguredChannel network name).1.still = s.still := by
  unfold ensureConfiguredChannel
  split
  · rfl
  · rcases addConversation_eq s network .channel name with heq | ⟨-, -, heq⟩
    · rw [heq]
    · rw [heq]
      rfl

theorem Standing.ensureAll (h : s.Standing) (network : NetworkId) (channels : List String) :
    (s.ensureConfiguredChannels network channels).1.Standing := by
  unfold ensureConfiguredChannels
  refine List.foldlRecOn (motive := fun r : AppState × Option ConversationId => r.1.Standing)
    channels _ h fun r hr name _ => ?_
  exact hr.ensure network name

theorem ensureAll_still (s : AppState) (network : NetworkId) (channels : List String) :
    (s.ensureConfiguredChannels network channels).1.still = s.still := by
  unfold ensureConfiguredChannels
  refine List.foldlRecOn (motive := fun r : AppState × Option ConversationId =>
    r.1.still = s.still) channels _ rfl fun r hr name _ => ?_
  exact (ensure_still r.1 network name).trans hr

section Gone

theorem forgetNetwork_removes (h : s.Held) (id : NetworkId) :
    s.Removes (s.forgetNetwork id).1 (s.conversationsOf id) := by
  have hr := removeConversations_removes h id
  refine ⟨hr.networks, hr.conversations, hr.kept, hr.nextConversationId, fun t j hj => ?_,
    hr.selection, hr.keyOf, hr.keyed, hr.named, fun n order ho => ?_⟩
  · apply hr.tables
    cases t <;> exact hj
  · dsimp only [forgetNetwork] at ho
    rw [Map.lookup_erase] at ho
    split at ho
    · cases ho
    · exact hr.remembered n order ho

theorem Standing.gone (h : s.Standing) (ids : List NetworkId) :
    (ids.foldl (fun s id => (forgetNetwork s id).1) s).Standing ∧
      (ids.foldl (fun s id => (forgetNetwork s id).1) s).networks = s.networks ∧
      ∀ c ∈ (ids.foldl (fun s id => (forgetNetwork s id).1) s).conversations,
        c ∈ s.conversations ∧ c.network ∉ ids := by
  induction ids generalizing s with
  | nil => exact ⟨h, rfl, fun c hc => ⟨hc, List.not_mem_nil⟩⟩
  | cons id ids ih =>
    have hr := forgetNetwork_removes h.1 id
    obtain ⟨hs, hn, hc⟩ := ih (h.remove hr)
    refine ⟨hs, hn.trans hr.networks, fun c hcm => ?_⟩
    obtain ⟨hcm, hno⟩ := hc c hcm
    have hcs := hr.conversations.subset hcm
    refine ⟨hcs, List.not_mem_cons_of_ne_of_not_mem (fun heq => ?_) hno⟩
    exact (hr.kept c hcs).mp hcm ((mem_conversationsOf h.1.ids.nodup hcs).mpr heq)

end Gone

theorem hasNetwork_iff : s.hasNetwork network = true ↔ network ∈ s.networks.map (·.id) := by
  rw [hasNetwork, List.any_eq_true, List.mem_map]
  simp only [decide_eq_true_eq]

theorem sorted_grouped (hk : ∀ c ∈ s.conversations, s.hasNetwork c.network = true)
    (ho : s.conversations.Pairwise fun a b => a.network = b.network →
      (a.isPrivate = true → b.isPrivate = true)) : s.sortConversations.Grouped := by
  have hstable := Arrange.stable_insertionSort
    (R := fun a b : Conversation => s.networkPosition a.network ≤ s.networkPosition b.network)
    (S := fun a b => a.network = b.network → a.isPrivate = true → b.isPrivate = true)
    (ho.imp fun {a b} h (_ : s.networkPosition b.network ≤ s.networkPosition a.network) => h)
  have hsorted := List.pairwise_insertionSort
    (fun a b : Conversation => s.networkPosition a.network ≤ s.networkPosition b.network)
    s.conversations
  apply List.pairwise_map.mpr
  refine (hsorted.and hstable).imp_of_mem fun {a b} ha hb h => ?_
  obtain ⟨hle, hst⟩ := h
  rcases hle.lt_or_eq with hlt | heq
  · exact Or.inl hlt
  · have hn := networkPosition_inj (hk a ((List.mem_insertionSort _).mp ha))
      (hk b ((List.mem_insertionSort _).mp hb)) heq
    exact Or.inr ⟨hn, hst heq.ge hn⟩

theorem Standing.configured (h : s.Standing) (networks : List Network)
    (statuses : Map NetworkId ConnectionStatus) (hd : (networks.map (·.id)).Nodup)
    (hk : ∀ c ∈ s.conversations, c.network ∈ networks.map (·.id)) :
    ({ s with networks, statuses } : AppState).sortConversations.Standing := by
  set s₁ : AppState := { s with networks, statuses } with hs₁
  have hperm : s₁.sortConversations.conversations.Perm s.conversations :=
    List.perm_insertionSort _ _
  have hhome : ∀ c ∈ s₁.conversations, s₁.hasNetwork c.network = true := fun c hc =>
    hasNetwork_iff.mpr (hk c hc)
  constructor
  · refine h.1.keep ⟨hperm.map _, rfl, rfl, rfl, rfl, rfl, fun t j hj => ?_⟩
    left
    cases t <;> exact hj
  · refine ⟨hd, fun c hc => hhome c (hperm.mem_iff.mp hc), sorted_grouped hhome ?_⟩
    refine (List.pairwise_map.mp h.2.grouped).imp fun {a b} hab hn => ?_
    rcases hab with hlt | ⟨-, hp⟩
    · exact absurd hlt (by rw [show a.place.1 = b.place.1 from hn]; exact lt_irrefl _)
    · exact hp

theorem Sound.syncNetworks (h : s.Sound) {configs : List NetworkConfig}
    (hd : (configs.map (·.id)).Nodup) : (s.syncNetworks configs).Sound := by
  obtain ⟨hs, hn, hc⟩ := Standing.gone ⟨h.toHeld, h.toPlaced⟩
    ((s.networks.map (·.id)).filter fun id => !configs.any (·.id = id))
  unfold AppState.syncNetworks
  dsimp only
  have hids : (configs.map fun config => (⟨config.id, config.name⟩ : Network)).map (·.id) =
      configs.map (·.id) := by
    rw [List.map_map]
    rfl
  have hsorted := hs.configured (configs.map fun config => ⟨config.id, config.name⟩)
    (configs.foldl (fun statuses config =>
      if (statuses.lookup config.id).isNone then
        statuses.insert config.id (.disconnected "Not connected.")
      else statuses) (((s.networks.map (·.id)).filter fun id =>
        !configs.any (·.id = id)).foldl (fun s id => (forgetNetwork s id).1) s).statuses)
    (hids ▸ hd) (fun c hcm => by
      obtain ⟨hcs, hno⟩ := hc c hcm
      have hmem := hasNetwork_iff.mp (h.homed c hcs)
      rw [hids]
      by_contra hne
      apply hno
      refine List.mem_filter.mpr ⟨hmem, ?_⟩
      rw [Bool.not_eq_true', List.any_eq_false]
      intro config hconfig heq
      exact hne (List.mem_map.mpr ⟨config, hconfig, of_decide_eq_true heq⟩))
  have hadded := List.foldlRecOn (motive := Standing)
    (configs.filter fun config => !s.hasNetwork config.id)
    (fun s config => (ensureConfiguredChannels s config.id config.channels).1) hsorted
    fun r hr config _ => hr.ensureAll config.id config.channels
  exact hadded.1.repair hadded.2

theorem Held.reselect (h : s.Held) {target : Selection}
    (ht : ∀ id, target = .channel id → s.Known id ∧ id ∉ s.unread ∧ id ∉ s.highlighted) :
    ({ s with selected := target } : AppState).Held := by
  refine ⟨h.ids.congr rfl rfl, fun t j hj => ?_, ht, h.keyed, h.named, h.peers, h.few,
    h.fewPrivate, h.remembered⟩
  have hj' : s.Holds j t := by cases t <;> exact hj
  exact h.tables t j hj'

/-- The channels of a network that starts over carry no mark, and the first of them is known. -/
structure Opened (network : NetworkId) (r : AppState × Option ConversationId) : Prop where
  standing : r.1.Standing
  unmarked : ∀ c ∈ r.1.conversations, c.network = network →
    c.id ∉ r.1.unread ∧ c.id ∉ r.1.highlighted
  first : ∀ id, r.2 = some id → ∃ c ∈ r.1.conversations, c.id = id ∧ c.network = network

theorem Opened.ensure {r : AppState × Option ConversationId} (h : Opened network r)
    (name : String) :
    Opened network ((r.1.ensureConfiguredChannel network name).1,
      r.2.or (r.1.ensureConfiguredChannel network name).2) := by
  have hst := h.standing.ensure network name
  unfold ensureConfiguredChannel at hst ⊢
  split at hst
  · rename_i c hf
    refine ⟨hst, h.unmarked, fun id hid => ?_⟩
    rcases Option.or_eq_some_iff.mp hid with hid | ⟨-, hid⟩
    · exact h.first id hid
    · have hp := List.find?_some hf
      simp only [Bool.and_eq_true, decide_eq_true_eq] at hp
      exact ⟨c, List.mem_of_find?_eq_some hf, Option.some.inj hid, hp.1.1⟩
  · rcases addConversation_eq r.1 network .channel name with heq | ⟨-, -, heq⟩
    · rw [heq, Option.or_none]
      exact h
    · rw [heq] at hst ⊢
      have hperm := List.perm_insertIdx (r.1.newConversation network .channel name)
        r.1.conversations (conversationSlot_le r.1 network
          (ConversationKind.channel ≠ ConversationKind.channel) name)
      refine ⟨hst, fun c hc hn => ?_, fun id hid => ?_⟩
      · rcases List.mem_cons.mp (hperm.mem_iff.mp hc) with rfl | hc
        · have hnew : ∀ t, ¬ r.1.Holds r.1.nextConversationId t := by
            intro t ht
            obtain ⟨a, ha, hid⟩ := h.standing.1.tables t _ ht
            exact (h.standing.1.ids.fresh a ha).ne hid
          exact ⟨hnew .unread, hnew .highlighted⟩
        · exact h.unmarked c hc hn
      · rcases Option.or_eq_some_iff.mp hid with hid | ⟨-, hid⟩
        · obtain ⟨c, hc, hrest⟩ := h.first id hid
          exact ⟨c, hperm.mem_iff.mpr (.tail _ hc), hrest⟩
        · exact ⟨_, hperm.mem_iff.mpr List.mem_cons_self, Option.some.inj hid, rfl⟩

theorem Sound.resetNetwork (h : s.Sound) (network : NetworkId) (channels : List String) :
    (s.resetNetwork network channels).Sound := by
  unfold AppState.resetNetwork
  split
  · exact h
  dsimp only
  have hr := removeConversations_removes h.toHeld network
  have hempty : ∀ c ∈ (s.removeConversations network).1.conversations, c.network ≠ network := by
    intro c hc hn
    have hcs := hr.conversations.subset hc
    exact (hr.kept c hcs).mp hc ((mem_conversationsOf h.ids.nodup hcs).mpr hn)
  have hs : (s.removeConversations network).1.Standing :=
    Standing.remove ⟨h.toHeld, h.toPlaced⟩ hr
  generalize (s.removeConversations network).1 = s₁ at hempty hs ⊢
  have hopen : Opened network (({ s₁ with
      serverMessages := s₁.serverMessages.erase network
      systemMessages := s₁.systemMessages.filter (·.1 ≠ network)
      activeServers := s₁.activeServers.erase network
      statuses := s₁.statuses.insert network .connecting } :
      AppState).ensureConfiguredChannels network channels) := by
    unfold ensureConfiguredChannels
    refine List.foldlRecOn (motive := Opened network) channels _ ?_ fun r hr name _ => hr.ensure name
    refine ⟨hs.keep (.quiet rfl fun t j hj => by cases t <;> exact hj), fun c hc hn => ?_,
      fun id hid => by cases hid⟩
    exact absurd hn (hempty c hc)
  refine Held.repair (Held.reselect hopen.standing.1 fun id hid => ?_)
    ⟨hopen.standing.2.distinct, hopen.standing.2.homed, hopen.standing.2.grouped⟩
  split at hid
  · split at hid
    · rename_i first hf
      obtain ⟨c, hc, hcid, hcn⟩ := hopen.first _ hf
      rw [← Selection.channel.inj hid, ← hcid]
      exact ⟨⟨c, hc, rfl⟩, hopen.unmarked c hc hcn⟩
    · cases hid
  · exact hopen.standing.1.selection id hid

theorem Standing.addNetwork (h : s.Standing) (config : NetworkConfig)
    (hno : config.id ∉ s.networks.map (·.id)) (statuses : Map NetworkId ConnectionStatus) :
    ({ s with networks := s.networks ++ [⟨config.id, config.name⟩], statuses } :
      AppState).Standing := by
  constructor
  · refine h.1.keep ⟨.refl _, rfl, rfl, rfl, rfl, rfl, fun t j hj => ?_⟩
    left
    cases t <;> exact hj
  · have hmap : (s.networks ++ [(⟨config.id, config.name⟩ : Network)]).map (·.id) =
        s.networks.map (·.id) ++ [config.id] := List.map_append
    constructor
    · change ((s.networks ++ [(⟨config.id, config.name⟩ : Network)]).map (·.id)).Nodup
      rw [hmap, List.nodup_append_comm, List.singleton_append, List.nodup_cons]
      exact ⟨hno, h.2.distinct⟩
    · intro c hc
      rw [hasNetwork_iff]
      change c.network ∈ (s.networks ++ [(⟨config.id, config.name⟩ : Network)]).map (·.id)
      rw [hmap]
      exact List.mem_append_left _ (hasNetwork_iff.mp (h.2.homed c hc))
    · -- networks stay where they are
      have hpos : ∀ c ∈ s.conversations, ({ s with
          networks := s.networks ++ [⟨config.id, config.name⟩], statuses } :
          AppState).networkPosition c.network = s.networkPosition c.network := by
        intro c hc
        unfold networkPosition
        dsimp only
        obtain ⟨n, hn, hid⟩ := List.any_eq_true.mp (h.2.homed c hc)
        rw [List.findIdx?_append]
        cases hf : s.networks.findIdx? (·.id = c.network) with
        | none =>
          rw [List.findIdx?_eq_none_iff.mp hf n hn] at hid
          cases hid
        | some i => rfl
      apply List.pairwise_map.mpr
      refine (List.pairwise_map.mp h.2.grouped).imp_of_mem fun {a b} ha hb hab => ?_
      rw [show a.place.1 = a.network from rfl, show b.place.1 = b.network from rfl] at hab ⊢
      rwa [hpos a ha, hpos b hb]

theorem empty_standing (selected : Selection) (hs : ∀ id, selected ≠ .channel id) :
    ({ selected } : AppState).Standing := by
  refine ⟨⟨(empty_ordered selected).1, fun t j hj => ?_, fun id hid => absurd hid (hs id),
    fun c hc => (by cases hc), fun key j hj => (by cases hj), fun c hc => (by cases hc),
    fun n => Nat.zero_le _, fun n => Nat.zero_le _, fun n order ho => (by cases ho)⟩,
    ⟨List.nodup_nil, fun c hc => (by cases hc), List.Pairwise.nil⟩⟩
  cases t with
  | unread | highlighted | activeChannels => exact absurd hj (Finset.notMem_empty j)
  | attention =>
    obtain ⟨x, hx⟩ := hj
    cases hx
  | _ => cases hj

theorem added_standing {configs : List NetworkConfig} (h : s.Standing)
    (hd : (s.networks.map (·.id) ++ configs.map (·.id)).Nodup) (hu : s.unread = ∅)
    (hh : s.highlighted = ∅) {s' : AppState} (hs' : s' = configs.foldl (fun s config =>
      ({ s with
        networks := s.networks ++ [⟨config.id, config.name⟩]
        statuses := s.statuses.insert config.id (.disconnected "Not connected.") } :
        AppState).ensureConfiguredChannels config.id config.channels |>.1) s) :
    s'.Standing ∧ s'.unread = ∅ ∧ s'.highlighted = ∅ ∧ s'.selected = s.selected ∧
      s'.networks.map (·.id) = s.networks.map (·.id) ++ configs.map (·.id) := by
  induction configs generalizing s with
  | nil =>
    subst hs'
    exact ⟨h, hu, hh, rfl, (List.append_nil _).symm⟩
  | cons config configs ih =>
    have hno : config.id ∉ s.networks.map (·.id) := by
      intro hm
      rw [List.map_cons, List.nodup_append] at hd
      exact hd.2.2 _ hm _ List.mem_cons_self rfl
    set s₁ : AppState := { s with
      networks := s.networks ++ [⟨config.id, config.name⟩]
      statuses := s.statuses.insert config.id (.disconnected "Not connected.") } with hs₁
    have hst : s₁.Standing := h.addNetwork config hno _
    have hstill := ensureAll_still s₁ config.id config.channels
    simp only [still, Prod.mk.injEq] at hstill
    obtain ⟨hn, hu₁, hh₁, hsel⟩ := hstill
    have hmap : s₁.networks.map (·.id) ++ configs.map (·.id) =
        s.networks.map (·.id) ++ (config :: configs).map (·.id) := by
      rw [hs₁, List.map_append, List.append_assoc]
      rfl
    obtain ⟨hr, hru, hrh, hrs, hrn⟩ := ih (hst.ensureAll config.id config.channels)
      (by rw [hn, hmap]; exact hd) (hu₁.trans hu) (hh₁.trans hh) hs'
    exact ⟨hr, hru, hrh, hrs.trans hsel, hrn.trans (by rw [hn, hmap])⟩

theorem withNetworks_sound {configs : List NetworkConfig} (hd : (configs.map (·.id)).Nodup) :
    (withNetworks configs).Sound := by
  have hrun := fun (selected : Selection) (hs : ∀ id, selected ≠ .channel id) =>
    (added_standing (empty_standing selected hs) hd rfl rfl rfl :
      _ ∧ _ ∧ _ ∧ _ ∧ (_ = _ ++ configs.map (·.id)))
  unfold withNetworks
  dsimp only
  cases configs with
  | nil =>
    obtain ⟨hst, -, -, -, -⟩ := hrun .none fun id hid => by cases hid
    exact ⟨hst.1, hst.2, fun id hid => (by cases hid), fun _ => rfl⟩
  | cons config configs =>
    obtain ⟨hst, hu, hh, hsel, hn⟩ := hrun (.server config.id) fun id hid => by cases hid
    dsimp only
    split
    · rename_i first rest hc
      refine ⟨hst.1.reselect fun id hid => ?_, ⟨hst.2.distinct, hst.2.homed, hst.2.grouped⟩,
        fun id hid => (by cases hid), fun hid => (by cases hid)⟩
      rw [← Selection.channel.inj hid, hu, hh]
      exact ⟨⟨first, hc ▸ List.mem_cons_self, rfl⟩, Finset.notMem_empty _, Finset.notMem_empty _⟩
    · refine ⟨hst.1, hst.2, fun id hid => ?_, fun hid => ?_⟩
      · rw [hsel] at hid
        rw [hasNetwork_iff, hn, ← Selection.server.inj hid]
        exact List.mem_cons_self
      · rw [hsel] at hid
        cases hid

end Networks

section Runs

/-- What the callers see to: configured networks differ, and history is requested for a conversation
there is. -/
def Fits (s : AppState) : AppCall → Prop
  | .syncNetworks configs => (configs.map (·.id)).Nodup
  | .historyRequestedFor id => (s.conversation id).isSome
  | _ => True

variable (lowercase : String → String)

theorem Sound.arranged (h : s.Sound) {i : AppCall} (hi : arranges i = true) :
    (s.call lowercase i).Sound :=
  h.arrange (call_arranged lowercase hi) (call_remembers lowercase hi)

def keeping : AppCall → Bool
  | .syncNetworks .. | .resetNetwork .. | .setCasemapping .. | .joinedChannel ..
  | .privateConversation .. | .renamePrivate .. | .closePrivate .. | .dispatch ..
  | .appendRequestedJoinAlertAt .. => false
  | i => !arranges i

theorem Sound.call_keeps (h : s.Sound) {i : AppCall} (hk : keeping i = true) (hi : s.Fits i) :
    s.Keeps (s.call lowercase i) := by
  cases i with
  | setStatus id status => exact setStatus_keeps s id status
  | partedChannel network name => exact partedChannel_keeps s network name
  | takeReveal => exact .quiet rfl fun t j hj => by cases t <;> exact hj
  | markUnread id => exact markUnread_keeps s id
  | highlight id => exact highlight_keeps s id
  | markHighlighted network name => exact h.toHeld.markHighlighted_keeps network name
  | noteAttention id => exact noteAttention_keeps s id
  | appendServerMessageAt id text info => exact appendServerMessageAt_keeps s id text info
  | appendSystemMessage id text => exact appendSystemMessage_keeps s id text
  | appendDiagnosticMessage id text => exact appendDiagnosticMessage_keeps s id text
  | appendConversationMessage id sender text kind info unread =>
    exact appendConversationMessage_keeps s id sender text kind info unread
  | appendConversationActivity id text => exact appendToConversation_keeps s id _
  | appendNetworkActivity id text => exact appendNetworkActivity_keeps s id text
  | appendChannelMessageAt network name sender text kind info =>
    exact appendChannelMessageAt_keeps s network name sender text kind info
  | appendChannelActivityAt network name text info =>
    exact appendChannelLineAt_keeps s network name text .activity info
  | appendChannelAlertAt network name text info =>
    exact appendChannelLineAt_keeps s network name text .alert info
  | confirmMessage id sequence text kind info =>
    exact confirmMessage_keeps s id sequence text kind info
  | failMessage id sequence => exact setMessages_keeps s id _
  | historyRequested network name => exact h.toHeld.historyRequested_keeps network name
  | historyRequestedFor id => exact requested_keeps (known_of_isSome hi)
  | historyResumed network name => exact h.toHeld.historyResumed_keeps network name
  | pushHistoryLine id line => exact h.toHeld.pushHistoryLine_keeps id line
  | finishHistoryFor id gapNote => exact finishHistoryFor_keeps s id gapNote
  | setHistoryPaging network available => exact setHistoryPaging_keeps s network available
  | requestOlderHistory id => exact requestOlderHistory_keeps s id
  | pushOlderHistoryLine id request line =>
    exact pushOlderHistoryLine_keeps s id request line
  | finishOlderHistory id request beginning =>
    exact finishOlderHistory_keeps s id request beginning h.toHeld
  | _ => cases hk

theorem Sound.call (h : s.Sound) (i : AppCall) (hi : s.Fits i) : (s.call lowercase i).Sound := by
  cases i with
  | syncNetworks configs => exact h.syncNetworks hi
  | resetNetwork network channels => exact h.resetNetwork network channels
  | setCasemapping network mapping => exact h.setCasemapping network mapping
  | joinedChannel network name => exact h.joinedChannel network name
  | privateConversation network peerKey name create =>
    exact h.privateConversation network peerKey name create
  | renamePrivate network fromKey toKey toName => exact h.renamePrivate network fromKey toKey toName
  | closePrivate id => exact h.closePrivate id
  | setChannelOrder | moveConversation | moveAfter | setGroups | createGroup | renameGroup
  | deleteGroup | setGroupCollapsed | moveToGroup | returnToServer => exact h.arranged lowercase rfl
  | dispatch command => exact h.dispatch command
  | appendRequestedJoinAlertAt network name text info => exact h.joinAlert network name text info
  | _ => exact h.keep (h.call_keeps lowercase rfl hi)

theorem Sound.selectedNetwork_isSome (h : s.Sound) (hs : s.selected ≠ .none) :
    s.selectedNetwork.isSome = true := by
  have hfind : ∀ id, s.hasNetwork id = true → (s.networks.find? (·.id = id)).isSome = true := by
    intro id hid
    rw [List.find?_isSome]
    exact List.any_eq_true.mp hid
  unfold selectedNetwork
  cases hsel : s.selected with
  | server id => exact hfind id (h.server id hsel)
  | channel id =>
    obtain ⟨c, hc, rfl⟩ := (h.selection id hsel).1
    dsimp only
    rw [conversation_eq h.ids.nodup hc]
    exact hfind c.network (h.homed c hc)
  | none => exact absurd hsel hs

theorem mem_displayTree {c : Conversation} (hc : c ∈ s.conversations)
    (hn : s.hasNetwork c.network = true) : c.id ∈ s.displayTree.conversations := by
  unfold displayTree DisplayTree.conversations
  dsimp only
  by_cases hg : c.id ∈ (s.groups.map fun g =>
      (g.id, if s.anyGrouped then g.members.filterMap s.memberChannel else [])).flatMap Prod.snd
  · exact List.mem_append_left _ hg
  · apply List.mem_append_right
    obtain ⟨n, hnm, hid⟩ := List.any_eq_true.mp hn
    refine List.mem_flatMap.mpr ⟨_, List.mem_map_of_mem hnm, ?_⟩
    refine List.mem_map.mpr ⟨c, List.mem_filter.mpr ⟨hc, ?_⟩, rfl⟩
    rw [Bool.and_eq_true, decide_eq_true_eq, Bool.not_eq_true', ← Bool.not_eq_true,
      List.contains_iff_mem]
    exact ⟨(of_decide_eq_true hid).symm, hg⟩

theorem Sound.cycleStart_isSome (h : s.Sound) (forward : Bool) :
    (s.cycleStart s.displayTree s.displayTree.conversations forward).isSome = true := by
  unfold cycleStart
  split
  · rename_i id hs
    obtain ⟨c, hc, rfl⟩ := (h.selection id hs).1
    rw [List.findIdx?_isSome, List.any_eq_true]
    exact ⟨c.id, mem_displayTree hc (h.homed c hc), decide_eq_true rfl⟩
  · dsimp only
    split <;> rfl
  · rfl

/-- After every run of calls the structure is sound, and neither the selected network nor where a
cycle starts is missing. -/
theorem structure_sound (configs : List NetworkConfig) (is : List AppCall)
    (hd : (configs.map (·.id)).Nodup)
    (h : Machine.Along Fits (AppState.call lowercase) (withNetworks configs) is) :
    (run lowercase configs is).Sound ∧
    ((run lowercase configs is).selected ≠ .none →
      (run lowercase configs is).selectedNetwork.isSome = true) ∧
    ∀ forward, ((run lowercase configs is).cycleStart (run lowercase configs is).displayTree
      (run lowercase configs is).displayTree.conversations forward).isSome = true := by
  have hs : (run lowercase configs is).Sound :=
    Machine.exec_invariant Sound (fun s i hs hi => hs.call lowercase i hi)
      (withNetworks_sound hd) h
  exact ⟨hs, hs.selectedNetwork_isSome, hs.cycleStart_isSome⟩

theorem structure_sound_reordered :
    (run toAsciiLowercase [⟨1, "a", ["#x", "#X"]⟩, ⟨2, "b", []⟩]
      [.setCasemapping 1 .rfc1459, .joinedChannel 1 "#x", .privateConversation 2 "bob" "Bob" true,
        .syncNetworks [⟨2, "b", []⟩, ⟨1, "a", []⟩], .dispatch .nextChannel]).Sound := by
  apply (structure_sound toAsciiLowercase _ _ _ _).1
  · decide
  · refine ⟨trivial, trivial, trivial, ?_, trivial, trivial⟩
    change ([2, 1] : List ℕ).Nodup
    decide

end Runs

end AppState

end CayenChat.App
