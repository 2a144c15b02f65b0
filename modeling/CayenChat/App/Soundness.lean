import CayenChat.App.Attention

/-! # What the tables refer to

Ten tables are kept under the identifiers of conversations, channels are found
under their folded names, and conversations belong to networks. Most calls only
keep more or less under identifiers that name conversations.
-/

namespace CayenChat.App

/-- What the tables of a state depend on in a conversation: everything but its lines and the name
of a peer. -/
def Conversation.head (c : Conversation) : ConversationId × NetworkId × ConversationKind × String :=
  (c.id, c.network, c.kind, if c.kind = .channel then c.name else "")

/-- The tables kept under the identifiers of conversations. -/
inductive Table
  | unread
  | highlighted
  | activeChannels
  | attention
  | duplicates
  | pendingHistory
  | historyBlocks
  | olderHistory
  | resumePoints
  | previousChannel
  deriving DecidableEq, Repr

namespace AppState

def Known (s : AppState) (id : ConversationId) : Prop := ∃ c ∈ s.conversations, c.id = id

/-- Something is kept under an identifier. -/
def Holds (s : AppState) (id : ConversationId) : Table → Prop
  | .unread => id ∈ s.unread
  | .highlighted => id ∈ s.highlighted
  | .activeChannels => id ∈ s.activeChannels
  | .attention => ∃ x, (id, x) ∈ s.attention
  | .duplicates => (s.duplicates.lookup id).isSome
  | .pendingHistory => (s.pendingHistory.lookup id).isSome
  | .historyBlocks => (s.historyBlocks.lookup id).isSome
  | .olderHistory => (s.olderHistory.lookup id).isSome
  | .resumePoints => (s.resumePoints.lookup id).isSome
  | .previousChannel => s.previousChannel = some id

def keyOf (s : AppState) (c : Conversation) : NetworkId × String :=
  (c.network, (s.casemapping c.network).fold c.name)

/-- What the tables hold, whatever networks are configured. -/
structure Held (s : AppState) : Prop where
  ids : s.Ids
  tables : ∀ t id, s.Holds id t → s.Known id
  /-- The selected conversation exists and is not marked. -/
  selection : ∀ id, s.selected = .channel id → s.Known id ∧ id ∉ s.unread ∧ id ∉ s.highlighted
  /-- Every channel is found under its folded name. -/
  keyed : ∀ c ∈ s.conversations, c.kind = .channel → (s.channelIds.lookup (s.keyOf c)).isSome
  /-- What is found is a channel of that key. -/
  named : ∀ key id, s.channelIds.lookup key = some id →
    ∃ c ∈ s.conversations, c.id = id ∧ c.kind = .channel ∧ s.keyOf c = key
  /-- A peer has one private conversation. -/
  peers : ∀ c ∈ s.conversations, ∀ c' ∈ s.conversations, c.isPrivate = true →
    c.network = c'.network → c.kind = c'.kind → c = c'
  few : ∀ network, (s.conversations.filter (·.network = network)).length ≤
    maxConversationsPerNetwork
  fewPrivate : ∀ network, (s.conversations.filter fun c =>
    c.network = network && c.isPrivate).length ≤ maxPrivateConversationsPerNetwork
  remembered : ∀ network order, s.channelOrders.lookup network = some order →
    order.length ≤ maxOrderNames

/-- Conversations are at networks that differ, and grouped by these. -/
structure Placed (s : AppState) : Prop where
  distinct : (s.networks.map (·.id)).Nodup
  homed : ∀ c ∈ s.conversations, s.hasNetwork c.network = true
  grouped : s.Grouped

structure Sound (s : AppState) : Prop extends Held s, Placed s where
  server : ∀ id, s.selected = .server id → s.hasNetwork id = true
  nothing : s.selected = .none → s.networks = []

def arrangement (s : AppState) :
    Map NetworkId (List String) × Map NetworkId (Map String ℕ) × List ChannelGroup × GroupId :=
  (s.channelOrders, s.channelRanks, s.groups, s.nextGroupId)

/-- Conversations stay, and the tables hold what they held or something under the identifier of a
conversation, no mark under the selected one. -/
structure Covers (s s' : AppState) : Prop where
  heads : (s'.conversations.map Conversation.head).Perm (s.conversations.map Conversation.head)
  channelIds : s'.channelIds = s.channelIds
  casemappings : s'.casemappings = s.casemappings
  nextConversationId : s'.nextConversationId = s.nextConversationId
  selected : s'.selected = s.selected
  arrangement : s'.arrangement = s.arrangement
  tables : ∀ t id, s'.Holds id t → s.Holds id t ∨
    s.Known id ∧ (t = .unread ∨ t = .highlighted → s.selected ≠ .channel id)

/-- What is more, conversations are of the networks and kinds they were, in this order. -/
structure Keeps (s s' : AppState) : Prop extends Covers s s' where
  places : s'.conversations.map Conversation.place = s.conversations.map Conversation.place
  networks : s'.networks = s.networks

variable {s s' s'' : AppState} {id : ConversationId}

section Heads

variable {c : Conversation}

theorem mem_of_heads
    (h : (s'.conversations.map Conversation.head).Perm (s.conversations.map Conversation.head))
    (hc : c ∈ s'.conversations) : ∃ c' ∈ s.conversations, c'.head = c.head :=
  List.mem_map.mp (h.mem_iff.mp (List.mem_map_of_mem hc))

theorem head_eq {c' : Conversation} (h : c'.head = c.head) :
    c'.id = c.id ∧ c'.network = c.network ∧ c'.kind = c.kind ∧
      (c.kind = .channel → c'.name = c.name) := by
  obtain ⟨hid, h⟩ := Prod.mk.inj h
  obtain ⟨hn, h⟩ := Prod.mk.inj h
  obtain ⟨hk, h⟩ := Prod.mk.inj h
  refine ⟨hid, hn, hk, fun hc => ?_⟩
  rwa [if_pos (hk.trans hc), if_pos hc] at h

theorem known_iff
    (h : (s'.conversations.map Conversation.head).Perm (s.conversations.map Conversation.head)) :
    s'.Known id ↔ s.Known id := by
  constructor
  · rintro ⟨c, hc, rfl⟩
    obtain ⟨c', hc', he⟩ := mem_of_heads h hc
    exact ⟨c', hc', (head_eq he).1⟩
  · rintro ⟨c, hc, rfl⟩
    obtain ⟨c', hc', he⟩ := mem_of_heads h.symm hc
    exact ⟨c', hc', (head_eq he).1⟩

theorem length_heads
    (h : (s'.conversations.map Conversation.head).Perm (s.conversations.map Conversation.head))
    (p : ConversationId × NetworkId × ConversationKind × String → Bool) :
    (s'.conversations.filter (p ∘ Conversation.head)).length =
      (s.conversations.filter (p ∘ Conversation.head)).length := by
  rw [← List.countP_eq_length_filter, ← List.countP_eq_length_filter, ← List.countP_map,
    ← List.countP_map]
  exact h.countP_eq p

end Heads

theorem known_of_isSome (h : (s.conversation id).isSome = true) : s.Known id := by
  obtain ⟨c, hc⟩ := Option.isSome_iff_exists.mp h
  exact ⟨c, conversation_mem hc⟩

theorem known_of_any (h : s.conversations.any (·.id = id) = true) : s.Known id := by
  obtain ⟨c, hc, hid⟩ := List.any_eq_true.mp h
  exact ⟨c, hc, of_decide_eq_true hid⟩

theorem Held.known_channel (h : s.Held) {network : NetworkId} {name : String}
    (hid : s.channelId network name = some id) : s.Known id := by
  obtain ⟨c, hc, rfl, -, -⟩ := h.named _ _ hid
  exact ⟨c, hc, rfl⟩

section Keeping

theorem Covers.refl (s : AppState) : s.Covers s where
  heads := .refl _
  channelIds := rfl
  casemappings := rfl
  nextConversationId := rfl
  selected := rfl
  arrangement := rfl
  tables _ _ h := Or.inl h

theorem Covers.trans (h : s.Covers s') (h' : s'.Covers s'') : s.Covers s'' where
  heads := h'.heads.trans h.heads
  channelIds := h'.channelIds.trans h.channelIds
  casemappings := h'.casemappings.trans h.casemappings
  nextConversationId := h'.nextConversationId.trans h.nextConversationId
  selected := h'.selected.trans h.selected
  arrangement := h'.arrangement.trans h.arrangement
  tables t id ht := by
    rcases h'.tables t id ht with ht | ⟨hk, hm⟩
    · exact h.tables t id ht
    · exact Or.inr ⟨(known_iff h.heads).mp hk, fun hu => h.selected ▸ hm hu⟩

theorem Keeps.refl (s : AppState) : s.Keeps s := ⟨.refl s, rfl, rfl⟩

theorem Keeps.trans (h : s.Keeps s') (h' : s'.Keeps s'') : s.Keeps s'' :=
  ⟨h.toCovers.trans h'.toCovers, h'.places.trans h.places, h'.networks.trans h.networks⟩

theorem Covers.keyOf (h : s.Covers s') {c c' : Conversation} (hc : c'.head = c.head)
    (hk : c.kind = .channel) : s'.keyOf c' = s.keyOf c := by
  obtain ⟨-, hn, -, hname⟩ := head_eq hc
  unfold AppState.keyOf AppState.casemapping
  rw [h.casemappings, hn, hname hk]

theorem Held.keep (h : s.Held) (hk : s.Covers s') : s'.Held where
  ids := by
    have hmap : (s'.conversations.map (·.id)).Perm (s.conversations.map (·.id)) := by
      have := hk.heads.map Prod.fst
      rwa [List.map_map, List.map_map] at this
    refine ⟨hmap.nodup_iff.mpr h.ids.nodup, fun c hc => ?_⟩
    obtain ⟨c', hc', he⟩ := mem_of_heads hk.heads hc
    rw [hk.nextConversationId, ← (head_eq he).1]
    exact h.ids.fresh c' hc'
  tables t id ht := by
    apply (known_iff hk.heads).mpr
    rcases hk.tables t id ht with ht | ⟨hknown, -⟩
    · exact h.tables t id ht
    · exact hknown
  selection id hid := by
    rw [hk.selected] at hid
    obtain ⟨hknown, hu, hh⟩ := h.selection id hid
    refine ⟨(known_iff hk.heads).mpr hknown, fun hm => ?_, fun hm => ?_⟩
    · rcases hk.tables .unread id hm with hm | ⟨-, hm⟩
      · exact hu hm
      · exact hm (Or.inl rfl) hid
    · rcases hk.tables .highlighted id hm with hm | ⟨-, hm⟩
      · exact hh hm
      · exact hm (Or.inr rfl) hid
  keyed c hc hchan := by
    obtain ⟨c', hc', he⟩ := mem_of_heads hk.heads hc
    have hchan' : c'.kind = .channel := (head_eq he).2.2.1.trans hchan
    rw [hk.channelIds, hk.keyOf he.symm hchan']
    exact h.keyed c' hc' hchan'
  named key id hid := by
    rw [hk.channelIds] at hid
    obtain ⟨c, hc, hcid, hchan, hkey⟩ := h.named key id hid
    obtain ⟨c', hc', he⟩ := mem_of_heads hk.heads.symm hc
    obtain ⟨hid', -, hkind, -⟩ := head_eq he
    exact ⟨c', hc', hid'.trans hcid, hkind.trans hchan, (hk.keyOf he hchan).trans hkey⟩
  peers c hc c' hc' hp hn hkind := by
    have hmap : (s'.conversations.map (·.id)).Perm (s.conversations.map (·.id)) := by
      have := hk.heads.map Prod.fst
      rwa [List.map_map, List.map_map] at this
    obtain ⟨a, ha, hea⟩ := mem_of_heads hk.heads hc
    obtain ⟨b, hb, heb⟩ := mem_of_heads hk.heads hc'
    obtain ⟨hida, hna, hka, -⟩ := head_eq hea
    obtain ⟨hidb, hnb, hkb, -⟩ := head_eq heb
    have hab : a = b := h.peers a ha b hb (by rwa [Conversation.isPrivate, hka])
      (hna.trans (hn.trans hnb.symm)) (hka.trans (hkind.trans hkb.symm))
    apply List.inj_on_of_nodup_map (hmap.nodup_iff.mpr h.ids.nodup) hc hc'
    rw [← hida, ← hidb, hab]
  few network := (length_heads hk.heads fun c => c.2.1 = network).trans_le (h.few network)
  fewPrivate network := (length_heads hk.heads fun c => c.2.1 = network &&
    decide (c.2.2.1 ≠ .channel)).trans_le (h.fewPrivate network)
  remembered network order ho := by
    have horders : s'.channelOrders = s.channelOrders := congrArg Prod.fst hk.arrangement
    exact h.remembered network order (horders ▸ ho)

theorem Placed.keep (h : s.Placed) (hk : s.Keeps s') : s'.Placed where
  distinct := hk.networks ▸ h.distinct
  homed c hc := by
    obtain ⟨c', hc', he⟩ := mem_of_heads hk.heads hc
    rw [hasNetwork, hk.networks, ← (head_eq he).2.1]
    exact h.homed c' hc'
  grouped := by
    unfold Grouped networkPosition
    rw [hk.places, hk.networks]
    exact h.grouped

theorem Sound.keep (h : s.Sound) (hk : s.Keeps s') : s'.Sound where
  toHeld := h.toHeld.keep hk.toCovers
  toPlaced := h.toPlaced.keep hk
  server id hid := by
    rw [hasNetwork, hk.networks]
    exact h.server id (hk.selected ▸ hid)
  nothing hn := hk.networks ▸ h.nothing (hk.selected ▸ hn)

def frame (s : AppState) : List Conversation × List Network ×
    Map (NetworkId × String) ConversationId × Map NetworkId CaseMapping × ConversationId ×
    Selection × Map NetworkId (List String) × Map NetworkId (Map String ℕ) × List ChannelGroup ×
    GroupId :=
  (s.conversations, s.networks, s.channelIds, s.casemappings, s.nextConversationId, s.selected,
    s.arrangement)

theorem Keeps.of_frame (h : s'.frame = s.frame)
    (ht : ∀ t id, s'.Holds id t → s.Holds id t ∨
      s.Known id ∧ (t = .unread ∨ t = .highlighted → s.selected ≠ .channel id)) : s.Keeps s' := by
  simp only [frame, Prod.mk.injEq] at h
  obtain ⟨hc, hn, hi, hm, hx, hs, ho⟩ := h
  exact {
    heads := hc ▸ .refl _
    places := by rw [hc]
    networks := hn
    channelIds := hi
    casemappings := hm
    nextConversationId := hx
    selected := hs
    arrangement := ho
    tables := ht }

theorem Keeps.under (hk : s.Known id) (h : s'.frame = s.frame)
    (ht : ∀ t j, s'.Holds j t → s.Holds j t ∨ j = id ∧ t ≠ .unread ∧ t ≠ .highlighted) :
    s.Keeps s' := by
  apply Keeps.of_frame h
  intro t j hj
  rcases ht t j hj with hj | ⟨rfl, hu, hh⟩
  · exact Or.inl hj
  · refine Or.inr ⟨hk, ?_⟩
    rintro (rfl | rfl)
    · exact absurd rfl hu
    · exact absurd rfl hh

theorem Keeps.quiet (h : s'.frame = s.frame) (ht : ∀ t id, s'.Holds id t → s.Holds id t) :
    s.Keeps s' :=
  Keeps.of_frame h fun t id hid => Or.inl (ht t id hid)

theorem map_replaceF_of_mem {α : Type} {l : List Conversation} {f : Conversation → Conversation}
    {g : Conversation → α} (hf : ∀ c ∈ l, c.id = id → g (f c) = g c) :
    (l.replaceF fun c => if c.id = id then some (f c) else none).map g = l.map g := by
  induction l with
  | nil => rfl
  | cons c l ih =>
    by_cases hc : c.id = id
    · rw [List.replaceF, if_pos hc, List.map_cons, List.map_cons, hf c List.mem_cons_self hc]
    · rw [List.replaceF, if_neg hc, List.map_cons, List.map_cons,
        ih fun a ha => hf a (.tail _ ha)]

theorem Keeps.modify {f : Conversation → Conversation}
    (hf : ∀ c ∈ s.conversations, c.id = id → (f c).head = c.head) :
    s.Keeps (s.modifyConversation id f) where
  heads := .of_eq (map_replaceF_of_mem hf)
  places := by
    apply map_replaceF_of_mem
    intro c hc hid
    obtain ⟨-, hn, hk, -⟩ := head_eq (hf c hc hid)
    exact Prod.ext hn (by rw [Conversation.place, Conversation.isPrivate, hk]; rfl)
  networks := rfl
  channelIds := rfl
  casemappings := rfl
  nextConversationId := rfl
  selected := rfl
  arrangement := rfl
  tables t _ h := by
    left
    cases t <;> exact h

theorem setMessages_keeps (s : AppState) (id : ConversationId) (l : List Message) :
    s.Keeps (s.setMessages id l) :=
  Keeps.modify fun _ _ _ => rfl

theorem Keeps.ite {p : Prop} [Decidable p] (h : s.Keeps s') (h' : s.Keeps s'') :
    s.Keeps (if p then s' else s'') := by
  split
  · exact h
  · exact h'

end Keeping

section Lines

theorem pruneAttention_keeps (s : AppState) (id : ConversationId) :
    s.Keeps (s.pruneAttention id) := by
  refine Keeps.quiet rfl ?_
  intro t j hj
  cases t with
  | attention =>
    obtain ⟨x, hx⟩ := hj
    exact ⟨x, List.mem_of_mem_filter hx⟩
  | _ => exact hj

theorem noteAttentionAt_keeps (hk : s.Known id) (x : ℤ) : s.Keeps (s.noteAttentionAt id x) := by
  refine Keeps.under hk rfl fun t j hj => ?_
  cases t with
  | attention =>
    obtain ⟨y, hy⟩ := hj
    rcases Attention.mem_note hy with hy | hy
    · exact Or.inl ⟨y, hy⟩
    · exact Or.inr ⟨(Prod.mk.inj hy).1, by decide, by decide⟩
  | _ => exact Or.inl hj

theorem known_of_log {m : Message} (hm : m ∈ s.log id) : s.Known id := by
  unfold log at hm
  cases hc : s.conversation id with
  | none =>
    rw [hc] at hm
    cases hm
  | some c => exact ⟨c, conversation_mem hc⟩

theorem noteAttention_keeps (s : AppState) (id : ConversationId) :
    s.Keeps (s.noteAttention id) := by
  unfold noteAttention
  split
  · exact .refl s
  · rename_i m hm
    exact noteAttentionAt_keeps (known_of_log (List.mem_of_getLast? hm)) m.sequence

theorem admitMessage_keeps (hk : s.Known id) (m : Message) : s.Keeps (s.admitMessage id m).1 := by
  unfold admitMessage
  split
  · refine Keeps.under hk rfl fun t j hj => ?_
    cases t with
    | duplicates => exact (Map.of_lookup_insert hj).imp_right fun h => ⟨h, by decide, by decide⟩
    | _ => exact Or.inl hj
  · exact .refl s

theorem appendToConversation_keeps (s : AppState) (id : ConversationId) (m : Message) :
    s.Keeps (s.appendToConversation id m).1 := by
  unfold appendToConversation
  split
  · exact .refl s
  rename_i hc
  rw [Option.isNone_iff_eq_none] at hc
  have hk : s.Known id := known_of_isSome (Option.isSome_iff_ne_none.mpr hc)
  have ha := admitMessage_keeps hk m
  dsimp only
  split
  · exact ha
  have hset : s.Keeps (({ (s.admitMessage id m).1 with
      nextMessageSequence := s.nextMessageSequence + 1 } : AppState).setMessages id
      (pushBounded (s.log id) { m with sequence := s.nextMessageSequence + 1 }).1) := by
    refine (ha.trans ?_).trans (setMessages_keeps _ _ _)
    exact Keeps.quiet rfl fun t j hj => by cases t <;> exact hj
  split
  · exact hset.trans (pruneAttention_keeps _ _)
  · exact hset

theorem markUnread_keeps (s : AppState) (id : ConversationId) : s.Keeps (s.markUnread id) := by
  unfold markUnread
  split
  swap
  · exact .refl s
  rename_i hc
  obtain ⟨hc, hs⟩ := Bool.and_eq_true_iff.mp hc
  refine Keeps.of_frame rfl fun t j hj => ?_
  cases t with
  | unread =>
    rcases Finset.mem_insert.mp hj with rfl | hj
    · exact Or.inr ⟨known_of_any hc, fun _ => of_decide_eq_true hs⟩
    · exact Or.inl hj
  | _ => exact Or.inl hj

theorem insertHighlight_keeps (hk : s.Known id) (hs : s.selected ≠ .channel id) :
    s.Keeps { s with highlighted := insert id s.highlighted } := by
  refine Keeps.of_frame rfl fun t j hj => ?_
  cases t with
  | highlighted =>
    rcases Finset.mem_insert.mp hj with rfl | hj
    · exact Or.inr ⟨hk, fun _ => hs⟩
    · exact Or.inl hj
  | _ => exact Or.inl hj

theorem highlight_keeps (s : AppState) (id : ConversationId) : s.Keeps (s.highlight id) := by
  unfold highlight
  split
  · rename_i hc
    obtain ⟨hs, hc⟩ := Bool.and_eq_true_iff.mp hc
    exact insertHighlight_keeps (known_of_any hc) (of_decide_eq_true hs)
  · exact .refl s

theorem Held.markHighlighted_keeps (h : s.Held) (network : NetworkId) (name : String) :
    s.Keeps (s.markHighlighted network name) := by
  unfold markHighlighted
  split
  · rename_i id hid
    split
    · rename_i hs
      exact insertHighlight_keeps (h.known_channel hid) hs
    · exact .refl s
  · exact .refl s

theorem pushServerMessage_keeps (s : AppState) (id : NetworkId) (m : Message) :
    s.Keeps (s.pushServerMessage id m) :=
  Keeps.quiet rfl fun t _ hj => by cases t <;> exact hj

theorem appendServerMessageAt_keeps (s : AppState) (id : NetworkId) (text : String)
    (info : MessageMeta) : s.Keeps (s.appendServerMessageAt id text info) :=
  .ite (pushServerMessage_keeps s id _) (.refl s)

theorem appendDiagnosticMessage_keeps (s : AppState) (id : NetworkId) (text : String) :
    s.Keeps (s.appendDiagnosticMessage id text) :=
  .ite (pushServerMessage_keeps s id _) (.refl s)

theorem appendSystemMessage_keeps (s : AppState) (id : NetworkId) (text : String) :
    s.Keeps (s.appendSystemMessage id text) := by
  unfold appendSystemMessage
  split
  · refine Keeps.trans ?_ (pushServerMessage_keeps _ id _)
    exact Keeps.quiet rfl fun t _ hj => by cases t <;> exact hj
  · exact .refl s

theorem appendConversationMessage_keeps (s : AppState) (id : ConversationId)
    (sender text : String) (kind : Kind) (info : MessageMeta) (unread : Bool) :
    s.Keeps (s.appendConversationMessage id sender text kind info unread).1 := by
  have ha := appendToConversation_keeps s id (sentMessage sender text kind info)
  unfold appendConversationMessage
  dsimp only
  split
  · exact ha
  · split
    · exact ha.trans (markUnread_keeps _ id)
    · exact ha

theorem appendNetworkActivity_keeps (s : AppState) (id : NetworkId) (text : String) :
    s.Keeps (s.appendNetworkActivity id text) := by
  unfold appendNetworkActivity
  generalize s.conversationsOf id = ids
  induction ids generalizing s with
  | nil => exact .refl s
  | cons j ids ih => exact (appendToConversation_keeps s j _).trans (ih _)

theorem appendChannelMessageAt_keeps (s : AppState) (network : NetworkId)
    (name sender text : String) (kind : Kind) (info : MessageMeta) :
    s.Keeps (s.appendChannelMessageAt network name sender text kind info).1 := by
  unfold appendChannelMessageAt
  split
  · exact appendServerMessageAt_keeps s network _ info
  rename_i id _
  have ha := appendToConversation_keeps s id (sentMessage sender text kind info)
  dsimp only
  split
  · exact ha
  · split
    · exact ha.trans (markUnread_keeps _ id)
    · exact ha

theorem appendChannelLineAt_keeps (s : AppState) (network : NetworkId) (name text : String)
    (line : Line) (info : MessageMeta) :
    s.Keeps (s.appendChannelLineAt network name text line info) := by
  unfold appendChannelLineAt
  split
  · exact appendToConversation_keeps s _ _
  · exact .refl s

theorem confirmMessage_keeps (s : AppState) (id : ConversationId) (x : ℤ) (text : Option String)
    (kind : Kind) (info : MessageMeta) :
    s.Keeps (s.confirmMessage id x text kind info).1 := by
  unfold confirmMessage
  split
  · exact .refl s
  · rename_i m hm
    have hk : s.Known id := known_of_isSome (conversation_of_log hm)
    have hset := setMessages_keeps s id (edited (s.log id) x (confirmed text kind info))
    exact hset.trans (admitMessage_keeps ((known_iff hset.heads).mpr hk) _)

end Lines

section History

theorem requested_keeps (hk : s.Known id) : s.Keeps (s.historyRequestedFor id) := by
  refine Keeps.under hk rfl fun t j hj => ?_
  cases t with
  | pendingHistory => exact (Map.of_lookup_insert hj).imp_right fun h => ⟨h, by decide, by decide⟩
  | resumePoints => exact Or.inl (Map.of_lookup_erase hj).1
  | _ => exact Or.inl hj

theorem pending_keeps (hk : s.Known id) (lines : List (Message × Bool)) :
    s.Keeps { s with pendingHistory := s.pendingHistory.insert id lines } := by
  refine Keeps.under hk rfl fun t j hj => ?_
  cases t with
  | pendingHistory => exact (Map.of_lookup_insert hj).imp_right fun h => ⟨h, by decide, by decide⟩
  | _ => exact Or.inl hj

theorem Held.historyRequested_keeps (h : s.Held) (network : NetworkId) (name : String) :
    s.Keeps (s.historyRequested network name) := by
  unfold historyRequested
  split
  · rename_i id hid
    exact requested_keeps (h.known_channel hid)
  · exact .refl s

theorem Held.historyResumed_keeps (h : s.Held) (network : NetworkId) (name : String) :
    s.Keeps (s.historyResumed network name) := by
  unfold historyResumed
  split
  · rename_i id hid
    exact pending_keeps (h.known_channel hid) []
  · exact .refl s

theorem Held.pushHistoryLine_keeps (h : s.Held) (id : ConversationId) (line : TimelineLine) :
    s.Keeps (s.pushHistoryLine id line).1 := by
  unfold pushHistoryLine
  split
  · exact .refl s
  · rename_i lines hl
    refine pending_keeps (h.tables .pendingHistory id ?_) _
    rw [Holds, hl]
    rfl

theorem appendReplyLine_keeps (id : ConversationId) (n : ℕ) (line : Message × Bool) :
    s.Keeps (appendReplyLine id (s, n) line).1 := by
  have ha := appendToConversation_keeps s id line.1
  unfold appendReplyLine
  dsimp only
  split
  · split
    · exact ha.trans (noteAttention_keeps _ id)
    · exact ha
  · exact ha

theorem appendReply_keeps (id : ConversationId) (lines : List (Message × Bool)) (n : ℕ) :
    s.Keeps (lines.foldl (appendReplyLine id) (s, n)).1 := by
  induction lines generalizing s n with
  | nil => exact .refl s
  | cons line lines ih => exact (appendReplyLine_keeps id n line).trans (ih _)

theorem finishHistoryFor_keeps (s : AppState) (id : ConversationId) (gapNote : Option String) :
    s.Keeps (s.finishHistoryFor id gapNote).1 := by
  unfold finishHistoryFor
  split
  · exact .refl s
  rename_i lines hl
  have hd : s.Keeps { s with
      pendingHistory := s.pendingHistory.erase id
      resumePoints := s.resumePoints.erase id } := by
    refine .quiet rfl fun t j hj => ?_
    cases t with
    | pendingHistory | resumePoints => exact (Map.of_lookup_erase hj).1
    | _ => exact hj
  dsimp only
  split
  · exact hd
  · split
    · refine (hd.trans (appendReplyLine_keeps id 0 _)).trans (appendReply_keeps id _ _)
    · exact hd.trans (appendReply_keeps id _ _)

theorem setHistoryPaging_keeps (s : AppState) (network : NetworkId) (available : Bool) :
    s.Keeps (s.setHistoryPaging network available) := by
  unfold setHistoryPaging
  split
  · exact .quiet rfl fun t _ hj => by cases t <;> exact hj
  · exact .quiet rfl fun t _ hj => by cases t <;> exact hj

theorem requestOlderHistory_keeps (s : AppState) (id : ConversationId) :
    s.Keeps (s.requestOlderHistory id).1 := by
  unfold requestOlderHistory
  split
  · exact .refl s
  rename_i c hc
  dsimp only
  split
  · exact .refl s
  split
  · exact .refl s
  · refine Keeps.under ⟨c, conversation_mem hc⟩ rfl fun t j hj => ?_
    cases t with
    | olderHistory => exact (Map.of_lookup_insert hj).imp_right fun h => ⟨h, by decide, by decide⟩
    | _ => exact Or.inl hj

theorem block_keeps (hk : s.Known id) (k : HistoryBlock) (floor : ℤ) :
    s.Keeps { s with
      historyBlocks := s.historyBlocks.insert id k
      olderSequenceFloor := floor } := by
  refine Keeps.under hk rfl fun t j hj => ?_
  cases t with
  | historyBlocks => exact (Map.of_lookup_insert hj).imp_right fun h => ⟨h, by decide, by decide⟩
  | _ => exact Or.inl hj

theorem openBlock_keeps (hk : s.Known id) (request : ℕ) : s.Keeps (s.openBlock id request) :=
  .ite (.refl s) (block_keeps hk _ _)

theorem placeStreamed_keeps (hk : s.Known id) (m : Message) (attention : Bool) :
    s.Keeps (s.placeStreamed id m attention) := by
  have hset := setMessages_keeps s id (placed (s.log id) m).1
  have hk' := (known_iff hset.heads).mpr hk
  unfold placeStreamed
  dsimp only
  split
  · split
    · exact (hset.trans (noteAttentionAt_keeps hk' _)).trans (pruneAttention_keeps _ id)
    · exact hset.trans (pruneAttention_keeps _ id)
  · split
    · exact hset.trans (noteAttentionAt_keeps hk' _)
    · exact hset

theorem place_keeps (hk : s.Known id) (k : HistoryBlock) (m : Message) (attention : Bool) :
    s.Keeps (({ s with historyBlocks := s.historyBlocks.insert id k } :
      AppState).placeStreamed id m attention) :=
  (block_keeps hk k s.olderSequenceFloor).trans (placeStreamed_keeps (by exact hk) m attention)

theorem pushOlderHistoryLine_keeps (s : AppState) (id : ConversationId) (request : ℕ)
    (line : TimelineLine) : s.Keeps (s.pushOlderHistoryLine id request line).1 := by
  unfold pushOlderHistoryLine
  split
  · exact .refl s
  rename_i hc
  have hk : s.Known id := by
    rw [Bool.or_eq_true, not_or, Option.isNone_iff_eq_none] at hc
    exact known_of_isSome (Option.isSome_iff_ne_none.mpr hc.2)
  have ho := openBlock_keeps hk request
  have hk' := (known_iff ho.heads).mpr hk
  dsimp only
  split
  · exact ho
  split
  · exact ho
  split
  · exact ho
  split
  · exact ho.trans (block_keeps hk' _ _)
  · exact ho.trans (place_keeps hk' _ _ _)

theorem of_carried {attention : Attention} {first stop y : ℤ} {note : Option Message}
    {lines : List Message} {j : ConversationId}
    (h : (j, y) ∈ carried attention id first stop note lines) : ∃ x, (j, x) ∈ attention := by
  unfold carried at h
  split at h
  swap
  · exact ⟨y, h⟩
  obtain ⟨⟨i, x⟩, hm, h⟩ := List.mem_filterMap.mp h
  dsimp only at h
  split at h
  · obtain ⟨rfl, rfl⟩ := Prod.mk.inj (Option.some.inj h)
    exact ⟨_, hm⟩
  split at h
  · obtain ⟨rfl, -⟩ := Prod.mk.inj (Option.some.inj h)
    exact ⟨_, hm⟩
  · cases h
  · obtain ⟨rfl, rfl⟩ := Prod.mk.inj (Option.some.inj h)
    exact ⟨_, hm⟩

theorem settleBlock_keeps (s : AppState) (id : ConversationId) (first stop : ℤ)
    (note : Option Message) : s.Keeps (s.settleBlock id first stop note).1 := by
  unfold settleBlock
  refine Keeps.trans ?_ (setMessages_keeps _ id _)
  refine .quiet rfl fun t j hj => ?_
  cases t with
  | attention =>
    obtain ⟨x, hx⟩ := hj
    exact of_carried hx
  | _ => exact hj

theorem finishOlderHistory_keeps (s : AppState) (id : ConversationId) (request : ℕ)
    (beginning : Bool) (h : s.Held) :
    s.Keeps (s.finishOlderHistory id request beginning).1 := by
  unfold finishOlderHistory
  split
  · exact .refl s
  rename_i hf
  rw [ne_eq, not_not] at hf
  obtain ⟨o, ho, -⟩ := Option.bind_eq_some_iff.mp hf
  have hk : s.Known id := h.tables .olderHistory id (by rw [Holds, ho]; rfl)
  have hd : s.Keeps { s with
      olderHistory := Map.adjust s.olderHistory id fun state => { state with inFlight := none }
      historyBlocks := s.historyBlocks.erase id } := by
    refine .quiet rfl fun t j hj => ?_
    cases t with
    | olderHistory =>
      dsimp only [Holds] at hj ⊢
      rw [Map.lookup_adjust] at hj
      split at hj
      · rwa [Option.isSome_map] at hj
      · exact hj
    | historyBlocks => exact (Map.of_lookup_erase hj).1
    | _ => exact hj
  have hr : ∀ r : AppState × ℕ, s.Keeps r.1 → s.Keeps (if beginning || r.2 = 0 then
      ({ r.1 with olderHistory := r.1.olderHistory.insert id { finished := true } }, r.2)
      else r).1 := by
    intro r hr
    split
    · refine hr.trans (Keeps.under ((known_iff hr.heads).mpr hk) rfl fun t j hj => ?_)
      cases t with
      | olderHistory =>
        exact (Map.of_lookup_insert hj).imp_right fun h => ⟨h, by decide, by decide⟩
      | _ => exact Or.inl hj
    · exact hr
  apply hr
  split
  · split
    · exact hd.trans (settleBlock_keeps _ id _ _ none)
    · exact hd
  · exact hd

end History

end AppState

end CayenChat.App
