import CayenChat.App.Arranging
import CayenChat.App.Sequences

/-! # Calls as events of the logs

Every call of the application state is a list of events of the logs, read off
the call and the state it meets. What the events keep, the calls keep.
-/

namespace CayenChat.App

namespace AppState

/-- The logs of a state. -/
def shelf (s : AppState) : Shelf where
  lines := s.lines
  top := s.nextMessageSequence
  floor := s.olderSequenceFloor
  blocks := fun id => s.historyBlocks.lookup id
  filters := s.filterOf
  attention := s.attention

/-- Identifiers name conversations, and the next one is new. -/
structure Ids (s : AppState) : Prop where
  nodup : (s.conversations.map (·.id)).Nodup
  fresh : ∀ c ∈ s.conversations, c.id < s.nextConversationId

def Follows (s : AppState) (es : List LogEvent) (s' : AppState) : Prop :=
  s.Ids → s'.Ids ∧ s'.shelf = es.foldl Shelf.step s.shelf

variable {s s' s'' : AppState} {es es' : List LogEvent} {id : ConversationId}

theorem Follows.refl (s : AppState) : s.Follows [] s := fun h => ⟨h, rfl⟩

theorem Follows.trans (h : s.Follows es s') (h' : s'.Follows es' s'') :
    s.Follows (es ++ es') s'' := by
  intro hi
  obtain ⟨hi', he⟩ := h hi
  obtain ⟨hi'', he'⟩ := h' hi'
  exact ⟨hi'', by rw [he', he, List.foldl_append]⟩

theorem Follows.after (h : s.Follows [] s') (h' : s'.Follows es s'') : s.Follows es s'' :=
  h.trans h'

theorem Follows.quiet (hc : s'.conversations = s.conversations)
    (hn : s'.nextConversationId = s.nextConversationId) (h : s'.shelf = s.shelf) :
    s.Follows [] s' :=
  fun hi => ⟨⟨hc ▸ hi.nodup, fun c hm => hn ▸ hi.fresh c (hc ▸ hm)⟩, h⟩

theorem Follows.single {e : LogEvent} (hi : s.Ids → s'.Ids) (h : s.Ids → s'.shelf = s.shelf.step e) :
    s.Follows [e] s' :=
  fun h' => ⟨hi h', h h'⟩

theorem Ids.congr (h : s.Ids) (hc : s'.conversations.map (·.id) = s.conversations.map (·.id))
    (hn : s'.nextConversationId = s.nextConversationId) : s'.Ids := by
  constructor
  · rw [hc]
    exact h.nodup
  · intro c hm
    have : c.id ∈ s.conversations.map (·.id) := hc ▸ List.mem_map_of_mem hm
    obtain ⟨c', hc', heq⟩ := List.mem_map.mp this
    rw [hn, ← heq]
    exact h.fresh c' hc'

section Conversations

theorem find_replaceF (l : List Conversation) (f : Conversation → Conversation)
    (hf : ∀ c, (f c).id = c.id) (id j : ConversationId) :
    (l.replaceF fun c => if c.id = id then some (f c) else none).find? (·.id = j) =
      if j = id then (l.find? (·.id = j)).map f else l.find? (·.id = j) := by
  induction l with
  | nil => simp
  | cons c l ih =>
    by_cases hc : c.id = id
    · by_cases hj : j = id
      · subst hj
        simp [List.replaceF, hc, hf]
      · simp [List.replaceF, hc, hf, hj, Ne.symm hj]
    · by_cases hcj : c.id = j
      · simp [List.replaceF, hcj, hcj ▸ hc]
      · simp only [List.replaceF, if_neg hc, List.find?_cons, hcj, decide_false]
        exact ih

theorem map_replaceF (l : List Conversation) {f : Conversation → Conversation} {α : Type}
    {g : Conversation → α} (hf : ∀ c, g (f c) = g c) (id : ConversationId) :
    (l.replaceF fun c => if c.id = id then some (f c) else none).map g = l.map g := by
  induction l with
  | nil => rfl
  | cons c l ih =>
    by_cases hc : c.id = id
    · simp [List.replaceF, hc, hf]
    · simp only [List.replaceF, if_neg hc, List.map_cons, ih]

theorem conversation_modify {f : Conversation → Conversation} (hf : ∀ c, (f c).id = c.id)
    (j : ConversationId) : (s.modifyConversation id f).conversation j =
      if j = id then (s.conversation j).map f else s.conversation j :=
  find_replaceF s.conversations f hf id j

theorem setMessages_ids (s : AppState) (id : ConversationId) (l : List Message) :
    (s.setMessages id l).conversations.map (·.id) = s.conversations.map (·.id) :=
  map_replaceF s.conversations (f := fun c => { c with messages := l }) (fun _ => rfl) id

theorem Ids.modify (h : s.Ids) {f : Conversation → Conversation} (hf : ∀ c, (f c).id = c.id) :
    (s.modifyConversation id f).Ids :=
  h.congr (map_replaceF s.conversations hf id) rfl

theorem log_setMessages (l : List Message) (h : l = [] ∨ (s.conversation id).isSome) :
    (s.setMessages id l).log = Function.update s.log id l := by
  funext j
  unfold log setMessages
  rw [conversation_modify (f := fun c => { c with messages := l }) (fun _ => rfl),
    Function.update_apply]
  split_ifs with hj
  · subst hj
    cases hc : s.conversation j with
    | none =>
      rw [hc] at h
      rcases h with rfl | h
      · rfl
      · cases h
    | some c => rfl
  · rfl

theorem shelf_setMessages (l : List Message) (h : l = [] ∨ (s.conversation id).isSome) :
    (s.setMessages id l).shelf = s.shelf.setLog id l := by
  unfold shelf Shelf.setLog Shelf.setLines
  congr 1
  funext source
  cases source with
  | conversation j =>
    change (s.setMessages id l).log j = _
    rw [log_setMessages l h, Function.update_apply, Function.update_apply]
    simp only [Source.conversation.injEq]
    rfl
  | server n =>
    rw [Function.update_apply]
    simp only [reduceCtorEq, if_false]
    rfl

end Conversations

section Appending

theorem DuplicateFilter.admitMessage_of_isNone {f : DuplicateFilter} {m : Message}
    (h : (m.nativeId.isSome || m.timestamp.isSome) = false) : f.admitMessage m = (f, true) := by
  rw [Bool.or_eq_false_iff, Option.isSome_eq_false_iff, Option.isSome_eq_false_iff,
    Option.isNone_iff_eq_none, Option.isNone_iff_eq_none] at h
  have hk : m.key = none := by
    unfold Message.key
    rw [h.1, h.2]
  unfold DuplicateFilter.admitMessage
  rw [hk]

theorem DuplicateFilter.admitMessage_fst {f : DuplicateFilter} {m : Message}
    (h : (f.admitMessage m).2 = false) : (f.admitMessage m).1 = f := by
  unfold DuplicateFilter.admitMessage at h ⊢
  split
  · rfl
  · rename_i hk
    rw [hk] at h
    dsimp only at h ⊢
    split
    · rfl
    · rename_i hs
      rw [if_neg hs] at h
      cases h

theorem admitMessage_eq (s : AppState) (id : ConversationId) (m : Message) :
    ∃ duplicates, (s.admitMessage id m).1 = { s with duplicates } ∧
      (s.admitMessage id m).1.filterOf = Function.update s.filterOf id ((s.filterOf id).admitMessage m).1 ∧
      (s.admitMessage id m).2 = ((s.filterOf id).admitMessage m).2 := by
  unfold admitMessage
  split_ifs with h
  · refine ⟨_, rfl, ?_, rfl⟩
    funext j
    unfold filterOf
    rw [Function.update_apply]
    dsimp only
    rw [Map.lookup_insert]
    split_ifs <;> rfl
  · rw [DuplicateFilter.admitMessage_of_isNone (Bool.eq_false_of_not_eq_true h)]
    exact ⟨s.duplicates, rfl, (Function.update_eq_self id s.filterOf).symm, rfl⟩

theorem shelf_admitMessage (s : AppState) (id : ConversationId) (m : Message) :
    (s.admitMessage id m).1.shelf = s.shelf.admitMessage id m := by
  obtain ⟨duplicates, heq, hf, -⟩ := admitMessage_eq s id m
  rw [heq] at hf ⊢
  unfold shelf Shelf.admitMessage
  rw [hf]
  rfl

def appendEvents (s : AppState) (id : ConversationId) (m : Message) (attention : Bool) :
    List LogEvent :=
  if (s.conversation id).isSome then [.append id m attention] else []

theorem appended_shelf (s : AppState) {id : ConversationId} {m : Message}
    (hc : (s.conversation id).isSome) :
    (s.appendToConversation id m).2 = ((s.shelf.filters id).admitMessage m).2 ∧
      (s.appendToConversation id m).1.shelf =
        if ((s.shelf.filters id).admitMessage m).2 then s.shelf.append id m else s.shelf := by
  have hnone : (s.conversation id).isNone = false := by
    rwa [← Option.not_isSome, Bool.not_eq_false']
  obtain ⟨duplicates, hd, hf, hr⟩ := admitMessage_eq s id m
  have hshelf := shelf_admitMessage s id m
  unfold appendToConversation
  dsimp only
  rw [hnone, hr]
  change _ = _ ∧ _ = if ((s.filterOf id).admitMessage m).2 = true then _ else _
  cases hadm : ((s.filterOf id).admitMessage m).2 with
  | false =>
    refine ⟨hadm.symm, ?_⟩
    change (s.admitMessage id m).1.shelf = s.shelf
    rw [hshelf]
    unfold Shelf.admitMessage
    rw [show ((s.shelf.filters id).admitMessage m).1 = s.shelf.filters id from
      DuplicateFilter.admitMessage_fst hadm, Function.update_eq_self]
  | true =>
    refine ⟨hadm.symm, ?_⟩
    rw [hd] at hshelf ⊢
    set s₁ : AppState := { s with duplicates, nextMessageSequence := s.nextMessageSequence + 1 }
    set pushed := pushBounded (s.log id) { m with sequence := s.nextMessageSequence + 1 }
    have hset := shelf_setMessages (s := s₁) pushed.1 (Or.inr hc)
    have hlog : (s₁.setMessages id pushed.1).log id = pushed.1 := by
      rw [log_setMessages (s := s₁) pushed.1 (Or.inr hc), Function.update_self]
    have hs₁ : s₁.shelf = { s.shelf.admitMessage id m with top := s.nextMessageSequence + 1 } := by
      rw [← hshelf]
      rfl
    change (if pushed.2 then (s₁.setMessages id pushed.1).pruneAttention id
      else s₁.setMessages id pushed.1).shelf = s.shelf.append id m
    unfold Shelf.append
    change _ = { (s.shelf.admitMessage id m).setLog id pushed.1 with
      top := s.nextMessageSequence + 1
      attention := if pushed.2 then s.attention.prune id pushed.1 else s.attention }
    split
    · unfold pruneAttention
      rw [hlog]
      change { (s₁.setMessages id pushed.1).shelf with
        attention := s.attention.prune id pushed.1 } = _
      rw [hset, hs₁]
      rfl
    · rw [hset, hs₁]
      rfl

theorem appendToConversation_ids (h : s.Ids) (id : ConversationId) (m : Message) :
    (s.appendToConversation id m).1.Ids := by
  obtain ⟨duplicates, hd, -, -⟩ := admitMessage_eq s id m
  unfold appendToConversation
  dsimp only
  rw [hd]
  split
  · exact h
  split
  · exact h.congr rfl rfl
  split
  · exact h.congr (setMessages_ids s id _) rfl
  · exact h.congr (setMessages_ids s id _) rfl

theorem appendToConversation_follows (s : AppState) (id : ConversationId) (m : Message) :
    s.Follows (s.appendEvents id m false) (s.appendToConversation id m).1 := by
  intro hi
  refine ⟨appendToConversation_ids hi id m, ?_⟩
  unfold appendEvents
  split
  · rename_i hc
    exact (appended_shelf s hc).2
  · rename_i hc
    unfold appendToConversation
    rw [Option.not_isSome_iff_eq_none.mp hc]
    rfl

theorem shelf_noteAttention (s : AppState) (id : ConversationId) :
    (s.noteAttention id).shelf = s.shelf.note id := by
  unfold noteAttention Shelf.note
  rw [show (s.shelf.log id).getLast? = (s.log id).getLast? from rfl]
  cases (s.log id).getLast? <;> rfl

theorem noteAttention_ids (h : s.Ids) (id : ConversationId) : (s.noteAttention id).Ids := by
  unfold noteAttention
  split
  · exact h
  · exact h.congr rfl rfl

theorem appendReplyLine_follows (s : AppState) (id : ConversationId) (n : ℕ) (m : Message)
    (attention : Bool) :
    s.Follows (s.appendEvents id m attention) (appendReplyLine id (s, n) (m, attention)).1 := by
  intro hi
  have hids := appendToConversation_ids hi id m
  unfold appendReplyLine appendEvents
  dsimp only
  by_cases hc : (s.conversation id).isSome
  · obtain ⟨hr, hs⟩ := appended_shelf s (m := m) hc
    rw [if_pos hc, hr]
    change _ ∧ _ = if ((s.shelf.filters id).admitMessage m).2 then
      if attention then (s.shelf.append id m).note id else s.shelf.append id m else s.shelf
    split
    · rename_i hadm
      rw [if_pos hadm] at hs
      split
      · exact ⟨noteAttention_ids hids id, by rw [shelf_noteAttention, hs]⟩
      · exact ⟨hids, hs⟩
    · rename_i hadm
      rw [if_neg hadm] at hs
      exact ⟨hids, hs⟩
  · rw [if_neg hc]
    unfold appendToConversation
    rw [Option.not_isSome_iff_eq_none.mp hc]
    exact ⟨hi, rfl⟩

end Appending

section Calls

theorem markUnread_follows (s : AppState) (id : ConversationId) : s.Follows [] (s.markUnread id) := by
  unfold markUnread
  split
  · exact .quiet rfl rfl rfl
  · exact .refl s

theorem pushServerMessage_follows (s : AppState) (id : NetworkId) (m : Message) :
    s.Follows [.appendServer id m] (s.pushServerMessage id m) := by
  refine .single (fun h => h.congr rfl rfl) fun _ => ?_
  unfold shelf Shelf.step Shelf.appendServer Shelf.setLines
  dsimp only
  congr 1
  funext source
  rw [Function.update_apply]
  cases source with
  | conversation j => rfl
  | server n =>
    simp only [Source.server.injEq]
    change ((s.serverMessages.insert id _).lookup n).getD [] = _
    rw [Map.lookup_insert]
    split_ifs <;> rfl

def serverEvents (s : AppState) (id : NetworkId) (m : Message) : List LogEvent :=
  if s.hasNetwork id then [.appendServer id m] else []

theorem appendServerMessageAt_follows (s : AppState) (id : NetworkId) (text : String)
    (info : MessageMeta) : s.Follows (s.serverEvents id (newMessage "server" text .text info))
      (s.appendServerMessageAt id text info) := by
  unfold appendServerMessageAt serverEvents
  split
  · exact pushServerMessage_follows s id _
  · exact .refl s

theorem appendSystemMessage_follows (s : AppState) (id : NetworkId) (text : String) :
    s.Follows (s.serverEvents id (newMessage "server" text .activity {}))
      (s.appendSystemMessage id text) := by
  have h : ∀ (copies : List (NetworkId × Message)) (m : Message), s.Follows [.appendServer id m]
      (({ s with systemMessages := copies } : AppState).pushServerMessage id m) := fun copies m => by
    have hq : s.Follows [] { s with systemMessages := copies } := .quiet rfl rfl rfl
    exact hq.trans (pushServerMessage_follows _ id m)
  unfold appendSystemMessage serverEvents
  split
  · exact h _ _
  · exact .refl s

theorem appendDiagnosticMessage_follows (s : AppState) (id : NetworkId) (text : String) :
    s.Follows (s.serverEvents id (newMessage "diagnostic" text .activity {}))
      (s.appendDiagnosticMessage id text) := by
  unfold appendDiagnosticMessage serverEvents
  split
  · exact pushServerMessage_follows s id _
  · exact .refl s

theorem appendConversationMessage_follows (s : AppState) (id : ConversationId)
    (sender text : String) (kind : Kind) (info : MessageMeta) (unread : Bool) :
    s.Follows (s.appendEvents id (sentMessage sender text kind info) false)
      (s.appendConversationMessage id sender text kind info unread).1 := by
  have h := appendToConversation_follows s id (sentMessage sender text kind info)
  unfold appendConversationMessage
  dsimp only
  split
  · exact h
  split
  · simpa using h.trans (markUnread_follows _ id)
  · exact h

/-- A message to a channel, or to the server log where the channel is not open. -/
def channelEvents (s : AppState) (network : NetworkId) (name sender text : String) (kind : Kind)
    (info : MessageMeta) : List LogEvent :=
  match s.channelId network name with
  | none =>
    let head := if kind = .action then name ++ " * " ++ sender ++ " "
      else name ++ " <" ++ sender ++ "> "
    s.serverEvents network (newMessage "server" (head ++ noticeMarked text kind) .text info)
  | some id => s.appendEvents id (sentMessage sender text kind info) false

theorem appendChannelMessageAt_follows (s : AppState) (network : NetworkId)
    (name sender text : String) (kind : Kind) (info : MessageMeta) :
    s.Follows (s.channelEvents network name sender text kind info)
      (s.appendChannelMessageAt network name sender text kind info).1 := by
  unfold appendChannelMessageAt channelEvents
  cases s.channelId network name with
  | none => exact appendServerMessageAt_follows s network _ info
  | some id =>
    have h := appendToConversation_follows s id (sentMessage sender text kind info)
    dsimp only
    split
    · exact h
    split
    · simpa using h.trans (markUnread_follows _ id)
    · exact h

def channelLineEvents (s : AppState) (network : NetworkId) (name text : String) (line : Line)
    (info : MessageMeta) : List LogEvent :=
  (s.channelId network name).elim [] fun id => s.appendEvents id (newMessage "" text line info) false

theorem appendChannelLineAt_follows (s : AppState) (network : NetworkId) (name text : String)
    (line : Line) (info : MessageMeta) :
    s.Follows (s.channelLineEvents network name text line info)
      (s.appendChannelLineAt network name text line info) := by
  unfold appendChannelLineAt channelLineEvents
  split
  · rename_i id h
    rw [h]
    exact appendToConversation_follows s id _
  · rename_i h
    rw [h]
    exact .refl s

theorem conversation_isSome_append (s : AppState) (id j : ConversationId) (m : Message) :
    ((s.appendToConversation id m).1.conversation j).isSome = (s.conversation j).isSome := by
  obtain ⟨duplicates, hd, -, -⟩ := admitMessage_eq s id m
  have hm : ∀ (s' : AppState) l, s'.conversations = s.conversations →
      ((s'.setMessages id l).conversation j).isSome = (s.conversation j).isSome := by
    intro s' l hs
    unfold setMessages
    rw [conversation_modify (f := fun c => { c with messages := l }) (fun _ => rfl)]
    unfold conversation
    rw [hs]
    split_ifs
    · rw [Option.isSome_map]
    · rfl
  unfold appendToConversation
  dsimp only
  rw [hd]
  split
  · rfl
  split
  · rfl
  split
  · exact hm _ _ rfl
  · exact hm _ _ rfl

theorem appendNetworkActivity_follows (s : AppState) (id : NetworkId) (text : String) :
    s.Follows ((s.conversationsOf id).flatMap fun c =>
      s.appendEvents c (newMessage "" text .activity {}) false) (s.appendNetworkActivity id text) := by
  unfold appendNetworkActivity
  suffices h : ∀ (ids : List ConversationId) (s' : AppState), (∀ j, (s'.conversation j).isSome = (s.conversation j).isSome) →
      s'.Follows (ids.flatMap fun c => s.appendEvents c (newMessage "" text .activity {}) false)
        (ids.foldl (fun s c => s.appendConversationActivity c text) s') from
    h _ s fun _ => rfl
  intro ids
  induction ids with
  | nil => exact fun s' _ => .refl s'
  | cons c ids ih =>
    intro s' h
    have hf := appendToConversation_follows s' c (newMessage "" text .activity {})
    have he : s'.appendEvents c (newMessage "" text .activity {}) false =
        s.appendEvents c (newMessage "" text .activity {}) false := by
      unfold appendEvents
      rw [h]
    rw [he] at hf
    exact hf.trans (ih _ fun j => (conversation_isSome_append s' c j _).trans (h j))

theorem conversation_of_log {m : Message} {x : ℤ}
    (h : Search.lookup Message.sequence x (s.log id) = some m) : (s.conversation id).isSome := by
  unfold log at h
  cases hc : s.conversation id with
  | none =>
    rw [hc] at h
    cases h
  | some c => rfl

theorem confirmMessage_follows (s : AppState) (id : ConversationId) (x : ℤ) (text : Option String)
    (kind : Kind) (info : MessageMeta) :
    s.Follows [.confirm id x text kind info] (s.confirmMessage id x text kind info).1 := by
  intro h
  change _ ∧ _ = s.shelf.confirm id x (confirmed text kind info)
  unfold confirmMessage Shelf.confirm
  rw [show s.shelf.log id = s.log id from rfl]
  cases hm : Search.lookup Message.sequence x (s.log id) with
  | none => exact ⟨h, rfl⟩
  | some m =>
    dsimp only
    refine ⟨?_, ?_⟩
    · obtain ⟨duplicates, hd, -, -⟩ := admitMessage_eq (s.setMessages id (edited (s.log id) x
        (confirmed text kind info))) id (confirmed text kind info m)
      rw [hd]
      exact h.congr (setMessages_ids s id _) rfl
    · rw [shelf_admitMessage, shelf_setMessages _ (Or.inr (conversation_of_log hm))]

theorem failMessage_follows (s : AppState) (id : ConversationId) (x : ℤ) :
    s.Follows [.fail id x] (s.failMessage id x) := by
  refine .single (fun h => h.modify fun _ => rfl) fun _ => ?_
  unfold failMessage
  rw [shelf_setMessages]
  · rfl
  · cases hc : s.conversation id with
    | none =>
      unfold log
      rw [hc]
      exact Or.inl rfl
    | some c => exact Or.inr rfl

/-- The lines of a reply in the order they are appended, behind a note about a gap. -/
def replyEvents (s : AppState) (id : ConversationId) (gapNote : Option String) : List LogEvent :=
  ((s.pendingHistory.lookup id).elim [] fun lines =>
    (gapNote.toList.map fun note =>
      (newMessage "" note .activity { provenance := .requested }, false)) ++
      (serverTimeOrder (lines.map (·.1.timestamp))).filterMap (lines[·]?)).flatMap
    fun line => s.appendEvents id line.1 line.2

theorem conversation_isSome_reply (s : AppState) (id j : ConversationId) (n : ℕ)
    (line : Message × Bool) :
    ((appendReplyLine id (s, n) line).1.conversation j).isSome = (s.conversation j).isSome := by
  have h := conversation_isSome_append s id j line.1
  unfold appendReplyLine
  dsimp only
  split
  · split
    · rw [← h]
      unfold noteAttention
      split <;> rfl
    · exact h
  · exact h

theorem appendReply_follows (id : ConversationId) (lines : List (Message × Bool)) (n : ℕ) :
    s.Follows (lines.flatMap fun line => s.appendEvents id line.1 line.2)
      (lines.foldl (appendReplyLine id) (s, n)).1 := by
  suffices h : ∀ (lines : List (Message × Bool)) (s' : AppState) (n : ℕ),
      (∀ j, (s'.conversation j).isSome = (s.conversation j).isSome) →
      s'.Follows (lines.flatMap fun line => s.appendEvents id line.1 line.2)
        (lines.foldl (appendReplyLine id) (s', n)).1 from
    h lines s n fun _ => rfl
  intro lines
  induction lines with
  | nil => exact fun s' _ _ => .refl s'
  | cons line lines ih =>
    intro s' n h
    have hf := appendReplyLine_follows s' id n line.1 line.2
    have he : s'.appendEvents id line.1 line.2 = s.appendEvents id line.1 line.2 := by
      unfold appendEvents
      rw [h]
    rw [he] at hf
    exact hf.trans (ih _ _ fun j => (conversation_isSome_reply s' id j n line).trans (h j))

theorem finishHistoryFor_follows (s : AppState) (id : ConversationId) (gapNote : Option String) :
    s.Follows (s.replyEvents id gapNote) (s.finishHistoryFor id gapNote).1 := by
  unfold finishHistoryFor replyEvents
  cases s.pendingHistory.lookup id with
  | none => exact .refl s
  | some lines =>
    set s₁ : AppState := { s with
      pendingHistory := s.pendingHistory.erase id
      resumePoints := s.resumePoints.erase id }
    have h₁ : s.Follows [] s₁ := .quiet rfl rfl rfl
    change s.Follows _ (if (s₁.conversation id).isNone then (s₁, 0) else _ : AppState × ℕ).1
    by_cases hc : (s.conversation id).isSome
    · have hne : (s₁.conversation id).isNone = false := by
        rwa [← Option.not_isSome, Bool.not_eq_false']
      rw [hne]
      have := h₁.trans (appendReply_follows (s := s₁) id ((gapNote.toList.map fun note =>
        (newMessage "" note .activity { provenance := .requested }, false)) ++
        (serverTimeOrder (lines.map (·.1.timestamp))).filterMap (lines[·]?)) 0)
      cases gapNote with
      | none => exact this
      | some note => exact this
    · have hne : (s₁.conversation id).isNone = true := by
        rwa [← Option.not_isSome, Bool.not_eq_true', Bool.eq_false_iff]
      have hnil : ∀ line : Message × Bool, s.appendEvents id line.1 line.2 = [] := by
        intro line
        unfold appendEvents
        rw [if_neg hc]
      rw [hne]
      simp only [hnil, Option.elim]
      rw [List.flatMap_eq_nil_iff.mpr fun _ _ => rfl]
      exact h₁

section Older

theorem shelf_placeStreamed {m : Message} (hc : (s.conversation id).isSome) (attention : Bool) :
    (s.placeStreamed id m attention).shelf =
      let r := placed (s.log id) m
      let b := s.shelf.setLog id r.1
      let noted := if attention then s.attention.note b.log id m.sequence else s.attention
      { b with attention := if r.2 then noted.prune id r.1 else noted } := by
  set r := placed (s.log id) m with hr
  have hset := shelf_setMessages (s := s) r.1 (Or.inr hc)
  have hlog : (s.setMessages id r.1).log id = r.1 := by
    rw [log_setMessages (s := s) r.1 (Or.inr hc), Function.update_self]
  have hatt : (s.setMessages id r.1).attention = s.attention := rfl
  unfold placeStreamed
  dsimp only
  rw [← hr, ← hset, ← hatt]
  generalize s.setMessages id r.1 = s₁ at hlog
  rw [← hlog]
  cases attention <;> cases r.2 <;> rfl

theorem placeStreamed_ids (h : s.Ids) (m : Message) (attention : Bool) :
    (s.placeStreamed id m attention).Ids := by
  unfold placeStreamed
  dsimp only
  cases attention <;> cases (placed (s.log id) m).2 <;>
    exact h.congr (setMessages_ids s id (placed (s.log id) m).1) rfl

theorem shelf_openBlock (s : AppState) (id : ConversationId) (request : ℕ) :
    (s.openBlock id request).shelf = s.shelf.openBlock id request := by
  unfold openBlock Shelf.openBlock
  change _ = if (s.historyBlocks.lookup id).any (·.request = request) then s.shelf else _
  split
  · rfl
  · unfold shelf
    dsimp only
    congr 1
    funext j
    rw [Map.lookup_insert, Function.update_apply]
    rfl

theorem openBlock_conversations (s : AppState) (id : ConversationId) (request : ℕ) :
    (s.openBlock id request).conversations = s.conversations ∧
      (s.openBlock id request).nextConversationId = s.nextConversationId := by
  unfold openBlock
  split <;> exact ⟨rfl, rfl⟩

def pushEvents (s : AppState) (id : ConversationId) (request : ℕ) (line : TimelineLine) :
    List LogEvent :=
  if s.olderHistoryInFlight id = some request ∧ (s.conversation id).isSome then
    [.push id request line]
  else []

theorem pushOlderHistoryLine_follows (s : AppState) (id : ConversationId) (request : ℕ)
    (line : TimelineLine) :
    s.Follows (s.pushEvents id request line) (s.pushOlderHistoryLine id request line).1 := by
  unfold pushOlderHistoryLine pushEvents
  by_cases h : s.olderHistoryInFlight id = some request ∧ (s.conversation id).isSome
  swap
  · have hn : (decide (s.olderHistoryInFlight id ≠ some request) ||
        (s.conversation id).isNone) = true := by
      rw [Bool.or_eq_true, decide_eq_true_eq, Option.isNone_iff_eq_none,
        ← Option.not_isSome_iff_eq_none]
      exact not_and_or.mp h
    rw [if_neg h, if_pos hn]
    exact .refl s
  have hn : ¬ (decide (s.olderHistoryInFlight id ≠ some request) ||
      (s.conversation id).isNone) = true := by
    rw [Bool.or_eq_true, decide_eq_true_eq, Option.isNone_iff_eq_none,
      ← Option.not_isSome_iff_eq_none, not_or, not_not, not_not]
    exact h
  rw [if_pos h, if_neg hn]
  obtain ⟨hcs, hnext⟩ := openBlock_conversations s id request
  have ho := shelf_openBlock s id request
  have hc : ((s.openBlock id request).conversation id).isSome := by
    unfold conversation
    rw [hcs]
    exact h.2
  intro hi
  have hi₁ : (s.openBlock id request).Ids := hi.congr (by rw [hcs]) hnext
  change _ ∧ _ = s.shelf.push id request line
  unfold Shelf.push
  rw [← ho]
  dsimp only
  generalize s.openBlock id request = s₁ at *
  rw [show s₁.shelf.blocks id = s₁.historyBlocks.lookup id from rfl]
  cases hb : s₁.historyBlocks.lookup id with
  | none => exact ⟨hi₁, rfl⟩
  | some block =>
    dsimp only
    unfold Shelf.takes
    change _ ∧ _ = if (decide ((block.next - block.start).toNat < block.room) &&
      !(s₁.filterOf id).contains (requestedMessage line) &&
        (block.nearTop.admitMessage (requestedMessage line)).2) = true then _ else _
    by_cases hroom : block.room ≤ (block.next - block.start).toNat
    · rw [if_pos hroom, decide_eq_false (not_lt.mpr hroom)]
      exact ⟨hi₁, rfl⟩
    rw [if_neg hroom, decide_eq_true (not_le.mp hroom)]
    cases hcon : (s₁.filterOf id).contains (requestedMessage line) with
    | true => exact ⟨hi₁, rfl⟩
    | false =>
      cases hadm : (block.nearTop.admitMessage (requestedMessage line)).2 with
      | false =>
        refine ⟨hi₁.congr rfl rfl, ?_⟩
        change AppState.shelf { s₁ with historyBlocks := _ } = s₁.shelf
        unfold shelf
        dsimp only
        congr 1
        funext j
        rw [Map.lookup_insert, DuplicateFilter.admitMessage_fst hadm]
        split_ifs with hj
        · rw [hj, hb]
        · rfl
      | true =>
        set next : HistoryBlock := { block with
          next := block.next + 1
          nearTop := (block.nearTop.admitMessage (requestedMessage line)).1 }
        set s₂ : AppState := { s₁ with historyBlocks := s₁.historyBlocks.insert id next }
        set m : Message := { requestedMessage line with sequence := block.next }
        change (s₂.placeStreamed id m line.attention).Ids ∧
          (s₂.placeStreamed id m line.attention).shelf =
            s₁.shelf.place id block (requestedMessage line) line.attention
        have hi₂ : s₂.Ids := hi₁.congr rfl rfl
        refine ⟨placeStreamed_ids hi₂ m line.attention, ?_⟩
        have hs₂ : s₂.shelf =
            { s₁.shelf with blocks := Function.update s₁.shelf.blocks id (some next) } := by
          unfold shelf
          congr 1
          funext j
          rw [Map.lookup_insert, Function.update_apply]
        rw [shelf_placeStreamed (s := s₂) hc, hs₂]
        rfl

def settleEvents (s : AppState) (id : ConversationId) (request : ℕ) : List LogEvent :=
  if s.olderHistoryInFlight id = some request then [.settle id request] else []

theorem settleBlock_shelf (hc : (s.conversation id).isSome) (first : ℤ) :
    (s.settleBlock id first (first + historyReserve) none).1.shelf =
      let stop := first + historyReserve
      let messages := s.log id
      let lines := arrived messages first stop
      { s.shelf.setLog id
          (messages.take (Search.partitionPoint (fun m => m.sequence < first) messages) ++
            settled first historyReserve none lines ++
            messages.drop (Search.partitionPoint (fun m => m.sequence < stop) messages)) with
        attention := carried s.attention id first stop none lines } := by
  have hroom : (first + (historyReserve : ℤ) - first).toNat = historyReserve := by
    rw [add_sub_cancel_left, Int.toNat_natCast]
  unfold settleBlock
  dsimp only
  rw [hroom]
  refine (shelf_setMessages _ (Or.inr ?_)).trans rfl
  exact hc

theorem settle_nothing (s : AppState) (first stop : ℤ) (hc : ¬ (s.conversation id).isSome) :
    s.log id = [] ∧ settled first historyReserve none (arrived (s.log id) first stop) = [] ∧
      carried s.attention id first stop none (arrived (s.log id) first stop) = s.attention := by
  have hl : s.log id = [] := by
    unfold log
    rw [Option.not_isSome_iff_eq_none.mp hc]
    rfl
  have ha : arrived (s.log id) first stop = [] := by
    unfold arrived
    rw [hl, List.take_nil, List.drop_nil]
  rw [ha]
  exact ⟨hl, rfl, rfl⟩

theorem finishOlderHistory_follows (s : AppState) (id : ConversationId) (request : ℕ)
    (beginning : Bool) :
    s.Follows (s.settleEvents id request) (s.finishOlderHistory id request beginning).1 := by
  unfold finishOlderHistory settleEvents
  by_cases h : s.olderHistoryInFlight id = some request
  swap
  · rw [if_neg h, if_pos h]
    exact .refl s
  rw [if_pos h, if_neg (not_not.mpr h)]
  set s₁ : AppState := { s with
    olderHistory := Map.adjust s.olderHistory id fun state => { state with inFlight := none }
    historyBlocks := s.historyBlocks.erase id }
  have hs₁ : s₁.shelf = { s.shelf with blocks := Function.update s.shelf.blocks id none } := by
    unfold shelf
    congr 1
    funext j
    rw [Map.lookup_erase, Function.update_apply]
  dsimp only
  -- what remembering the end of the history adds is not about the logs
  have hend : ∀ r : AppState × ℕ, s.Follows [.settle id request] r.1 →
      s.Follows [.settle id request] (if beginning || r.2 = 0 then
        ({ r.1 with olderHistory := r.1.olderHistory.insert id { finished := true } }, r.2)
        else r : AppState × ℕ).1 := by
    intro r hr
    split
    · intro hi
      obtain ⟨hi', hs⟩ := hr hi
      exact ⟨hi'.congr rfl rfl, hs⟩
    · exact hr
  apply hend
  intro hi
  have hi₁ : s₁.Ids := hi.congr rfl rfl
  change _ ∧ _ = s.shelf.settle id request
  unfold Shelf.settle
  rw [← hs₁]
  dsimp only
  rw [show s.shelf.blocks id = s.historyBlocks.lookup id from rfl]
  cases s.historyBlocks.lookup id with
  | none => exact ⟨hi₁, rfl⟩
  | some block =>
    dsimp only
    by_cases hreq : block.request = request
    swap
    · rw [if_neg fun h => hreq h.1, if_neg hreq]
      exact ⟨hi₁, rfl⟩
    rw [if_pos hreq]
    by_cases hc : (s₁.conversation id).isSome
    · rw [if_pos ⟨hreq, hc⟩]
      refine ⟨hi₁.congr (setMessages_ids s₁ id _) rfl, ?_⟩
      rw [settleBlock_shelf hc]
      rfl
    · rw [if_neg fun h => hc h.2]
      refine ⟨hi₁, ?_⟩
      obtain ⟨hl, hset, hcar⟩ := settle_nothing s₁ block.start (block.start + historyReserve) hc
      have hlog : s.shelf.log id = s₁.log id := rfl
      have hatt : s.shelf.attention = s₁.attention := rfl
      rw [hlog, hatt, hset, hcar, hl, List.take_nil, List.drop_nil]
      unfold Shelf.setLog Shelf.setLines
      rw [show ([] ++ [] ++ [] : List Message) = s₁.shelf.lines (.conversation id) from hl.symm,
        Function.update_eq_self]
      rfl

end Older

end Calls

end AppState

end CayenChat.App
