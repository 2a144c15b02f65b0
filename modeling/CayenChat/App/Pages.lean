import CayenChat.App.Runs

/-! # Older pages and the bound of a log

The room for an older page is fixed when its first line arrives. A later line
of the page goes to its place without loss exactly while the log is below its
bound; one that is taken into a full log drops the oldest thousand lines.
-/

namespace CayenChat.App

theorem trimRetained_loses {l : List Message} (h : maxRetained < l.length) :
    (trimRetained l).1.length + 1000 ≤ l.length := by
  unfold trimRetained
  dsimp only
  obtain ⟨n, hn⟩ : ∃ n, l.length = n + 1 := ⟨l.length - 1, by omega⟩
  obtain ⟨k, hk, -, -⟩ := drainLong_spec n (l.drop 1000)
  rw [hn, drainLong, if_pos h, hk, List.length_drop, List.length_drop]
  have : maxRetained = 2000 := rfl
  omega

/-- What an older line may do to the log it goes to. -/
structure Harmless (before after : List Message) : Prop where
  held : before.Sublist after
  added : after.length ≤ before.length + 1
  bounded : after.length ≤ maxRetained

theorem harmless_refl {l : List Message} (h : l.length ≤ maxRetained) : Harmless l l :=
  ⟨.refl l, Nat.le_succ _, h⟩

theorem harmless_placed_iff {l : List Message} (h : l.length ≤ maxRetained) (m : Message) :
    Harmless l (AppState.placed l m).1 ↔ l.length < maxRetained := by
  have hi := Arrange.insertIdx_eq (a := m)
    (Search.partitionPoint_le (p := fun a : Message => a.sequence < m.sequence) (l := l))
  have hlen : (l.insertIdx (Search.partitionPoint (fun a => a.sequence < m.sequence) l) m).length =
      l.length + 1 := by
    rw [hi, List.length_append, List.length_cons, List.length_take, List.length_drop]
    have := Search.partitionPoint_le (p := fun a : Message => a.sequence < m.sequence) (l := l)
    omega
  unfold AppState.placed
  constructor
  · intro hh
    by_contra hfull
    have hl := trimRetained_loses (l := l.insertIdx
      (Search.partitionPoint (fun a => a.sequence < m.sequence) l) m) (by omega)
    have := hh.held.length_le
    omega
  · intro hlt
    rw [trimRetained_eq (by omega)]
    refine ⟨?_, hlen.le, hlen.le.trans (Nat.succ_le_of_lt hlt)⟩
    rw [hi]
    conv_lhs => rw [← List.take_append_drop (Search.partitionPoint (fun a => a.sequence < m.sequence) l) l]
    exact (List.Sublist.refl _).append (List.sublist_cons_self _ _)

namespace Shelf

variable {b : Shelf} {id : ConversationId} {request : ℕ} {line : TimelineLine}

theorem openBlock_log (b : Shelf) (id : ConversationId) (request : ℕ) :
    (b.openBlock id request).lines = b.lines := by
  unfold openBlock
  split_ifs <;> rfl

theorem openBlock_filters (b : Shelf) (id : ConversationId) (request : ℕ) :
    (b.openBlock id request).filters = b.filters := by
  unfold openBlock
  split_ifs <;> rfl

theorem openBlock_blocks (b : Shelf) (id : ConversationId) (request : ℕ) :
    (∃ k, b.blocks id = some k ∧ k.request = request ∧
      (b.openBlock id request).blocks id = some k) ∨
    ((∀ k, b.blocks id = some k → k.request ≠ request) ∧
      (b.openBlock id request).blocks id =
        some (AppState.freshBlock (b.floor - historyReserve) request (b.log id))) := by
  unfold openBlock
  split_ifs with h
  · obtain ⟨k, hk, hr⟩ := (Option.any_eq_true ..).mp h
    exact .inl ⟨k, hk, of_decide_eq_true hr, hk⟩
  · refine .inr ⟨fun k hk hr => h ?_, Function.update_self ..⟩
    rw [hk]
    exact decide_eq_true hr

/-- A line of a page has room for itself when the log is below its bound, or is not taken. -/
def Fits (b : Shelf) (id : ConversationId) (request : ℕ) (line : TimelineLine) : Prop :=
  (b.log id).length < maxRetained ∨ ∀ k, b.blocks id = some k → k.request = request →
    b.takes id k (requestedMessage line) = false

theorem push_log (b : Shelf) (id : ConversationId) (request : ℕ) (line : TimelineLine) :
    ∃ k, (b.openBlock id request).blocks id = some k ∧ (b.push id request line).log id =
      if b.takes id k (requestedMessage line) then
        (AppState.placed (b.log id) { requestedMessage line with sequence := k.next }).1
      else b.log id := by
  have hl : (b.openBlock id request).log id = b.log id :=
    congrFun (openBlock_log b id request) _
  have ht : ∀ k m, (b.openBlock id request).takes id k m = b.takes id k m := by
    intro k m
    unfold takes
    rw [openBlock_filters]
  obtain ⟨k, hk⟩ : ∃ k, (b.openBlock id request).blocks id = some k := by
    rcases openBlock_blocks b id request with ⟨k, -, -, hk⟩ | ⟨-, hk⟩
    · exact ⟨k, hk⟩
    · exact ⟨_, hk⟩
  refine ⟨k, hk, ?_⟩
  unfold push
  dsimp only
  rw [hk]
  dsimp only
  rw [ht, ← hl]
  split
  · exact Function.update_self ..
  · rfl

theorem push_harmless_iff (h : (b.log id).length ≤ maxRetained) :
    Harmless (b.log id) ((b.push id request line).log id) ↔ b.Fits id request line := by
  obtain ⟨k, hk, hlog⟩ := push_log b id request line
  rw [hlog]
  cases ht : b.takes id k (requestedMessage line) with
  | false =>
    refine ⟨fun _ => ?_, fun _ => harmless_refl h⟩
    rcases openBlock_blocks b id request with ⟨k', hk', hr, ho⟩ | ⟨hno, -⟩
    · rw [ho] at hk
      cases hk
      refine .inr fun k'' hk'' _ => ?_
      rw [hk'] at hk''
      cases hk''
      exact ht
    · exact .inr fun k' hk' hr => absurd hr (hno k' hk')
  | true =>
    rw [if_pos rfl, harmless_placed_iff h]
    refine ⟨fun hlt => .inl hlt, ?_⟩
    rintro (hlt | hno)
    · exact hlt
    · rcases openBlock_blocks b id request with ⟨k', hk', hr, ho⟩ | ⟨-, ho⟩
      · rw [ho] at hk
        cases hk
        rw [hno k hk' hr] at ht
        cases ht
      · rw [ho] at hk
        cases hk
        -- a new page takes a line only when the log has room
        unfold takes AppState.freshBlock at ht
        simp only [Bool.and_eq_true, decide_eq_true_eq, sub_self, Int.toNat_zero] at ht
        have := lt_min_iff.mp ht.1.1
        omega

end Shelf

namespace AppState

variable {s : AppState} {id : ConversationId} {request : ℕ} {line : TimelineLine}

/-- A line of an older page finds room in its log, or is not taken: it answers no request in flight,
its page has no room left, or it is recognized. -/
def OlderLineFits (s : AppState) (id : ConversationId) (request : ℕ) (line : TimelineLine) : Prop :=
  (s.log id).length < maxRetained ∨ s.olderHistoryInFlight id ≠ some request ∨
    s.conversation id = none ∨ ∀ block, s.historyBlocks.lookup id = some block →
      block.request = request → block.room ≤ (block.next - block.start).toNat ∨
        (s.filterOf id).contains (requestedMessage line) = true ∨
        (block.nearTop.admitMessage (requestedMessage line)).2 = false

theorem shelf_fits_iff (hf : s.olderHistoryInFlight id = some request)
    (hc : s.conversation id ≠ none) :
    s.shelf.Fits id request line ↔ s.OlderLineFits id request line := by
  have ht : ∀ k : HistoryBlock, s.shelf.takes id k (requestedMessage line) = false ↔
      k.room ≤ (k.next - k.start).toNat ∨ (s.filterOf id).contains (requestedMessage line) = true ∨
        (k.nearTop.admitMessage (requestedMessage line)).2 = false := by
    intro k
    unfold Shelf.takes
    rw [Bool.and_eq_false_iff, Bool.and_eq_false_iff, decide_eq_false_iff_not, not_lt,
      Bool.not_eq_false', or_assoc]
    rfl
  unfold OlderLineFits Shelf.Fits
  simp only [ht, hf, hc, ne_eq, not_true_eq_false, false_or]
  rfl

theorem pushOlderHistoryLine_stale
    (h : s.olderHistoryInFlight id ≠ some request ∨ s.conversation id = none) :
    (s.pushOlderHistoryLine id request line).1 = s := by
  unfold pushOlderHistoryLine
  rw [if_pos]
  rw [Bool.or_eq_true, decide_eq_true_eq, Option.isNone_iff_eq_none]
  exact h

theorem pushOlderHistoryLine_harmless_iff (hi : s.Ids) (ho : s.shelf.Ordered) :
    Harmless (s.log id) ((s.pushOlderHistoryLine id request line).1.log id) ↔
      s.OlderLineFits id request line := by
  have hb : (s.log id).length ≤ maxRetained := ho.bounded (.conversation id)
  by_cases h : s.olderHistoryInFlight id ≠ some request ∨ s.conversation id = none
  · rw [pushOlderHistoryLine_stale h]
    exact ⟨fun _ => .inr (h.imp_right .inl), fun _ => harmless_refl hb⟩
  · rw [not_or, not_not] at h
    have hs := (pushOlderHistoryLine_follows s id request line hi).2
    unfold pushEvents at hs
    rw [if_pos ⟨h.1, Option.isSome_iff_ne_none.mpr h.2⟩] at hs
    have hlog : (s.pushOlderHistoryLine id request line).1.log id =
        (s.shelf.push id request line).log id :=
      congrFun (congrArg Shelf.lines hs) (.conversation id)
    rw [hlog, ← shelf_fits_iff h.1 h.2]
    exact Shelf.push_harmless_iff (b := s.shelf) hb

/-- In every run a line of an older page leaves every line its log held, adds at most itself and
keeps the bound exactly when it fits; and a line that answers no request in flight changes
nothing. -/
theorem older_lines_harmless_iff (lowercase : String → String) (configs : List NetworkConfig)
    (is : List AppCall) :
    Machine.Along (fun s i => ∀ id request line, i = .pushOlderHistoryLine id request line →
      (Harmless (s.log id) ((s.call lowercase i).log id) ↔ s.OlderLineFits id request line) ∧
      (s.olderHistoryInFlight id ≠ some request → s.call lowercase i = s))
      (call lowercase) (withNetworks configs) is := by
  refine Machine.along_of_invariant (fun s => s.Ids ∧ s.shelf.Ordered) ?_ ?_
    (withNetworks_ids configs)
  · rintro s i ⟨hi, ho⟩
    obtain ⟨hi', hs⟩ := call_follows lowercase s i hi
    refine ⟨hi', hs ▸ ?_⟩
    exact Machine.exec_invariant' Shelf.Ordered (fun _ e h => Shelf.step_ordered h e) ho
  · rintro s i ⟨hi, ho⟩ id request line rfl
    exact ⟨pushOlderHistoryLine_harmless_iff hi ho, fun h => pushOlderHistoryLine_stale (.inl h)⟩

section Full

theorem appendToConversation_unidentified {m : Message} (hc : (s.conversation id).isSome)
    (hm : (m.nativeId.isSome || m.timestamp.isSome) = false)
    (hl : (s.log id).length < maxRetained) :
    s.appendToConversation id m =
      (({ s with nextMessageSequence := s.nextMessageSequence + 1 } : AppState).setMessages id
        (s.log id ++ [{ m with sequence := s.nextMessageSequence + 1 }]), true) := by
  have hnone : (s.conversation id).isNone = false := by
    rwa [← Option.not_isSome, Bool.not_eq_false']
  have hadm : s.admitMessage id m = (s, true) := by
    unfold admitMessage
    rw [hm]
    rfl
  have hpush : ∀ m', pushBounded (s.log id) m' = (s.log id ++ [m'], false) := by
    intro m'
    apply trimRetained_eq
    rw [List.length_append, List.length_singleton]
    omega
  unfold appendToConversation
  rw [hnone, hadm]
  dsimp only
  rw [hpush]
  rfl

/-- A page is arriving in a conversation, and its next line would be taken. -/
structure Arriving (s : AppState) (id : ConversationId) (request : ℕ) (line : TimelineLine)
    (held : ℕ) : Prop where
  length : (s.log id).length = held
  opened : (s.conversation id).isSome
  inFlight : s.olderHistoryInFlight id = some request
  block : ∃ k, s.historyBlocks.lookup id = some k ∧ k.request = request ∧
    (k.next - k.start).toNat < k.room ∧ (k.nearTop.admitMessage (requestedMessage line)).2 = true
  fresh : (s.filterOf id).contains (requestedMessage line) = false

theorem Arriving.append {held : ℕ} (h : s.Arriving id request line held) (hlt : held < maxRetained)
    (sender text : String) :
    (s.appendConversationMessage id sender text .message {} false).1.Arriving id request line
      (held + 1) := by
  have happ := appendToConversation_unidentified (m := sentMessage sender text .message {})
    h.opened rfl (h.length.trans_lt hlt)
  set s₁ : AppState := { s with nextMessageSequence := s.nextMessageSequence + 1 }
  set l := s.log id ++ [{ sentMessage sender text .message {} with
    sequence := s.nextMessageSequence + 1 }]
  have hs : (s.appendConversationMessage id sender text .message {} false).1 =
      s₁.setMessages id l := by
    unfold appendConversationMessage
    rw [happ]
    rfl
  have hlog : (s₁.setMessages id l).log id = l := by
    rw [log_setMessages (s := s₁) l (Or.inr h.opened), Function.update_self]
  rw [hs]
  constructor
  · rw [hlog, List.length_append, h.length]
    rfl
  · have hc : (s₁.setMessages id l).conversation id = (s₁.conversation id).map _ :=
      (conversation_modify (f := fun c => { c with messages := l }) (fun _ => rfl) id).trans
        (if_pos rfl)
    rw [hc, Option.isSome_map]
    exact h.opened
  · exact h.inFlight
  · exact h.block
  · exact h.fresh

theorem Arriving.appends {held : ℕ} (n : ℕ) (h : s.Arriving id request line held)
    (hlt : held + n ≤ maxRetained) (lowercase : String → String) (sender text : String) :
    (Machine.exec (call lowercase) s (List.replicate n
      (.appendConversationMessage id sender text .message {} false))).Arriving id request line
      (held + n) := by
  induction n generalizing s held with
  | zero => exact h
  | succ n ih =>
    have := ih (h.append (by omega) sender text) (by omega)
    rwa [Nat.add_right_comm] at this

theorem Arriving.harm (h : s.Arriving id request line maxRetained) :
    ¬ s.OlderLineFits id request line := by
  obtain ⟨k, hk, hr, hroom, hadm⟩ := h.block
  rintro (hlt | hf | hc | hno)
  · exact absurd h.length hlt.ne
  · exact hf h.inFlight
  · have := h.opened
    rw [hc] at this
    cases this
  · rcases hno k hk hr with hfull | hseen | hnear
    · omega
    · rw [h.fresh] at hseen
      cases hseen
    · rw [hadm] at hnear
      cases hnear

theorem Arriving.not_harmless (h : s.Arriving id request line maxRetained) (hi : s.Ids)
    (ho : s.shelf.Ordered) :
    ¬ Harmless (s.log id) ((s.pushOlderHistoryLine id request line).1.log id) := by
  rw [pushOlderHistoryLine_harmless_iff hi ho]
  exact h.harm

def pastLine (text : String) (time : SystemTime) : TimelineLine :=
  { sender := "bob", text, info := { serverTime := some time } }

/-- A page whose first line has arrived above one live line. -/
def pageBegins : List AppCall :=
  [.setStatus 1 .registered, .joinedChannel 1 "#a", .setHistoryPaging 1 true,
    .appendConversationMessage 1 "bob" "now" .message { serverTime := some 9000000 } false,
    .requestOlderHistory 1, .pushOlderHistoryLine 1 1 (pastLine "first" 1000000)]

theorem pageBegins_arriving : (run toAsciiLowercase [⟨1, "net", ["#a"]⟩] pageBegins).Arriving 1 1
    (pastLine "second" 2000000) 2 := by
  have hb : ((run toAsciiLowercase [⟨1, "net", ["#a"]⟩] pageBegins).historyBlocks.lookup 1).any (fun k =>
      k.request = 1 && (k.next - k.start).toNat < k.room &&
        (k.nearTop.admitMessage (requestedMessage (pastLine "second" 2000000))).2) = true := by
    decide +kernel
  constructor
  · decide +kernel
  · decide +kernel
  · decide +kernel
  · obtain ⟨k, hk, h⟩ := (Option.any_eq_true ..).mp hb
    simp only [Bool.and_eq_true, decide_eq_true_eq] at h
    exact ⟨k, hk, h.1.1, h.1.2, h.2⟩
  · decide +kernel

/-- Live lines fill the log while a page arrives: its second line throws a thousand lines away. -/
theorem older_line_harms :
    let s := run toAsciiLowercase [⟨1, "net", ["#a"]⟩] (pageBegins ++ List.replicate 1998
      (.appendConversationMessage 1 "bob" "live" .message {} false))
    ¬ Harmless (s.log 1) ((s.pushOlderHistoryLine 1 1 (pastLine "second" 2000000)).1.log 1) := by
  have h := pageBegins_arriving.appends 1998 (by decide) toAsciiLowercase "bob" "live"
  rw [run, ← Machine.exec_append] at h
  exact h.not_harmless (run_shelf ..).1 (run_ordered ..)

end Full

end AppState

end CayenChat.App
