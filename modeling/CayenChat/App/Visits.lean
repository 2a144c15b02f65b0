import CayenChat.App.Queue

/-! # Visits to notified lines

Notified lines are visited in the order of their logs, and no line of history
takes the place of a live line that is still held. A page that settles can put
the queue out of order, and a line of a page that a full log does not keep is
not known for history when it is noted.
-/

namespace CayenChat.App

def withLine (logs : ConversationId → List Message) (id : ConversationId) (m : Message) :
    ConversationId → List Message :=
  Function.update logs id (AppState.placed (logs id) m).1

def LogEvent.past : LogEvent → Bool
  | .append _ m _ => m.isHistory
  | .appendServer .. => true
  | _ => false

theorem LogEvent.plain_of_past {e : LogEvent} (h : e.past = true) : e.plain = true := by
  cases e <;> first | rfl | cases h

theorem getLast?_pushBounded (l : List Message) (m : Message) :
    (pushBounded l m).1.getLast? = some m := by
  obtain ⟨dropped, hl⟩ := trimRetained_suffix (l ++ [m])
  have hne : (pushBounded l m).1 ≠ [] := trimRetained_ne_nil (by simp)
  have hlast : (dropped ++ (pushBounded l m).1).getLast? = some m := by
    rw [show dropped ++ (pushBounded l m).1 = l ++ [m] from hl, List.getLast?_concat]
  rwa [List.getLast?_append_of_ne_nil _ hne] at hlast

namespace Shelf

variable {b : Shelf} {id : ConversationId} {request : ℕ} {line : TimelineLine} {e : LogEvent}
  {a : ConversationId × ℤ} {m : Message}

theorem mem_prune_of_held {attention : Attention} {l : List Message} {c : Bool}
    (h : Ascending l) (ha : a ∈ attention) (hm : a.1 = id → m ∈ l) (hs : m.sequence = a.2) :
    a ∈ if c then attention.prune id l else attention := by
  split
  swap
  · exact ha
  refine Attention.mem_prune_of_le ha fun hid => ?_
  have hmem := hm hid
  cases hl : l with
  | nil =>
    rw [hl] at hmem
    cases hmem
  | cons first l =>
    rw [hl] at h hmem
    change decide (first.sequence ≤ a.2) = true
    rw [decide_eq_true_eq, ← hs]
    rcases List.mem_cons.mp hmem with rfl | hlater
    · exact le_rfl
    · exact (List.rel_of_pairwise_cons h hlater).le

theorem live_in (h : b.Ordered) (hm : m ∈ b.log a.1) (hs : m.sequence = a.2)
    (hlive : m.isHistory = false) : historyIn (b.log a.1) a.2 = false := by
  have hasc : Ascending (b.log a.1) := h.ascending (.conversation a.1)
  rw [← Bool.not_eq_true, AppState.historyIn_iff hasc]
  rintro ⟨n, hn, hsn, hh⟩
  cases hasc.inj hm hn (hs.trans hsn.symm)
  rw [hlive] at hh
  cases hh

theorem kept_note (h : b.Ordered) (hpast : ((b.log id).getLast?.any (·.isHistory)) = true)
    (hm : m ∈ b.log a.1) (hs : m.sequence = a.2) (hlive : m.isHistory = false)
    (ha : a ∈ b.attention) : a ∈ (b.note id).attention := by
  have hasc : Ascending (b.log id) := h.ascending (.conversation id)
  unfold note
  cases hl : (b.log id).getLast? with
  | none => exact ha
  | some newest =>
    rw [hl] at hpast
    refine Attention.mem_note_of_live ha (live_in h hm hs hlive) (.inl ?_)
    exact (AppState.historyIn_iff hasc).mpr ⟨newest, List.mem_of_getLast? hl, rfl, hpast⟩

theorem kept_append (h : b.Ordered) {new : Message} {attention : Bool}
    (hpast : new.isHistory = true)
    (hm : m ∈ (b.step (.append id new attention)).log a.1) (hs : m.sequence = a.2)
    (hlive : m.isHistory = false) (ha : a ∈ b.attention) :
    a ∈ (b.step (.append id new attention)).attention := by
  dsimp only [step] at hm ⊢
  split at hm
  swap
  · rw [if_neg ‹_›]
    exact ha
  rename_i hadmitted
  rw [if_pos hadmitted]
  have happ : (b.append id new).Ordered := by
    have := step_ordered h (.append id new false)
    dsimp only [step] at this
    rw [if_pos hadmitted] at this
    exact this
  have hmem : m ∈ (b.append id new).log a.1 := by
    split at hm
    · unfold log at hm
      rw [note_lines] at hm
      exact hm
    · exact hm
  have hlog : (b.append id new).log id =
      (pushBounded (b.log id) { new with sequence := b.top + 1 }).1 := Function.update_self ..
  have hkept : a ∈ (b.append id new).attention := by
    refine mem_prune_of_held (hlog ▸ happ.ascending (.conversation id)) ha (fun hid => ?_) hs
    subst hid
    exact hlog ▸ hmem
  split
  swap
  · exact hkept
  refine kept_note happ ?_ hmem hs hlive hkept
  rw [hlog, getLast?_pushBounded]
  exact hpast

theorem kept_past (h : b.Ordered) (hp : e.past = true) (hm : m ∈ (b.step e).log a.1)
    (hs : m.sequence = a.2) (hlive : m.isHistory = false) (ha : a ∈ b.attention) :
    a ∈ (b.step e).attention := by
  cases e with
  | append id new attention => exact kept_append h hp hm hs hlive ha
  | appendServer id new => exact ha
  | _ => cases hp

theorem kept_run {es : List LogEvent} (h : b.Ordered) (hp : ∀ e ∈ es, e.past = true)
    (hx : b.Spent a.2) (hm : m ∈ (es.foldl step b).log a.1) (hs : m.sequence = a.2)
    (hlive : m.isHistory = false) (ha : a ∈ b.attention) :
    a ∈ (es.foldl step b).attention := by
  induction es generalizing b with
  | nil => exact ha
  | cons e es ih =>
    obtain ⟨hpe, hp⟩ := List.forall_mem_cons.mp hp
    have ho := step_ordered h e
    have hx' := hx.step e
    refine ih ho hp hx' hm ?_
    refine kept_past h hpe ?_ hs hlive ha
    exact AppState.plain_run (fun e he => LogEvent.plain_of_past (hp e he)) ho (hs ▸ hx') hm

theorem openBlock_takes (b : Shelf) (id : ConversationId) (request : ℕ) (k : HistoryBlock)
    (m : Message) : (b.openBlock id request).takes id k m = b.takes id k m := by
  unfold takes
  rw [openBlock_filters]

theorem openBlock_attention (b : Shelf) (id : ConversationId) (request : ℕ) :
    (b.openBlock id request).attention = b.attention := by
  unfold openBlock
  split <;> rfl

section Taking

variable {k : HistoryBlock} (hk : (b.openBlock id request).blocks id = some k)
include hk

theorem push_eq : b.push id request line =
    if b.takes id k (requestedMessage line) then
      (b.openBlock id request).place id k (requestedMessage line) line.attention
    else b.openBlock id request := by
  unfold push
  dsimp only
  rw [hk]
  dsimp only
  rw [openBlock_takes]

theorem push_withLine (ht : b.takes id k (requestedMessage line) = true) :
    (b.push id request line).log =
      withLine b.log id { requestedMessage line with sequence := k.next } := by
  have hlogs : ∀ j, (b.openBlock id request).log j = b.log j := fun j =>
    congrFun (openBlock_log b id request) _
  rw [push_eq hk, if_pos ht]
  funext j
  unfold withLine
  by_cases hj : j = id
  · rw [hj, Function.update_self, ← hlogs]
    exact Function.update_self ..
  · rw [Function.update_of_ne hj, ← hlogs]
    exact Function.update_of_ne (by simpa using hj) ..

theorem mem_push_of_fits (h : b.Ordered)
    (ht : b.takes id k (requestedMessage line) = true) (hf : b.Fits id request line) :
    { requestedMessage line with sequence := k.next } ∈ (b.push id request line).log id := by
  have hb : (b.log id).length ≤ maxRetained := h.bounded (.conversation id)
  have hharm := (push_harmless_iff hb).mpr hf
  rw [push_withLine hk ht] at hharm ⊢
  unfold withLine at hharm ⊢
  rw [Function.update_self] at hharm ⊢
  rw [harmless_placed_iff hb] at hharm
  unfold AppState.placed
  rw [trimRetained_eq]
  · exact mem_place.mpr (.inl rfl)
  · rw [List.length_insertIdx_of_le_length Search.partitionPoint_le]
    exact hharm

end Taking

/-- A line of a page keeps the entry of a live line that stays held, when the queue is not full, the
line finds room in its log, or another entry gives way. -/
theorem kept_push (h : b.Ordered) (hm : m ∈ (b.push id request line).log a.1)
    (hs : m.sequence = a.2) (hlive : m.isHistory = false) (ha : a ∈ b.attention)
    (hc : line.attention = true → b.Fits id request line ∨ b.attention.length < maxAttention ∨
      ∀ k, b.blocks id = some k → k.request = request →
        b.takes id k (requestedMessage line) = true →
        (∃ c ∈ b.attention, historyIn ((b.push id request line).log c.1) c.2 = true) ∨
        b.attention.head? ≠ some a) :
    a ∈ (b.push id request line).attention := by
  obtain ⟨k, hk, -⟩ := push_log b id request line
  have ho : (b.push id request line).Ordered := step_ordered h (.push id request line)
  have hold := ha
  rw [← openBlock_attention b id request] at ha
  by_cases ht : b.takes id k (requestedMessage line) = true
  swap
  · rw [push_eq hk, if_neg ht]
    exact ha
  have hpush : b.push id request line =
      (b.openBlock id request).place id k (requestedMessage line) line.attention :=
    (push_eq hk).trans (if_pos ht)
  set new : Message := { requestedMessage line with sequence := k.next }
  set l := AppState.placed ((b.openBlock id request).log id) new
  have hlog : (b.push id request line).log id = l.1 := hpush ▸ Function.update_self ..
  have hatt : (b.push id request line).attention =
      if l.2 then (if line.attention then
        b.attention.note (b.push id request line).log id k.next else b.attention).prune id l.1
      else if line.attention then
        b.attention.note (b.push id request line).log id k.next else b.attention := by
    rw [hpush, ← openBlock_attention b id request]
    rfl
  rw [hatt]
  refine mem_prune_of_held (hlog ▸ ho.ascending (.conversation id)) ?_ (fun hid => ?_) hs
  swap
  · subst hid
    exact hlog ▸ hm
  split
  swap
  · exact hold
  rename_i hnoted
  refine Attention.mem_note_of_live hold (live_in ho hm hs hlive) ?_
  -- a line that finds room is known for history
  have hfits : b.Fits id request line →
      historyIn ((b.push id request line).log id) k.next = true := fun hf =>
    (AppState.historyIn_iff (ho.ascending (.conversation id))).mpr
      ⟨new, mem_push_of_fits hk h ht hf, rfl, rfl⟩
  rcases hc hnoted with hf | hlt | hother
  · exact .inl (hfits hf)
  · exact .inr (.inl hlt)
  · rcases openBlock_blocks b id request with ⟨k', hk', hr, ho⟩ | ⟨hno, -⟩
    · cases Option.some.inj (hk.symm.trans ho)
      exact .inr (.inr (hother k hk' hr ht))
    · exact .inl (hfits (.inr fun k' hk' hr => absurd hr (hno k' hk')))

end Shelf

namespace AppState

variable {s : AppState} {i : AppCall} {id : ConversationId}

def KeepsOrder (s : AppState) (i : AppCall) : Prop :=
  ∀ id block, s.Settles i id block → ∀ p ∈ s.moves id block, ∀ q ∈ s.moves id block,
    (id, p.1) ∈ s.attention → (id, q.1) ∈ s.attention → p.1 < q.1 → p.2 < q.2

/-- A notified line of a page comes to a log that is full and to a queue that is full of other
than held lines of the past, and whose oldest line stays held. -/
def Crowded (s : AppState) (i : AppCall) : Prop :=
  ∃ id request line block, i = .pushOlderHistoryLine id request line ∧ line.attention = true ∧
    s.historyBlocks.lookup id = some block ∧ ¬ s.OlderLineFits id request line ∧
    maxAttention ≤ s.attention.length ∧
    let logs := withLine s.log id { requestedMessage line with sequence := block.next }
    (∀ a ∈ s.attention, historyIn (logs a.1) a.2 = false) ∧
      ∃ a, s.attention.head? = some a ∧ heldIn (logs a.1) a.2 = true

/-- A call adds lines of the past, or notes one. -/
def AddsHistory (s : AppState) : AppCall → Prop
  | .pushOlderHistoryLine .. | .pushHistoryLine .. | .finishHistoryFor .. => True
  | .noteAttention id => ((s.log id).getLast?.any (·.isHistory)) = true
  | .appendServerMessageAt _ _ info | .appendConversationMessage _ _ _ _ info _
  | .appendChannelMessageAt _ _ _ _ _ info | .appendChannelActivityAt _ _ _ info
  | .appendChannelAlertAt _ _ _ info | .appendRequestedJoinAlertAt _ _ _ info =>
    info.provenance.isHistory = true
  | _ => False

/-- A call that adds lines of the past removes no entry of a live line that stays held. -/
def Protects (lowercase : String → String) (s : AppState) (i : AppCall) : Prop :=
  s.AddsHistory i → ∀ a ∈ s.attention, ∀ m ∈ s.log a.1, m.sequence = a.2 → m.isHistory = false →
    heldIn ((s.call lowercase i).log a.1) a.2 = true → a ∈ (s.call lowercase i).attention

/-- The queue holds every entry once, is within its bound and visits the lines of each conversation
in their order. -/
structure Visits (lowercase : String → String) (s : AppState) : Prop where
  once : s.attention.Nodup
  bounded : s.attention.length ≤ maxAttention
  ascending : s.attention.Pairwise fun a b => a.1 = b.1 → a.2 < b.2
  visited : ∀ n a, s.attention[n]? = some a → (Machine.exec (call lowercase) s
    (List.replicate (n + 1) (.dispatch .nextNotifiedMessage))).reveal = some a

section Protecting

theorem past_append {m : Message} {attention : Bool} (hm : m.isHistory = true) {e : LogEvent}
    (he : e ∈ s.appendEvents id m attention) : e.past = true := by
  unfold appendEvents at he
  split at he
  · rw [List.mem_singleton.mp he]
    exact hm
  · cases he

theorem past_server {n : NetworkId} {m : Message} {e : LogEvent} (he : e ∈ s.serverEvents n m) :
    e.past = true := by
  unfold serverEvents at he
  split at he
  · rw [List.mem_singleton.mp he]
    rfl
  · cases he

theorem past_channelLine {n : NetworkId} {name text : String} {line : Line} {info : MessageMeta}
    (hinfo : info.provenance.isHistory = true) {e : LogEvent}
    (he : e ∈ s.channelLineEvents n name text line info) : e.past = true := by
  unfold channelLineEvents at he
  cases h : s.channelId n name with
  | none =>
    rw [h] at he
    cases he
  | some id =>
    rw [h] at he
    exact past_append (by exact hinfo) he

theorem past_reply (hk : s.SessionKept) {gapNote : Option String} {e : LogEvent}
    (he : e ∈ s.replyEvents id gapNote) : e.past = true := by
  obtain ⟨line, hline, he⟩ := List.mem_flatMap.mp he
  refine past_append ?_ he
  cases hl : s.pendingHistory.lookup id with
  | none =>
    rw [hl] at hline
    cases hline
  | some lines =>
    rw [hl] at hline
    rcases List.mem_append.mp hline with hline | hline
    · obtain ⟨note, -, rfl⟩ := List.mem_map.mp hline
      rfl
    · obtain ⟨place, -, hplace⟩ := List.mem_filterMap.mp hline
      exact hk.requested id lines hl line (List.mem_of_getElem? hplace)

theorem past_events (hk : s.SessionKept) (h : s.AddsHistory i) :
    (∀ e ∈ s.events i, e.past = true) ∨ (∃ id, i = .noteAttention id) ∨
      ∃ id request line, i = .pushOlderHistoryLine id request line := by
  cases i with
  | pushOlderHistoryLine id request line => exact .inr (.inr ⟨id, request, line, rfl⟩)
  | noteAttention id => exact .inr (.inl ⟨id, rfl⟩)
  | pushHistoryLine id line => exact .inl fun e he => by cases he
  | finishHistoryFor id gapNote => exact .inl fun e he => past_reply hk he
  | appendServerMessageAt id text info => exact .inl fun e he => past_server he
  | appendConversationMessage id sender text kind info unread =>
    exact .inl fun e he => past_append (by exact h) he
  | appendChannelMessageAt network name sender text kind info =>
    refine .inl fun e he => ?_
    dsimp only [events] at he
    unfold channelEvents at he
    split at he
    · exact past_server he
    · exact past_append (by exact h) he
  | appendChannelActivityAt network name text info =>
    exact .inl fun e he => past_channelLine h he
  | appendChannelAlertAt network name text info => exact .inl fun e he => past_channelLine h he
  | appendRequestedJoinAlertAt network name text info =>
    refine .inl fun e he => ?_
    dsimp only [events] at he
    unfold joinAlertEvents at he
    dsimp only at he
    split at he
    · exact past_channelLine h he
    · cases he
  | _ => cases h

theorem protects (lowercase : String → String) (hi : s.Ids) (ho : s.shelf.Ordered)
    (hk : s.SessionKept) (hc : ¬ s.Crowded i) : Protects lowercase s i := by
  intro h a ha m hm hs hlive hheld
  have hf := (call_follows lowercase s i hi).2
  have hatt : (s.call lowercase i).attention =
      ((s.events i).foldl Shelf.step s.shelf).attention := congrArg Shelf.attention hf
  have hlogs : ∀ j, (s.call lowercase i).log j =
      ((s.events i).foldl Shelf.step s.shelf).log j := fun j =>
    congrFun (congrArg Shelf.lines hf) (.conversation j)
  have hcases := past_events hk h
  -- the line that is held after the call is the one that was held before
  have hplain : ∀ e ∈ s.events i, e.plain = true := by
    intro e he
    rcases hcases with hpast | ⟨id, rfl⟩ | ⟨id, request, line, rfl⟩
    · exact LogEvent.plain_of_past (hpast e he)
    · rcases events_plain he with hp | ⟨_, _, _, _, _, hno⟩ | ⟨_, _, hno⟩ | ⟨_, _, _, hno⟩
      · exact hp.1
      all_goals cases hno
    · rcases events_plain he with hp | ⟨_, _, _, _, _, hno⟩ | ⟨_, _, hno⟩ | ⟨_, _, _, hno⟩
      · exact hp.1
      all_goals cases hno
  have ho' := (call_invariant lowercase i ⟨hi, ho⟩).2
  obtain ⟨m', hm', hs'⟩ := (ho'.ascending (.conversation a.1)).heldIn_iff.mp hheld
  have hspent : s.shelf.Spent a.2 := hs ▸ (ho.given (.conversation a.1) m hm).spent
  rw [show (s.call lowercase i).shelf.lines (.conversation a.1) = _ from hlogs a.1] at hm'
  have hold := plain_run hplain ho (hs' ▸ hspent) hm'
  cases (ho.ascending (.conversation a.1)).inj hm hold (hs.trans hs'.symm)
  rw [hatt]
  rcases hcases with hpast | ⟨id, rfl⟩ | ⟨id, request, line, rfl⟩
  · exact Shelf.kept_run ho hpast hspent hm' hs hlive ha
  · exact Shelf.kept_note ho h hm hs hlive ha
  · by_cases hin : s.olderHistoryInFlight id = some request ∧ (s.conversation id).isSome
    swap
    · rw [show s.events (.pushOlderHistoryLine id request line) = [] from if_neg hin]
      exact ha
    have he : s.events (.pushOlderHistoryLine id request line) = [.push id request line] :=
      if_pos hin
    rw [he] at hm' ⊢
    refine Shelf.kept_push ho hm' hs hlive ha fun hnoted => ?_
    by_contra hno
    push Not at hno
    obtain ⟨hnofit, hfull, k, hk, hr, ht, hlines, hhead⟩ := hno
    have hnone : s.conversation id ≠ none := Option.isSome_iff_ne_none.mp hin.2
    have hfits := (not_congr (shelf_fits_iff hin.1 hnone)).mp hnofit
    have hopen : (s.shelf.openBlock id request).blocks id = some k := by
      unfold Shelf.openBlock
      rw [if_pos]
      · exact hk
      · rw [hk]
        exact decide_eq_true hr
    have hafter : (s.shelf.push id request line).log =
        withLine s.log id { requestedMessage line with sequence := k.next } :=
      Shelf.push_withLine hopen ht
    refine hc ⟨id, request, line, k, rfl, hnoted, hk, hfits, hfull, fun c hcin => ?_, a, hhead, ?_⟩
    · rw [← hafter]
      exact Bool.eq_false_of_not_eq_true (hlines c hcin)
    · have hord := Shelf.step_ordered ho (.push id request line)
      rw [← hafter]
      exact (hord.ascending (.conversation a.1)).heldIn_iff.mpr ⟨m, hm', hs⟩

end Protecting

section Visiting

variable {a : ConversationId × ℤ}

theorem visit_carries (s : AppState) : s.CarriesAttention (.dispatch .nextNotifiedMessage) := by
  rintro id block ⟨request, beginning, hi, -⟩
  cases hi

theorem visits (lowercase : String → String) (h : s.Ids ∧ s.shelf.Ordered)
    (ha : s.shelf.AttentionHeld) {n : ℕ} (hn : s.attention[n]? = some a) :
    (Machine.exec (call lowercase) s
      (List.replicate (n + 1) (.dispatch .nextNotifiedMessage))).reveal = some a := by
  induction n generalizing s with
  | zero =>
    obtain ⟨rest, hatt⟩ : ∃ rest, s.attention = a :: rest := by
      cases hl : s.attention with
      | nil =>
        rw [hl] at hn
        cases hn
      | cons first rest =>
        rw [hl] at hn
        cases hn
        exact ⟨rest, rfl⟩
    exact (visit_held h.2 ha hatt).1
  | succ n ih =>
    cases hl : s.attention with
    | nil =>
      rw [hl] at hn
      cases hn
    | cons first rest =>
      rw [List.replicate_succ, Machine.exec_cons]
      apply ih
      · exact call_invariant lowercase _ h
      · exact (attention_call lowercase h.1 h.2 ha (visit_carries s)).1
      · rw [hl, List.getElem?_cons_succ] at hn
        have := (visit_held h.2 ha hl).2
        change s.visitAttention.attention[n]? = some a
        rw [this]
        exact hn

theorem queued_call (lowercase : String → String) (hi : s.Ids) (ho : s.shelf.Ordered)
    (hq : s.shelf.Queued) (ha : s.shelf.AttentionHeld) (hc : s.CarriesAttention i)
    (hk : s.KeepsOrder i) : (s.call lowercase i).shelf.Queued := by
  have hf := (call_follows lowercase s i hi).2
  by_cases hset : ∃ id block, s.Settles i id block
  · obtain ⟨id, block, hset⟩ := hset
    obtain ⟨request, hb, hr, hs, -, -⟩ := settles_shelf lowercase hi hset
    rw [hs]
    refine Shelf.queued_settle ho hq ha fun k hk' _ => ?_
    cases Option.some.inj (hb.symm.trans hk')
    exact ⟨hc id block hset, hk id block hset⟩
  rw [hf]
  have hplain : (∀ e ∈ s.events i, e.plain = true) →
      ((s.events i).foldl Shelf.step s.shelf).Queued := Shelf.queued_run hq
  have hone : ∀ e, s.events i = [e] → (s.shelf.step e).attention = s.attention →
      ((s.events i).foldl Shelf.step s.shelf).Queued := by
    intro e he hatt
    rw [he]
    exact hq.sublist (by exact hatt ▸ List.Sublist.refl _)
  cases i with
  | confirmMessage id x text kind info =>
    refine hone _ rfl ?_
    dsimp only [Shelf.step]
    unfold Shelf.confirm
    split <;> rfl
  | failMessage id x => exact hone _ rfl rfl
  | finishOlderHistory id request beginning =>
    by_cases hin : s.olderHistoryInFlight id = some request
    swap
    · apply hplain
      rw [show s.events (.finishOlderHistory id request beginning) = [] from if_neg hin]
      exact fun e he => by cases he
    refine hone _ (if_pos hin) ?_
    change (s.shelf.settle id request).attention = s.shelf.attention
    unfold Shelf.settle
    dsimp only
    split
    · rfl
    · rename_i k hb
      rw [if_neg fun hr => hset ⟨id, k, request, beginning, rfl, hin, hb, hr⟩]
  | _ =>
    apply hplain
    intro e he
    rcases events_plain he with hp | ⟨_, _, _, _, _, h⟩ | ⟨_, _, h⟩ | ⟨_, _, _, h⟩
    · exact hp.1
    all_goals cases h

/-- A call neither settles a page that brings the notified lines it moves out of order or leaves
their entries behind, nor hands a crowded queue a line. -/
def Orderly (s : AppState) (i : AppCall) : Prop :=
  s.CarriesAttention i ∧ s.KeepsOrder i ∧ ¬ s.Crowded i

theorem withNetworks_queued (configs : List NetworkConfig) :
    (withNetworks configs).shelf.Queued := by
  obtain ⟨-, selected, hs⟩ := withNetworks_shelf configs
  rw [hs]
  exact ⟨.nil, Nat.zero_le _⟩

/-- In every run whose pages that settle keep the order of the notified lines they move and take
their entries along, and that hands no notified line of a page to a crowded queue, the queue holds
every line once, is within its bound and visits the lines of each conversation in their order; and
a line of the past never removes the entry of a live line that stays held. -/
theorem visits_in_order (lowercase : String → String) (configs : List NetworkConfig)
    (is : List AppCall)
    (h : Machine.Along Orderly (call lowercase) (withNetworks configs) is) :
    Visits lowercase (run lowercase configs is) ∧
      Machine.Along (Protects lowercase) (call lowercase) (withNetworks configs) is := by
  set Kept : AppState → Prop := fun s =>
    (s.Ids ∧ s.shelf.Ordered) ∧ s.shelf.AttentionHeld ∧ s.shelf.Queued ∧ s.SessionKept
  have hstep : ∀ s i, Kept s → s.Orderly i → Kept (s.call lowercase i) := by
    rintro s i ⟨hinv, ha, hq, hk⟩ ⟨hc, ho, -⟩
    exact ⟨call_invariant lowercase i hinv, (attention_call lowercase hinv.1 hinv.2 ha hc).1,
      queued_call lowercase hinv.1 hinv.2 hq ha hc ho, hk.call lowercase i⟩
  have hstart : Kept (withNetworks configs) :=
    ⟨withNetworks_ids configs, withNetworks_held configs, withNetworks_queued configs,
      run_sessionKept lowercase configs []⟩
  have hend : Kept (run lowercase configs is) := Machine.exec_invariant Kept hstep hstart h
  constructor
  · obtain ⟨hinv, ha, hq, -⟩ := hend
    exact ⟨hq.sorted.nodup, hq.bounded, hq.sorted, fun n a hn => visits lowercase hinv ha hn⟩
  · refine Machine.Along.of_invariant Kept hstep ?_ hstart h
    rintro s i ⟨hinv, -, -, hk⟩ ⟨-, -, hc⟩
    exact protects lowercase hinv.1 hinv.2 hk hc

/-- A check that a call is orderly, for queues that are not full. -/
def calm (s : AppState) (i : AppCall) : Bool :=
  s.attention.length < maxAttention &&
    match i with
    | .finishOlderHistory id _ _ => (s.historyBlocks.lookup id).all fun block =>
      reordered none (arrived (s.log id) block.start (block.start + historyReserve)) &&
        (s.moves id block).all fun p => (s.moves id block).all fun q =>
          !(s.attention.contains (id, p.1) && s.attention.contains (id, q.1) && p.1 < q.1) ||
            p.2 < q.2
    | _ => true

theorem orderly_of_calm (h : s.calm i = true) : s.Orderly i := by
  obtain ⟨hroom, hpage⟩ := Bool.and_eq_true_iff.mp h
  have hsettle : ∀ id block, s.Settles i id block →
      reordered none (arrived (s.log id) block.start (block.start + historyReserve)) = true ∧
      ∀ p ∈ s.moves id block, ∀ q ∈ s.moves id block,
        (id, p.1) ∈ s.attention → (id, q.1) ∈ s.attention → p.1 < q.1 → p.2 < q.2 := by
    rintro id block ⟨request, beginning, rfl, -, hk, -⟩
    dsimp only at hpage
    rw [hk, Option.all_some, Bool.and_eq_true] at hpage
    refine ⟨hpage.1, fun p hp q hq hpa hqa hlt => ?_⟩
    have := List.all_eq_true.mp (List.all_eq_true.mp hpage.2 p hp) q hq
    simpa [hpa, hqa, hlt] using this
  refine ⟨fun id block hs => .inl (hsettle id block hs).1,
    fun id block hs => (hsettle id block hs).2, ?_⟩
  rintro ⟨id, request, line, block, -, -, -, -, hfull, -⟩
  have := of_decide_eq_true hroom
  omega

def notedLine (text : String) (time : SystemTime) : TimelineLine :=
  { pastLine text time with attention := true }

def pageNotes (third first : TimelineLine) : List AppCall :=
  [.setStatus 1 .registered, .joinedChannel 1 "#a", .setHistoryPaging 1 true,
    .appendConversationMessage 1 "bob" "now" .message { serverTime := some 9000000 } false,
    .noteAttention 1, .requestOlderHistory 1, .pushOlderHistoryLine 1 1 third,
    .pushOlderHistoryLine 1 1 first, .finishOlderHistory 1 1 false]

/-- A page that is put in order with one notified line, which is visited before the live one. -/
theorem visits_in_order_reordered :
    let s := run toAsciiLowercase [⟨1, "net", ["#a"]⟩]
      (pageNotes (notedLine "third" 3000000) (pastLine "first" 1000000))
    Visits toAsciiLowercase s ∧ s.attention =
      [(1, sequenceOrigin - historyReserve + 1), (1, sequenceOrigin + 1)] := by
  have hrun : Machine.Along (fun s i => calm s i = true) (call toAsciiLowercase)
      (withNetworks [⟨1, "net", ["#a"]⟩])
      (pageNotes (notedLine "third" 3000000) (pastLine "first" 1000000)) := by
    decide +kernel
  refine ⟨(visits_in_order toAsciiLowercase _ _ (hrun.mono fun _ _ => orderly_of_calm)).1, ?_⟩
  decide +kernel

/-- A page brings two notified lines out of order: they are visited newest first. -/
theorem settled_page_out_of_order :
    let s := run toAsciiLowercase [⟨1, "net", ["#a"]⟩]
      (pageNotes (notedLine "third" 3000000) (notedLine "first" 1000000))
    ¬ Visits toAsciiLowercase s ∧ (s.log 1).map (·.text) = ["first", "third", "now"] ∧
      s.attention.map (·.2) = [sequenceOrigin - historyReserve + 1,
        sequenceOrigin - historyReserve, sequenceOrigin + 1] := by
  refine ⟨fun h => ?_, ?_, ?_⟩
  · have hs := h.ascending
    revert hs
    decide +kernel
  · decide +kernel
  · decide +kernel

end Visiting

end AppState

end CayenChat.App
