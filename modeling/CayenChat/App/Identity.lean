import CayenChat.App.Pages

/-! # Lines keep their identity

A sequence names one line: what is found under it later is the line that was
found under it before, edited by confirmations only, or nothing. Settling a
page breaks this where it hands a sequence to another line; the queue of
notified lines follows the lines that a settled page moves, but not where the
page was already in order and had lost its first lines.
-/

namespace CayenChat.App

def LogEvent.edit (e : LogEvent) (source : Source) (x : ℤ) (m : Message) : Message :=
  match e with
  | .confirm id y text kind info =>
    if source = .conversation id ∧ x = y then AppState.confirmed text kind info m else m
  | .fail id y => if source = .conversation id ∧ x = y then AppState.failed m else m
  | _ => m

namespace Shelf

variable {b : Shelf} {source : Source} {x : ℤ} {id : ConversationId} {k : HistoryBlock}

def moves (b : Shelf) (id : ConversationId) (k : HistoryBlock) : List (ℤ × ℤ) :=
  (inTimeOrder (AppState.arrived (b.log id) k.start (k.start + historyReserve))).mapIdx
    fun i m => (m.sequence, k.start + i)

/-- An event neither takes a sequence from its line nor hands it to another one. -/
def Undisturbed (b : Shelf) (source : Source) (x : ℤ) : LogEvent → Prop
  | .settle id request => ∀ k, b.blocks id = some k → k.request = request →
      source = .conversation id → ∀ p ∈ b.moves id k, p.1 = x ↔ p.2 = x
  | _ => True

def Streams (b : Shelf) (source : Source) (x : ℤ) : LogEvent → Prop
  | .push id request line => source = .conversation id ∧ ∃ k,
    (b.openBlock id request).blocks id = some k ∧
      (b.openBlock id request).takes id k (requestedMessage line) = true ∧ k.next = x
  | _ => False

def Spent (b : Shelf) (x : ℤ) : Prop :=
  b.floor ≤ x ∧ x ≤ b.top ∧ ∀ id k, b.blocks id = some k → k.start ≤ x →
    x < k.start + historyReserve → x < k.next

theorem Given.spent (h : b.Given source x) : b.Spent x :=
  ⟨h.1, h.2.1, fun id k hk h1 h2 => (h.2.2 id k hk h1 h2).2⟩

theorem Spent.openBlock (h : b.Spent x) (id : ConversationId) (request : ℕ) :
    (b.openBlock id request).Spent x := by
  obtain ⟨hf, ht, hb⟩ := h
  unfold Shelf.openBlock
  split_ifs
  · exact ⟨hf, ht, hb⟩
  refine ⟨?_, ht, ?_⟩
  · change b.floor - historyReserve ≤ x
    omega
  · intro j k hk h1 h2
    change Function.update b.blocks id _ j = some k at hk
    rw [Function.update_apply] at hk
    split_ifs at hk with hj
    · cases hk
      change x < b.floor - historyReserve + historyReserve at h2
      omega
    · exact hb j k hk h1 h2

theorem Spent.release (h : b.Spent x) (id : ConversationId) :
    Spent { b with blocks := Function.update b.blocks id none } x := by
  refine ⟨h.1, h.2.1, fun j k hk => ?_⟩
  change Function.update b.blocks id none j = some k at hk
  rw [Function.update_apply] at hk
  split_ifs at hk
  exact h.2.2 j k hk

theorem Spent.place (h : b.Spent x) (hk : b.blocks id = some k) (m : Message) (attention : Bool) :
    (b.place id k m attention).Spent x := by
  refine ⟨h.1, h.2.1, fun j k' hk' h1 h2 => ?_⟩
  change Function.update b.blocks id (some _) j = some k' at hk'
  rw [Function.update_apply] at hk'
  split_ifs at hk' with hj
  · cases hk'
    have := h.2.2 id k hk h1 h2
    change x < k.next + 1
    omega
  · exact h.2.2 j k' hk' h1 h2

theorem Spent.push (h : b.Spent x) (id : ConversationId) (request : ℕ) (line : TimelineLine) :
    (b.push id request line).Spent x := by
  have ho := h.openBlock id request
  unfold Shelf.push
  dsimp only
  split
  · exact ho
  · split
    · exact ho.place ‹_› _ _
    · exact ho

theorem Spent.step (h : b.Spent x) (e : LogEvent) : (b.step e).Spent x := by
  have htop : b.floor ≤ x ∧ x ≤ b.top + 1 ∧ _ := ⟨h.1, h.2.1.trans (Int.le_of_lt (Int.lt_succ _)), h.2.2⟩
  have hnote : ∀ {b : Shelf} (id), b.Spent x → (b.note id).Spent x := by
    intro b id hb
    unfold note
    split
    · exact hb
    · exact hb
  cases e with
  | append id m attention =>
    dsimp only [Shelf.step]
    split
    · split
      · exact hnote id htop
      · exact htop
    · exact h
  | appendServer id m => exact htop
  | note id => exact hnote id h
  | visit => exact h
  | confirm id y text kind info =>
    dsimp only [Shelf.step]
    unfold confirm
    split
    · exact h
    · exact h
  | fail id y => exact h
  | push id request line => exact h.push id request line
  | settle id request =>
    have hr := h.release id
    dsimp only [Shelf.step]
    unfold settle
    dsimp only
    split
    · exact hr
    · split
      · exact hr
      · exact hr
  | forget id => exact h.release id
  | clear id => exact h

section Origin

variable {m : Message} {l : List Message}

theorem mem_setLines (other : Source) :
    m ∈ (b.setLines source l).lines other ↔ (other = source ∧ m ∈ l) ∨
      (other ≠ source ∧ m ∈ b.lines other) := by
  change m ∈ Function.update b.lines source l other ↔ _
  rw [Function.update_apply]
  split_ifs with h <;> simp [h]

theorem mem_setLog : m ∈ (b.setLog id l).lines source ↔ (source = .conversation id ∧ m ∈ l) ∨
    (source ≠ .conversation id ∧ m ∈ b.lines source) :=
  mem_setLines source

theorem mem_pushed {a : Message} (hm : m ∈ (pushBounded l a).1) : m ∈ l ∨ m = a := by
  rcases List.mem_append.mp ((trimRetained_suffix _).subset hm) with h | h
  · exact .inl h
  · exact .inr (List.mem_singleton.mp h)

theorem mem_edited (h : Ascending l) {f : Message → Message} {y : ℤ}
    (hm : m ∈ AppState.edited l y f) : ∃ a ∈ l, m = if a.sequence = y then f a else a := by
  rw [edited_eq h] at hm
  obtain ⟨a, ha, rfl⟩ := List.mem_map.mp hm
  exact ⟨a, ha, rfl⟩

theorem note_lines (b : Shelf) (id : ConversationId) : (b.note id).lines = b.lines := by
  unfold note
  split <;> rfl

theorem origin_edit (h : b.Ordered) {f : Message → Message} (hf : ∀ a, (f a).sequence = a.sequence)
    {y : ℤ} (hm : m ∈ (b.setLog id (AppState.edited (b.log id) y f)).lines source) :
    ∃ a ∈ b.lines source, a.sequence = m.sequence ∧
      m = if source = .conversation id ∧ a.sequence = y then f a else a := by
  rcases mem_setLog.mp hm with ⟨rfl, hm'⟩ | ⟨hs, hm'⟩
  · obtain ⟨a, ha, rfl⟩ := mem_edited (h.ascending (.conversation id)) hm'
    refine ⟨a, ha, ?_, ?_⟩
    · split_ifs
      · exact (hf a).symm
      · rfl
    · simp
  · exact ⟨m, hm', rfl, by simp [hs]⟩

theorem Spent.not_streams (h : b.Ordered) (hx : b.Spent x) (e : LogEvent) :
    ¬ b.Streams source x e := by
  cases e with
  | push id request line =>
    rintro ⟨-, k, hk, ht, rfl⟩
    have ho := openBlock_ordered h id request
    have hf := ho.pages id k hk
    have hroom := takes_room hf ht
    have hres := hf.room
    have := hf.begun
    have := (hx.openBlock id request).2.2 id k hk (by omega) (by omega)
    omega
  | _ => exact id

theorem origin_push {request : ℕ} {line : TimelineLine}
    (hm : m ∈ (b.push id request line).lines source) :
    m ∈ b.lines source ∨ b.Streams source m.sequence (.push id request line) := by
  rw [← openBlock_log b id request]
  unfold push at hm
  dsimp only at hm
  split at hm
  · exact .inl hm
  · rename_i k hk
    split at hm
    · rename_i ht
      have hm : m ∈ ((b.openBlock id request).setLog id (AppState.placed
          ((b.openBlock id request).log id)
          { requestedMessage line with sequence := k.next }).1).lines source := hm
      rcases mem_setLog.mp hm with ⟨rfl, hm'⟩ | ⟨-, hm'⟩
      · rcases mem_place.mp ((trimRetained_suffix _).subset hm') with rfl | hm
        · exact .inr ⟨rfl, k, hk, ht, rfl⟩
        · exact .inl hm
      · exact .inl hm'
    · exact .inl hm

theorem mem_moves (h : b.Ordered) (hk : b.blocks id = some k) (hm : m ∈ b.settledLines id k) :
    m ∈ b.log id ∨ ∃ a ∈ b.log id, (a.sequence, m.sequence) ∈ b.moves id k ∧
      m = { a with sequence := m.sequence } := by
  rw [h.settledLines_eq hk, List.append_assoc, List.mem_append, List.mem_append] at hm
  rcases hm with hm | hm | hm
  · exact .inl (List.mem_filter.mp hm).1
  · obtain ⟨i, hi, rfl⟩ := List.mem_mapIdx.mp hm
    refine .inr ⟨_, ?_, List.mem_mapIdx.mpr ⟨i, hi, rfl⟩, rfl⟩
    exact (h.arrived_mem hk ((inTimeOrder_perm _).subset (List.getElem_mem hi))).1
  · exact .inl (List.mem_filter.mp hm).1

theorem origin_settle (h : b.Ordered) (request : ℕ)
    (hu : b.Undisturbed source x (.settle id request))
    (hm : m ∈ (b.settle id request).lines source) (hs : m.sequence = x) : m ∈ b.lines source := by
  cases hk : b.blocks id with
  | none =>
    unfold settle at hm
    rw [hk] at hm
    exact hm
  | some k =>
    by_cases hr : k.request = request
    · rw [settle_eq hk request hr] at hm
      have hm : m ∈ (b.setLog id (b.settledLines id k)).lines source := hm
      rcases mem_setLog.mp hm with ⟨rfl, hm'⟩ | ⟨-, hm'⟩
      · rcases mem_moves h hk hm' with hm' | ⟨a, ha, hmove, he⟩
        · exact hm'
        · have hax := (hu k hk hr rfl _ hmove).mpr hs
          have : m = a := by
            rw [he, hs]
            change a.sequence = x at hax
            rw [← hax]
          rw [this]
          exact ha
      · exact hm'
    · unfold settle at hm
      rw [hk] at hm
      dsimp only at hm
      rw [if_neg hr] at hm
      exact hm

/-- What an event leaves under a sequence is what was there before, edited, or a new line. -/
theorem origin_or (h : b.Ordered) {e : LogEvent} (hu : b.Undisturbed source m.sequence e)
    (hm : m ∈ (b.step e).lines source) :
    (∃ a ∈ b.lines source, a.sequence = m.sequence ∧ m = e.edit source m.sequence a) ∨
      m.sequence = b.top + 1 ∨ b.Streams source m.sequence e := by
  have hpush : ∀ {other : Source} {a : Message}, m ∈ (b.setLines other (pushBounded (b.lines other)
      { a with sequence := b.top + 1 }).1).lines source →
        m ∈ b.lines source ∨ m.sequence = b.top + 1 := by
    intro other a hm
    rcases (mem_setLines source).mp hm with ⟨rfl, hm'⟩ | ⟨-, hm'⟩
    · exact (mem_pushed hm').imp_right fun hma => by rw [hma]
    · exact .inl hm'
  cases e with
  | append id a attention =>
    dsimp only [Shelf.step] at hm
    split at hm
    · have hm' : m ∈ b.lines source ∨ m.sequence = b.top + 1 := by
        split at hm
        · rw [note_lines] at hm
          exact hpush hm
        · exact hpush hm
      exact hm'.imp (fun hm => ⟨m, hm, rfl, rfl⟩) .inl
    · exact .inl ⟨m, hm, rfl, rfl⟩
  | appendServer id a => exact (hpush hm).imp (fun hm => ⟨m, hm, rfl, rfl⟩) .inl
  | note id =>
    dsimp only [Shelf.step] at hm
    rw [note_lines] at hm
    exact .inl ⟨m, hm, rfl, rfl⟩
  | visit => exact .inl ⟨m, hm, rfl, rfl⟩
  | confirm id y text kind info =>
    have hconf : ∃ a ∈ b.lines source, a.sequence = m.sequence ∧ m =
        if source = .conversation id ∧ a.sequence = y then AppState.confirmed text kind info a
        else a := by
      dsimp only [Shelf.step] at hm
      unfold confirm at hm
      split at hm
      · rename_i hnone
        refine ⟨m, hm, rfl, (if_neg ?_).symm⟩
        rintro ⟨rfl, hy⟩
        exact (h.ascending (.conversation id)).lookup_eq_none.mp hnone m hm hy
      · exact origin_edit h (f := AppState.confirmed text kind info) (fun _ => rfl) hm
    obtain ⟨a, ha, has, hma⟩ := hconf
    refine .inl ⟨a, ha, has, ?_⟩
    rw [← has]
    exact hma
  | fail id y =>
    obtain ⟨a, ha, has, hma⟩ := origin_edit h (f := AppState.failed) (fun _ => rfl) hm
    refine .inl ⟨a, ha, has, ?_⟩
    rw [← has]
    exact hma
  | push id request line => exact (origin_push hm).imp (fun hm => ⟨m, hm, rfl, rfl⟩) .inr
  | settle id request => exact .inl ⟨m, origin_settle h request hu hm rfl, rfl, rfl⟩
  | forget id =>
    rcases (mem_setLines source).mp hm with ⟨-, hm⟩ | ⟨-, hm⟩
    · cases hm
    · exact .inl ⟨m, hm, rfl, rfl⟩
  | clear id =>
    rcases (mem_setLines source).mp hm with ⟨-, hm⟩ | ⟨-, hm⟩
    · cases hm
    · exact .inl ⟨m, hm, rfl, rfl⟩

/-- What is found under a sequence that was given out is what was found there before the event,
edited. -/
theorem origin (h : b.Ordered) (hx : b.Spent x) {e : LogEvent} (hu : b.Undisturbed source x e)
    (hm : m ∈ (b.step e).lines source) (hs : m.sequence = x) :
    ∃ a ∈ b.lines source, a.sequence = x ∧ m = e.edit source x a := by
  subst hs
  refine (origin_or h hu hm).resolve_right ?_
  rintro (htop | hstream)
  · have := hx.2.1
    omega
  · exact hx.not_streams h e hstream

end Origin

end Shelf

def LogEvent.plain : LogEvent → Bool
  | .confirm .. | .fail .. | .settle .. => false
  | _ => true

def LogEvent.notes : LogEvent → Bool
  | .append _ _ attention => attention
  | .note _ | .push .. => true
  | _ => false

def AppCall.notes : AppCall → Bool
  | .noteAttention _ | .finishHistoryFor .. | .pushOlderHistoryLine .. => true
  | _ => false

def AppCall.edit (i : AppCall) (hit : Hit) (m : Message) : Message :=
  match i with
  | .confirmMessage id x text kind info =>
    if hit = ⟨.conversation id, x⟩ then AppState.confirmed text kind info m else m
  | .failMessage id x => if hit = ⟨.conversation id, x⟩ then AppState.failed m else m
  | _ => m

namespace AppState

variable {s : AppState} {i : AppCall} {hit : Hit} {id : ConversationId}

def moves (s : AppState) (id : ConversationId) (block : HistoryBlock) : List (ℤ × ℤ) :=
  (inTimeOrder (arrived (s.log id) block.start (block.start + historyReserve))).mapIdx
    fun i m => (m.sequence, block.start + i)

def Settles (s : AppState) (i : AppCall) (id : ConversationId) (block : HistoryBlock) : Prop :=
  ∃ request beginning, i = .finishOlderHistory id request beginning ∧
    s.olderHistoryInFlight id = some request ∧ s.historyBlocks.lookup id = some block ∧
    block.request = request

/-- A call does not settle a page that takes the sequence of a hit from its line, or hands it to
another one. -/
def Undisturbed (hit : Hit) (s : AppState) (i : AppCall) : Prop :=
  ∀ id block, s.Settles i id block → hit.source = .conversation id →
    ∀ p ∈ s.moves id block, p.1 = hit.sequence ↔ p.2 = hit.sequence

theorem plain_append {m : Message} {attention : Bool} {e : LogEvent}
    (he : e ∈ s.appendEvents id m attention) : e.plain = true ∧ e.notes = attention := by
  unfold appendEvents at he
  split at he
  · rw [List.mem_singleton.mp he]
    exact ⟨rfl, rfl⟩
  · cases he

theorem plain_server {n : NetworkId} {m : Message} {e : LogEvent}
    (he : e ∈ s.serverEvents n m) : e.plain = true ∧ e.notes = false := by
  unfold serverEvents at he
  split at he
  · rw [List.mem_singleton.mp he]
    exact ⟨rfl, rfl⟩
  · cases he

theorem plain_leave {n : NetworkId} {e : LogEvent} (he : e ∈ s.leaveEvents n) :
    e.plain = true ∧ e.notes = false := by
  rcases List.mem_append.mp he with he | he
  · obtain ⟨c, -, rfl⟩ := List.mem_map.mp he
    exact ⟨rfl, rfl⟩
  · rw [List.mem_singleton.mp he]
    exact ⟨rfl, rfl⟩

theorem plain_gone {ids : List NetworkId} {e : LogEvent} (he : e ∈ s.goneEvents ids) :
    e.plain = true ∧ e.notes = false := by
  induction ids generalizing s with
  | nil => cases he
  | cons n ids ih =>
    rcases List.mem_append.mp he with he | he
    · exact plain_leave he
    · exact ih he

theorem plain_channelLine {n : NetworkId} {name text : String} {line : Line} {info : MessageMeta}
    {e : LogEvent} (he : e ∈ s.channelLineEvents n name text line info) :
    e.plain = true ∧ e.notes = false := by
  unfold channelLineEvents at he
  cases h : s.channelId n name with
  | none =>
    rw [h] at he
    cases he
  | some id =>
    rw [h] at he
    exact plain_append he

theorem events_plain {e : LogEvent} (he : e ∈ s.events i) :
    (e.plain = true ∧ (e.notes = true → i.notes = true)) ∨
      (∃ id x text kind info, i = .confirmMessage id x text kind info) ∨
      (∃ id x, i = .failMessage id x) ∨
      ∃ id request beginning, i = .finishOlderHistory id request beginning := by
  have hquiet : e.plain = true ∧ e.notes = false →
      e.plain = true ∧ (e.notes = true → i.notes = true) := by
    rintro ⟨hp, hn⟩
    refine ⟨hp, fun h => ?_⟩
    rw [hn] at h
    cases h
  cases i with
  | confirmMessage id x text kind info => exact .inr (.inl ⟨id, x, text, kind, info, rfl⟩)
  | failMessage id x => exact .inr (.inr (.inl ⟨id, x, rfl⟩))
  | finishOlderHistory id request beginning =>
    exact .inr (.inr (.inr ⟨id, request, beginning, rfl⟩))
  | noteAttention id =>
    rw [List.mem_singleton.mp he]
    exact .inl ⟨rfl, fun _ => rfl⟩
  | finishHistoryFor id gapNote =>
    obtain ⟨line, -, he⟩ := List.mem_flatMap.mp he
    exact .inl ⟨(plain_append he).1, fun _ => rfl⟩
  | pushOlderHistoryLine id request line =>
    dsimp only [events] at he
    unfold pushEvents at he
    split at he
    · rw [List.mem_singleton.mp he]
      exact .inl ⟨rfl, fun _ => rfl⟩
    · cases he
  | syncNetworks configs => exact .inl (hquiet (plain_gone he))
  | resetNetwork network channels =>
    dsimp only [events] at he
    split at he
    · exact .inl (hquiet (plain_leave he))
    · cases he
  | closePrivate id =>
    dsimp only [events] at he
    unfold closeEvents at he
    split at he
    · cases List.mem_singleton.mp he
      exact .inl (hquiet ⟨rfl, rfl⟩)
    · cases he
  | dispatch command =>
    dsimp only [events] at he
    unfold dispatchEvents at he
    split at he
    · cases List.mem_singleton.mp he
      exact .inl (hquiet ⟨rfl, rfl⟩)
    · cases he
  | appendServerMessageAt id text info => exact .inl (hquiet (plain_server he))
  | appendSystemMessage id text => exact .inl (hquiet (plain_server he))
  | appendDiagnosticMessage id text => exact .inl (hquiet (plain_server he))
  | appendConversationMessage id sender text kind info unread =>
    exact .inl (hquiet (plain_append he))
  | appendConversationActivity id text => exact .inl (hquiet (plain_append he))
  | appendNetworkActivity id text =>
    obtain ⟨c, -, he⟩ := List.mem_flatMap.mp he
    exact .inl (hquiet (plain_append he))
  | appendChannelMessageAt network name sender text kind info =>
    dsimp only [events] at he
    unfold channelEvents at he
    split at he
    · exact .inl (hquiet (plain_server he))
    · exact .inl (hquiet (plain_append he))
  | appendChannelActivityAt network name text info => exact .inl (hquiet (plain_channelLine he))
  | appendChannelAlertAt network name text info => exact .inl (hquiet (plain_channelLine he))
  | appendRequestedJoinAlertAt network name text info =>
    dsimp only [events] at he
    unfold joinAlertEvents at he
    dsimp only at he
    split at he
    · exact .inl (hquiet (plain_channelLine he))
    · cases he
  | _ => cases he

theorem plain_run {es : List LogEvent} {b : Shelf} (hp : ∀ e ∈ es, e.plain = true) (h : b.Ordered)
    {source : Source} {m : Message} (hx : b.Spent m.sequence)
    (hm : m ∈ (es.foldl Shelf.step b).lines source) : m ∈ b.lines source := by
  induction es generalizing b with
  | nil => exact hm
  | cons e es ih =>
    obtain ⟨hpe, hp⟩ := List.forall_mem_cons.mp hp
    have hm' := ih hp (Shelf.step_ordered h e) (hx.step e) hm
    have hu : b.Undisturbed source m.sequence e := by
      cases e with
      | settle id request => cases hpe
      | _ => trivial
    obtain ⟨a, ha, -, hma⟩ := Shelf.origin h hx hu hm' rfl
    have he : e.edit source m.sequence a = a := by
      cases e with
      | confirm id y text kind info => cases hpe
      | fail id y => cases hpe
      | _ => rfl
    rw [hma, he]
    exact ha

theorem origin (lowercase : String → String) (hi : s.Ids) (ho : s.shelf.Ordered)
    (hx : s.shelf.Spent hit.sequence) (hu : Undisturbed hit s i) {m : Message}
    (hm : m ∈ (s.call lowercase i).lines hit.source) (hs : m.sequence = hit.sequence) :
    ∃ a ∈ s.lines hit.source, a.sequence = hit.sequence ∧ m = i.edit hit a := by
  have hf := (call_follows lowercase s i hi).2
  have hm : m ∈ ((s.events i).foldl Shelf.step s.shelf).lines hit.source := by
    rw [← hf]
    exact hm
  -- one event that edits lines or settles a page
  have hone : ∀ e, s.events i = [e] → s.shelf.Undisturbed hit.source hit.sequence e →
      e.edit hit.source hit.sequence = i.edit hit →
      ∃ a ∈ s.lines hit.source, a.sequence = hit.sequence ∧ m = i.edit hit a := by
    intro e he hue hed
    rw [he] at hm
    obtain ⟨a, ha, has, hma⟩ := Shelf.origin ho hx hue hm hs
    exact ⟨a, ha, has, by rw [hma, hed]⟩
  have hplain : (∀ e ∈ s.events i, e.plain = true) → (∀ a, i.edit hit a = a) →
      ∃ a ∈ s.lines hit.source, a.sequence = hit.sequence ∧ m = i.edit hit a := by
    intro hp hed
    exact ⟨m, plain_run hp ho (hs ▸ hx) hm, hs, (hed m).symm⟩
  have hhit : ∀ id x, (hit.source = .conversation id ∧ hit.sequence = x) =
      (hit = ⟨.conversation id, x⟩) := fun id x => by
    rw [Hit.mk.injEq]
  cases i with
  | confirmMessage id x text kind info =>
    refine hone _ rfl trivial ?_
    funext a
    dsimp only [LogEvent.edit, AppCall.edit]
    simp only [hhit]
  | failMessage id x =>
    refine hone _ rfl trivial ?_
    funext a
    dsimp only [LogEvent.edit, AppCall.edit]
    simp only [hhit]
  | finishOlderHistory id request beginning =>
    by_cases hin : s.olderHistoryInFlight id = some request
    · refine hone _ (if_pos hin) (fun k hk hr hsrc p hp => ?_) rfl
      exact hu id k ⟨request, beginning, rfl, hin, hk, hr⟩ hsrc p hp
    · refine hplain ?_ fun _ => rfl
      rw [show s.events (.finishOlderHistory id request beginning) = [] from if_neg hin]
      exact fun e he => by cases he
  | _ =>
    refine hplain (fun e he => ?_) fun _ => rfl
    rcases events_plain he with ⟨hp, -⟩ | ⟨_, _, _, _, _, h⟩ | ⟨_, _, h⟩ | ⟨_, _, _, h⟩
    · exact hp
    all_goals cases h

theorem call_invariant (lowercase : String → String) (i : AppCall)
    (h : s.Ids ∧ s.shelf.Ordered) :
    (s.call lowercase i).Ids ∧ (s.call lowercase i).shelf.Ordered := by
  obtain ⟨hi, hs⟩ := call_follows lowercase s i h.1
  refine ⟨hi, hs ▸ ?_⟩
  exact Machine.exec_invariant' Shelf.Ordered (fun _ e h => Shelf.step_ordered h e) h.2

theorem call_spent (lowercase : String → String) (i : AppCall) {x : ℤ} (hi : s.Ids)
    (h : s.shelf.Spent x) : (s.call lowercase i).shelf.Spent x := by
  rw [(call_follows lowercase s i hi).2]
  exact Machine.exec_invariant' (fun b : Shelf => b.Spent x) (fun _ e h => h.step e) h

theorem hitMessage_eq_some (ho : s.shelf.Ordered) {m : Message} :
    s.hitMessage hit = some m ↔ m ∈ s.lines hit.source ∧ m.sequence = hit.sequence :=
  (ho.ascending hit.source).lookup_eq_some

theorem hitMessage_call (lowercase : String → String) (h : s.Ids ∧ s.shelf.Ordered)
    (hx : s.shelf.Spent hit.sequence) (hu : Undisturbed hit s i) :
    (s.call lowercase i).hitMessage hit = none ∨
      (s.call lowercase i).hitMessage hit = (s.hitMessage hit).map (i.edit hit) := by
  cases hm : (s.call lowercase i).hitMessage hit with
  | none => exact .inl rfl
  | some m =>
    obtain ⟨hmem, hs⟩ := (hitMessage_eq_some (call_invariant lowercase i h).2).mp hm
    obtain ⟨a, ha, has, rfl⟩ := origin lowercase h.1 h.2 hx hu hmem hs
    rw [(hitMessage_eq_some h.2).mpr ⟨ha, has⟩]
    exact .inr rfl

theorem hitMessage_exec (lowercase : String → String) (h : s.Ids ∧ s.shelf.Ordered)
    (hx : s.shelf.Spent hit.sequence) {js : List AppCall}
    (hu : Machine.Along (Undisturbed hit) (call lowercase) s js) :
    (Machine.exec (call lowercase) s js).hitMessage hit = none ∨
      (Machine.exec (call lowercase) s js).hitMessage hit =
        (s.hitMessage hit).map fun m => js.foldl (fun m i => i.edit hit m) m := by
  induction js generalizing s with
  | nil =>
    right
    change s.hitMessage hit = (s.hitMessage hit).map fun m => m
    rw [Option.map_id']
  | cons i js ih =>
    rcases ih (call_invariant lowercase i h) (call_spent lowercase i h.1 hx) hu.2 with hn | hs
    · exact .inl hn
    · rcases hitMessage_call lowercase h hx hu.1 with hn | he
      · rw [hn] at hs
        exact .inl hs
      · rw [he, Option.map_map] at hs
        exact .inr hs

theorem spent_of_hit (ho : s.shelf.Ordered) {m : Message} (hm : s.hitMessage hit = some m) :
    s.shelf.Spent hit.sequence := by
  obtain ⟨hmem, hs⟩ := (hitMessage_eq_some ho).mp hm
  exact hs ▸ (ho.given hit.source m hmem).spent

end AppState

end CayenChat.App
