import CayenChat.App.Identity

/-! # The queue of notified lines

Entries of the queue name held lines. A page that settles moves them with their
lines when it puts the lines in another order; a page that is in order already
leaves them, which is right as long as none of its lines has been dropped.
-/

namespace CayenChat.App

namespace Attention

variable {attention : Attention} {log : ConversationId → List Message} {id : ConversationId}
  {x : ℤ} {a : ConversationId × ℤ}

theorem mem_withRoom {rest : Attention} (h : attention.withRoom log id x = some rest)
    (ha : a ∈ rest) : a ∈ attention := by
  unfold withRoom at h
  split at h
  · split at h
    · cases h
      exact List.mem_of_mem_eraseIdx ha
    · split at h
      · cases h
      · cases h
        exact List.mem_of_mem_tail ha
  · cases h
    exact ha

theorem mem_note (ha : a ∈ attention.note log id x) : a ∈ attention ∨ a = (id, x) := by
  unfold note at ha
  split_ifs at ha
  · exact .inl ha
  · split at ha
    · exact .inl ha
    · rename_i rest hrest
      rcases (List.mem_insertIdx List.findIdx_le_length).mp ha with rfl | ha
      · exact .inr rfl
      · exact .inl (mem_withRoom hrest ha)

theorem mem_prune {l : List Message} (ha : a ∈ attention.prune id l) :
    a ∈ attention ∧ (a.1 = id → (l.head?.map Message.sequence).all (· ≤ a.2) = true) := by
  obtain ⟨ha, hp⟩ := List.mem_filter.mp ha
  refine ⟨ha, fun hid => ?_⟩
  rw [Bool.or_eq_true, decide_eq_true_eq] at hp
  exact hp.resolve_left fun hne => hne hid

end Attention

theorem trimRetained_ne_nil {l : List Message} (h : l ≠ []) : (trimRetained l).1 ≠ [] := by
  suffices hd : ∀ fuel (l : List Message), l ≠ [] → drainLong fuel l ≠ [] from hd _ _ h
  intro fuel
  induction fuel with
  | zero => exact fun _ h => h
  | succ fuel ih =>
    intro l h
    unfold drainLong
    split_ifs with hl
    · apply ih
      intro hnil
      have := List.drop_eq_nil_iff.mp hnil
      have : maxRetained = 2000 := rfl
      omega
    · exact h

theorem mem_of_head_le {l l' : List Message} {m : Message} (h : Ascending l) (hs : l' <:+ l)
    (hne : l' ≠ []) (hm : m ∈ l)
    (hall : (l'.head?.map Message.sequence).all (· ≤ m.sequence) = true) : m ∈ l' := by
  by_contra hno
  cases l' with
  | nil => exact hne rfl
  | cons a l' =>
    have hlt := h.dropped hs hm hno a (List.mem_cons_self ..)
    have hle : a.sequence ≤ m.sequence := of_decide_eq_true hall
    omega

namespace Shelf

variable {b : Shelf} {id : ConversationId} {k : HistoryBlock} {e : LogEvent}

def AttentionHeld (b : Shelf) : Prop :=
  ∀ a ∈ b.attention, ∃ m ∈ b.log a.1, m.sequence = a.2

/-- A page that settles puts its lines in another order, or moves no notified line. -/
def Carries (b : Shelf) (id : ConversationId) (k : HistoryBlock) : Prop :=
  AppState.reordered none (AppState.arrived (b.log id) k.start (k.start + historyReserve)) = true ∨
    ∀ p ∈ b.moves id k, (id, p.1) ∈ b.attention → p.1 = p.2

theorem held_trimmed (id : ConversationId) {l : List Message} {attention : Attention} (hl : Ascending l)
    (hne : l ≠ []) (hlog : b.log id = (trimRetained l).1)
    (hatt : b.attention = if (trimRetained l).2 then attention.prune id (trimRetained l).1
      else attention)
    (ha : ∀ a ∈ attention, ∃ m, m.sequence = a.2 ∧
      ((a.1 = id ∧ m ∈ l) ∨ (a.1 ≠ id ∧ m ∈ b.log a.1))) : b.AttentionHeld := by
  intro a ham
  rw [hatt] at ham
  have hsplit : a ∈ attention ∧ (a.1 = id → ∀ m ∈ l, m.sequence = a.2 → m ∈ (trimRetained l).1) := by
    split at ham
    · obtain ⟨ha', hp⟩ := Attention.mem_prune ham
      refine ⟨ha', fun hid m hm hs => ?_⟩
      exact mem_of_head_le hl (trimRetained_suffix l) (trimRetained_ne_nil hne) hm (hs ▸ hp hid)
    · rename_i hno
      refine ⟨ham, fun _ m hm _ => ?_⟩
      rw [trimRetained_eq (not_lt.mp fun hlt => hno (decide_eq_true hlt))]
      exact hm
  obtain ⟨ha', hkeep⟩ := hsplit
  obtain ⟨m, hs, ⟨hid, hm⟩ | ⟨-, hm⟩⟩ := ha a ha'
  · refine ⟨m, ?_, hs⟩
    rw [hid, hlog]
    exact hkeep hid m hm hs
  · exact ⟨m, hm, hs⟩

theorem mem_log_of_ne {j : ConversationId} {l : List Message} {m : Message} (hm : m ∈ b.log j)
    (hj : j ≠ id) : m ∈ (b.setLog id l).log j :=
  mem_setLog.mpr (.inr ⟨by simp [hj], hm⟩)

theorem log_setServer (b : Shelf) (n : NetworkId) (l : List Message) (j : ConversationId) :
    (b.setLines (.server n) l).log j = b.log j := by
  change Function.update b.lines (.server n) l (.conversation j) = _
  exact Function.update_of_ne (by simp) ..

theorem held_note (h : b.AttentionHeld) (id : ConversationId) : (b.note id).AttentionHeld := by
  unfold note
  cases hl : (b.log id).getLast? with
  | none => exact h
  | some m =>
    intro a ha
    rcases Attention.mem_note ha with ha | rfl
    · exact h a ha
    · exact ⟨m, List.mem_of_getLast? hl, rfl⟩

theorem held_append (h : b.Ordered) (ha : b.AttentionHeld) (id : ConversationId) (m : Message) :
    (b.append id m).AttentionHeld := by
  set new : Message := { m with sequence := b.top + 1 }
  have hasc : Ascending (b.log id ++ [new]) := by
    refine Ascending.append (h.ascending (.conversation id)) fun a hal => ?_
    have := (h.given (.conversation id) a hal).2.1
    change a.sequence < b.top + 1
    omega
  refine held_trimmed id hasc (by simp) (Function.update_self ..) rfl fun a hal => ?_
  obtain ⟨m', hm', hs⟩ := ha a hal
  refine ⟨m', hs, ?_⟩
  by_cases hid : a.1 = id
  · exact .inl ⟨hid, List.mem_append_left _ (hid ▸ hm')⟩
  · exact .inr ⟨hid, mem_log_of_ne hm' hid⟩

theorem held_openBlock (h : b.AttentionHeld) (id : ConversationId) (request : ℕ) :
    (b.openBlock id request).AttentionHeld := by
  unfold openBlock
  split_ifs
  · exact h
  · exact h

theorem held_place (h : b.Ordered) (ha : b.AttentionHeld) (hk : b.blocks id = some k)
    (hr : k.next < k.start + k.room) (m : Message) (attention : Bool) :
    (b.place id k m attention).AttentionHeld := by
  set new : Message := { m with sequence := k.next }
  have hasc := (h.ascending (.conversation id)).place (m := new) (h.vacant hk hr (.conversation id))
  have hnew : ∀ {a}, a ∈ _ ↔ a = new ∨ a ∈ b.log id := mem_place (l := b.log id) (m := new)
  refine held_trimmed id hasc (List.ne_nil_of_mem (hnew.mpr (.inl rfl)))
    (Function.update_self ..) rfl fun a hal => ?_
  have hold : a ∈ b.attention ∨ a = (id, k.next) := by
    split at hal
    · exact Attention.mem_note hal
    · exact .inl hal
  rcases hold with hal | rfl
  · obtain ⟨m', hm', hs⟩ := ha a hal
    refine ⟨m', hs, ?_⟩
    by_cases hid : a.1 = id
    · exact .inl ⟨hid, mem_place.mpr (.inr (hid ▸ hm'))⟩
    · exact .inr ⟨hid, mem_log_of_ne hm' hid⟩
  · exact ⟨new, rfl, .inl ⟨rfl, hnew.mpr (.inl rfl)⟩⟩

theorem held_push (h : b.Ordered) (ha : b.AttentionHeld) (id : ConversationId) (request : ℕ)
    (line : TimelineLine) : (b.push id request line).AttentionHeld := by
  have ho := openBlock_ordered h id request
  have hao := held_openBlock ha id request
  unfold push
  dsimp only
  split
  · exact hao
  · rename_i k hk
    split
    · rename_i ht
      exact held_place ho hao hk (takes_room (ho.pages id k hk) ht) _ _
    · exact hao

section Settling

theorem movedTo_eq (first : ℤ) (room : ℕ) {l : List Message} {m : Message} (h : Ascending l)
    (hroom : l.length ≤ room) (hm : m ∈ l) :
    ∃ i : ℕ, (inTimeOrder l)[i]? = some m ∧
      AppState.movedTo first room none l m.sequence = some (some (first + i)) := by
  have hlen : (AppState.settled first room none l).length = (inTimeOrder l).length := by
    rw [settled_eq hroom, List.length_mapIdx]
  set places := (inTimeOrder l).mapIdx fun place m => (m.sequence, place + 0) with hplaces
  have hmoved : AppState.movedTo first room none l m.sequence =
      (places.find? (·.1 = m.sequence)).map fun p =>
        if p.2 < (AppState.settled first room none l).length then some (first + p.2) else none := rfl
  have hmem : m ∈ inTimeOrder l := (inTimeOrder_perm l).mem_iff.mpr hm
  obtain ⟨j, hj, hmj⟩ := List.mem_iff_getElem.mp hmem
  cases hf : places.find? (·.1 = m.sequence) with
  | none =>
    have := List.find?_eq_none.mp hf (m.sequence, j + 0)
      (List.mem_mapIdx.mpr ⟨j, hj, by rw [hmj]⟩)
    simp at this
  | some p =>
    have hseq : p.1 = m.sequence := by simpa using List.find?_some hf
    obtain ⟨i, hi, rfl⟩ := List.mem_mapIdx.mp (List.mem_of_find?_eq_some hf)
    have hmi : (inTimeOrder l)[i] = m :=
      h.inj ((inTimeOrder_perm l).subset (List.getElem_mem hi)) hm hseq
    refine ⟨i, List.getElem?_eq_some_iff.mpr ⟨hi, hmi⟩, ?_⟩
    rw [hmoved, hf, hlen]
    exact congrArg some (if_pos hi)

theorem mem_settledLines (h : b.Ordered) (hk : b.blocks id = some k) {m : Message}
    (hm : m ∈ b.log id) (hout : m.sequence < k.start ∨ k.start + historyReserve ≤ m.sequence) :
    m ∈ b.settledLines id k := by
  rw [h.settledLines_eq hk]
  rcases hout with hlt | hle
  · apply List.mem_append_left
    apply List.mem_append_left
    exact List.mem_filter.mpr ⟨hm, decide_eq_true hlt⟩
  · apply List.mem_append_right
    exact List.mem_filter.mpr ⟨hm, by simpa using hle⟩

theorem mem_settledLines_of_moved (h : b.Ordered) (hk : b.blocks id = some k) {m : Message} {i : ℕ}
    (hi : (inTimeOrder (AppState.arrived (b.log id) k.start (k.start + historyReserve)))[i]? =
      some m) :
    { m with sequence := k.start + i } ∈ b.settledLines id k ∧
      (m.sequence, k.start + i) ∈ b.moves id k := by
  obtain ⟨hlt, rfl⟩ := List.getElem?_eq_some_iff.mp hi
  rw [h.settledLines_eq hk]
  constructor
  · apply List.mem_append_left
    apply List.mem_append_right
    exact List.mem_mapIdx.mpr ⟨i, hlt, rfl⟩
  · exact List.mem_mapIdx.mpr ⟨i, hlt, rfl⟩

theorem arrived_mem_iff (h : b.Ordered) (id : ConversationId) (first : ℤ) {m : Message} :
    m ∈ AppState.arrived (b.log id) first (first + historyReserve) ↔
      m ∈ b.log id ∧ first ≤ m.sequence ∧ m.sequence < first + historyReserve := by
  have hr : first ≤ first + historyReserve := by
    have := (Nat.cast_nonneg historyReserve : (0 : ℤ) ≤ historyReserve)
    omega
  have ha : Ascending (b.log id) := h.ascending (.conversation id)
  rw [arrived_eq ha hr, List.mem_filter, Bool.and_eq_true, decide_eq_true_eq, decide_eq_true_eq]

/-- Where the line of an entry goes when a page settles. -/
def carriedTo (id : ConversationId) (first stop : ℤ) (lines : List Message)
    (a : ConversationId × ℤ) : Option (ConversationId × ℤ) :=
  if a.1 ≠ id || !(first ≤ a.2 && a.2 < stop) then some a
  else
    match AppState.movedTo first (stop - first).toNat none lines a.2 with
    | some (some moved) => some (a.1, moved)
    | some none => none
    | none => some a

def carry (b : Shelf) (id : ConversationId) (k : HistoryBlock) (a : ConversationId × ℤ) :
    Option (ConversationId × ℤ) :=
  let stop := k.start + historyReserve
  let lines := AppState.arrived (b.log id) k.start stop
  if AppState.reordered none lines then carriedTo id k.start stop lines a else some a

theorem carried_eq (b : Shelf) (id : ConversationId) (k : HistoryBlock) (attention : Attention) :
    AppState.carried attention id k.start (k.start + historyReserve) none
      (AppState.arrived (b.log id) k.start (k.start + historyReserve)) =
        attention.filterMap (b.carry id k) := by
  unfold AppState.carried carry
  dsimp only
  split
  · rfl
  · exact List.filterMap_some.symm

theorem carry_spec (h : b.Ordered) (hk : b.blocks id = some k) (hc : b.Carries id k)
    {a : ConversationId × ℤ} {m : Message} (ha : a ∈ b.attention) (hm : m ∈ b.log a.1)
    (hs : m.sequence = a.2) :
    ∃ y, { m with sequence := y } ∈ (b.setLog id (b.settledLines id k)).log a.1 ∧
      b.carry id k a = some (a.1, y) := by
  obtain ⟨j, x⟩ := a
  dsimp only at ha hm hs ⊢
  subst hs
  -- the entry of a line that is not in the block stays
  have hstay : m ∈ (b.setLog id (b.settledLines id k)).log j →
      (j ≠ id ∨ ¬(k.start ≤ m.sequence ∧ m.sequence < k.start + historyReserve)) →
      ∃ y, { m with sequence := y } ∈ (b.setLog id (b.settledLines id k)).log j ∧
        b.carry id k (j, m.sequence) = some (j, y) := by
    intro hmem hno
    refine ⟨m.sequence, hmem, ?_⟩
    unfold carry carriedTo
    dsimp only
    split
    · apply if_pos
      simpa [imp_iff_not_or] using hno
    · rfl
  by_cases hj : j = id
  swap
  · exact hstay (mem_setLog.mpr (.inr ⟨by simp [hj], hm⟩)) (.inl hj)
  subst hj
  by_cases hin : k.start ≤ m.sequence ∧ m.sequence < k.start + historyReserve
  swap
  · refine hstay (mem_setLog.mpr (.inl ⟨rfl, mem_settledLines h hk hm ?_⟩)) (.inr hin)
    omega
  have harr := (arrived_mem_iff h j k.start).mpr ⟨hm, hin⟩
  have hlen := h.arrived_length hk
  have hfill := (h.pages j k hk).filled
  have hroom := (h.pages j k hk).room
  obtain ⟨i, hi, hmoved⟩ := movedTo_eq k.start historyReserve
    (h.arrived_ascending j k.start) (by omega) harr
  obtain ⟨hmem, hp⟩ := mem_settledLines_of_moved h hk hi
  refine ⟨k.start + i, mem_setLog.mpr (.inl ⟨rfl, hmem⟩), ?_⟩
  unfold carry carriedTo
  dsimp only
  split
  · have hout : ¬((decide (j ≠ j) || !(decide (k.start ≤ m.sequence) &&
        decide (m.sequence < k.start + historyReserve))) = true) := by
      simpa using hin
    rw [if_neg hout, show (k.start + historyReserve - k.start).toNat = historyReserve by omega,
      hmoved]
  · -- the page was in order, and leaves the sequences
    rename_i hno
    have heq : m.sequence = k.start + i := hc.resolve_left hno _ hp ha
    rw [heq]

theorem held_settle (h : b.Ordered) (ha : b.AttentionHeld) {request : ℕ}
    (hc : ∀ k, b.blocks id = some k → k.request = request → b.Carries id k) :
    (b.settle id request).AttentionHeld := by
  cases hk : b.blocks id with
  | none =>
    unfold settle
    rw [hk]
    exact ha
  | some k =>
    by_cases hr : k.request = request
    swap
    · unfold settle
      rw [hk]
      dsimp only
      rw [if_neg hr]
      exact ha
    rw [settle_eq hk request hr, carried_eq]
    intro a' ha'
    obtain ⟨a, hmem, hcarry⟩ := List.mem_filterMap.mp ha'
    obtain ⟨m, hm, hs⟩ := ha a hmem
    obtain ⟨y, hy, hto⟩ := carry_spec h hk (hc k hk hr) hmem hm hs
    rw [hto] at hcarry
    cases hcarry
    exact ⟨_, hy, rfl⟩

end Settling

theorem held_edited (h : b.Ordered) (ha : b.AttentionHeld) (id : ConversationId) (x : ℤ)
    {f : Message → Message} (hf : ∀ m, (f m).sequence = m.sequence) :
    (b.setLog id (AppState.edited (b.log id) x f)).AttentionHeld := by
  intro a hal
  obtain ⟨m, hm, hs⟩ := ha a hal
  by_cases hid : a.1 = id
  · subst hid
    refine ⟨if m.sequence = x then f m else m, mem_setLog.mpr (.inl ⟨rfl, ?_⟩), ?_⟩
    · have he := edited_eq (h.ascending (.conversation a.1)) (x := x) f
      exact he ▸ List.mem_map.mpr ⟨m, hm, rfl⟩
    · split
      · exact (hf m).trans hs
      · exact hs
  · exact ⟨m, mem_setLog.mpr (.inr ⟨by simp [hid], hm⟩), hs⟩

theorem held_plain (h : b.Ordered) (ha : b.AttentionHeld) {e : LogEvent} (hp : e.plain = true) :
    (b.step e).AttentionHeld := by
  cases e with
  | append id m attention =>
    dsimp only [step]
    split
    · split
      · exact held_note (held_append h ha id m) id
      · exact held_append h ha id m
    · exact ha
  | appendServer id m =>
    intro a hal
    obtain ⟨m', hm', hs⟩ := ha a hal
    have hlog := log_setServer b id (pushBounded (b.lines (.server id))
      { m with sequence := b.top + 1 }).1 a.1
    exact ⟨m', hlog.symm ▸ hm', hs⟩
  | note id => exact held_note ha id
  | visit => exact fun a hal => ha a ((List.tail_sublist _).trans (List.dropWhile_sublist _) |>.mem hal)
  | push id request line => exact held_push h ha id request line
  | forget id =>
    intro a hal
    obtain ⟨hal, hne⟩ := List.mem_filter.mp hal
    obtain ⟨m, hm, hs⟩ := ha a hal
    exact ⟨m, mem_setLog.mpr (.inr ⟨by simpa using hne, hm⟩), hs⟩
  | clear id =>
    intro a hal
    obtain ⟨m, hm, hs⟩ := ha a hal
    exact ⟨m, (mem_setLines _).mpr (.inr ⟨by simp, hm⟩), hs⟩
  | confirm id x text kind info => cases hp
  | fail id x => cases hp
  | settle id request => cases hp

theorem attention_plain {e : LogEvent} (hp : e.plain = true) (hn : e.notes = false) :
    (b.step e).attention ⊆ b.attention := by
  cases e with
  | append id m attention =>
    cases hn
    dsimp only [step]
    split
    · intro a ha
      change a ∈ if (pushBounded _ _).2 then _ else _ at ha
      split at ha
      · exact (Attention.mem_prune ha).1
      · exact ha
    · exact List.Subset.refl _
  | visit => exact ((List.tail_sublist _).trans (List.dropWhile_sublist _)).subset
  | forget id => exact List.filter_sublist.subset
  | appendServer id m => exact List.Subset.refl _
  | clear id => exact List.Subset.refl _
  | note id => cases hn
  | push id request line => cases hn
  | confirm id x text kind info => cases hp
  | fail id x => cases hp
  | settle id request => cases hp

theorem held_run {es : List LogEvent} (hp : ∀ e ∈ es, e.plain = true) (h : b.Ordered)
    (ha : b.AttentionHeld) : (es.foldl step b).AttentionHeld := by
  induction es generalizing b with
  | nil => exact ha
  | cons e es ih =>
    obtain ⟨hpe, hp⟩ := List.forall_mem_cons.mp hp
    exact ih hp (step_ordered h e) (held_plain h ha hpe)

theorem attention_run {es : List LogEvent} (hp : ∀ e ∈ es, e.plain = true ∧ e.notes = false) :
    (es.foldl step b).attention ⊆ b.attention := by
  induction es generalizing b with
  | nil => exact List.Subset.refl _
  | cons e es ih =>
    obtain ⟨hpe, hp⟩ := List.forall_mem_cons.mp hp
    exact List.Subset.trans (ih hp) (attention_plain hpe.1 hpe.2)

end Shelf

def attentionHit (a : ConversationId × ℤ) : Hit := ⟨.conversation a.1, a.2⟩

namespace AppState

variable {s : AppState} {i : AppCall} {id : ConversationId} {block : HistoryBlock}

/-- A call does not settle a page in order that moves a notified line. -/
def CarriesAttention (s : AppState) (i : AppCall) : Prop :=
  ∀ id block, s.Settles i id block →
    reordered none (arrived (s.log id) block.start (block.start + historyReserve)) = true ∨
      ∀ p ∈ s.moves id block, (id, p.1) ∈ s.attention → p.1 = p.2

/-- The queue follows its lines through a call. -/
structure AttentionFollows (lowercase : String → String) (s : AppState) (i : AppCall) : Prop where
  /-- An entry is noted by the call, or names the line of an entry there was before. -/
  kept : ∀ a' ∈ (s.call lowercase i).attention, ∃ m',
    (s.call lowercase i).hitMessage (attentionHit a') = some m' ∧
      ((i.notes = true ∧ a' ∉ s.attention) ∨
        ∃ a ∈ s.attention, a.1 = a'.1 ∧ ∃ m, s.hitMessage (attentionHit a) = some m ∧
          m' = { i.edit (attentionHit a) m with sequence := a'.2 })
  /-- A page that settles takes the entries of its lines with them. -/
  moved : ∀ id block, s.Settles i id block → ∀ a ∈ s.attention, ∃ m y,
    s.hitMessage (attentionHit a) = some m ∧ (a.1, y) ∈ (s.call lowercase i).attention ∧
      (s.call lowercase i).hitMessage (attentionHit (a.1, y)) = some { m with sequence := y }
  /-- A visit goes to the line of the oldest entry. -/
  visited : i = .dispatch .nextNotifiedMessage → ∀ a rest, s.attention = a :: rest →
    (s.call lowercase i).reveal = some a ∧ (s.call lowercase i).attention = rest

theorem hit_of_held (ho : s.shelf.Ordered) (ha : s.shelf.AttentionHeld) {a : ConversationId × ℤ}
    (hal : a ∈ s.attention) : ∃ m, s.hitMessage (attentionHit a) = some m ∧ m ∈ s.log a.1 ∧
      m.sequence = a.2 := by
  obtain ⟨m, hm, hs⟩ := ha a hal
  exact ⟨m, (hitMessage_eq_some ho).mpr ⟨hm, hs⟩, hm, hs⟩

theorem visit_held (ho : s.shelf.Ordered) (ha : s.shelf.AttentionHeld) {a : ConversationId × ℤ}
    {rest : Attention} (h : s.attention = a :: rest) :
    s.visitAttention.reveal = some a ∧ s.visitAttention.attention = rest := by
  obtain ⟨m, -, hm, hs⟩ := hit_of_held ho ha (h ▸ List.mem_cons_self ..)
  have hheld : heldIn (s.log a.1) a.2 = true :=
    (ho.ascending (.conversation a.1)).heldIn_iff.mpr ⟨m, hm, hs⟩
  unfold visitAttention
  rw [h, List.dropWhile_cons_of_neg (by simpa using hheld)]
  refine ⟨rfl, ?_⟩
  unfold selectChannel
  dsimp only
  split <;> rfl

theorem settles_shelf (lowercase : String → String) (hi : s.Ids) (h : s.Settles i id block) :
    ∃ request, s.shelf.blocks id = some block ∧ block.request = request ∧
      (s.call lowercase i).shelf = s.shelf.settle id request ∧ i.notes = false ∧
      ∀ hit m, i.edit hit m = m := by
  obtain ⟨request, beginning, rfl, hin, hk, hr⟩ := h
  have hs := (call_follows lowercase s (.finishOlderHistory id request beginning) hi).2
  rw [show s.events (.finishOlderHistory id request beginning) = [.settle id request] from
    if_pos hin] at hs
  exact ⟨request, hk, hr, hs, rfl, fun _ _ => rfl⟩

theorem unsettled_attention (lowercase : String → String) (hi : s.Ids) (ho : s.shelf.Ordered)
    (ha : s.shelf.AttentionHeld) (h : ∀ id block, ¬ s.Settles i id block) :
    (s.call lowercase i).shelf.AttentionHeld ∧
      (i.notes = false → (s.call lowercase i).attention ⊆ s.attention) := by
  have hf := (call_follows lowercase s i hi).2
  have hatt : (s.call lowercase i).attention =
      ((s.events i).foldl Shelf.step s.shelf).attention := congrArg Shelf.attention hf
  rw [hf, hatt]
  have hone : ∀ e, s.events i = [e] → (s.shelf.step e).AttentionHeld →
      (s.shelf.step e).attention = s.attention →
      ((s.events i).foldl Shelf.step s.shelf).AttentionHeld ∧
        (i.notes = false → ((s.events i).foldl Shelf.step s.shelf).attention ⊆ s.attention) := by
    intro e he hh hae
    rw [he]
    exact ⟨hh, fun _ => hae ▸ List.Subset.refl _⟩
  have hplain : (∀ e ∈ s.events i, e.plain = true ∧ (e.notes = true → i.notes = true)) →
      ((s.events i).foldl Shelf.step s.shelf).AttentionHeld ∧
        (i.notes = false → ((s.events i).foldl Shelf.step s.shelf).attention ⊆ s.attention) := by
    refine fun hp => ⟨Shelf.held_run (fun e he => (hp e he).1) ho ha, fun hn => ?_⟩
    refine Shelf.attention_run (b := s.shelf) fun e he => ⟨(hp e he).1, ?_⟩
    rw [← Bool.not_eq_true]
    intro hen
    rw [(hp e he).2 hen] at hn
    cases hn
  cases i with
  | confirmMessage id x text kind info =>
    have hcon : ∀ {f : Message → Message}, (∀ m, (f m).sequence = m.sequence) →
        (s.shelf.confirm id x f).AttentionHeld ∧ (s.shelf.confirm id x f).attention =
          s.attention := by
      intro f hf
      unfold Shelf.confirm
      split
      · exact ⟨ha, rfl⟩
      · exact ⟨Shelf.held_edited ho ha id x hf, rfl⟩
    have hcf := hcon (f := confirmed text kind info) fun _ => rfl
    exact hone _ rfl hcf.1 hcf.2
  | failMessage id x => exact hone _ rfl (Shelf.held_edited ho ha id x fun _ => rfl) rfl
  | finishOlderHistory id request beginning =>
    by_cases hin : s.olderHistoryInFlight id = some request
    swap
    · apply hplain
      rw [show s.events (.finishOlderHistory id request beginning) = [] from if_neg hin]
      exact fun e he => by cases he
    have hno : ∀ k, s.shelf.blocks id = some k → k.request ≠ request := fun k hk hr =>
      h id k ⟨request, beginning, rfl, hin, hk, hr⟩
    refine hone _ (if_pos hin) ?_ ?_
    · exact Shelf.held_settle ho ha fun k hk hr => absurd hr (hno k hk)
    · change (s.shelf.settle id request).attention = s.shelf.attention
      unfold Shelf.settle
      dsimp only
      split
      · rfl
      · rename_i k hk
        rw [if_neg (hno k hk)]
  | _ =>
    apply hplain
    intro e he
    rcases events_plain he with hp | ⟨_, _, _, _, _, h⟩ | ⟨_, _, h⟩ | ⟨_, _, _, h⟩
    · exact hp
    all_goals cases h

theorem attention_call (lowercase : String → String) (hi : s.Ids) (ho : s.shelf.Ordered)
    (ha : s.shelf.AttentionHeld) (hc : s.CarriesAttention i) :
    (s.call lowercase i).shelf.AttentionHeld ∧ AttentionFollows lowercase s i := by
  have ho' := (call_invariant lowercase i ⟨hi, ho⟩).2
  have hvisit : i = .dispatch .nextNotifiedMessage → ∀ a rest, s.attention = a :: rest →
      (s.call lowercase i).reveal = some a ∧ (s.call lowercase i).attention = rest := by
    rintro rfl a rest h
    exact visit_held ho ha h
  by_cases hset : ∃ id block, s.Settles i id block
  · obtain ⟨id, block, hset⟩ := hset
    obtain ⟨request, hk, hr, hs, -, hed⟩ := settles_shelf lowercase hi hset
    have hcarries : s.shelf.Carries id block := hc id block hset
    have hheld : (s.call lowercase i).shelf.AttentionHeld := by
      rw [hs]
      refine Shelf.held_settle ho ha fun k hk' _ => ?_
      rw [hk] at hk'
      cases hk'
      exact hcarries
    have hatt : (s.call lowercase i).attention = s.attention.filterMap (s.shelf.carry id block) := by
      have := congrArg Shelf.attention hs
      rw [Shelf.settle_eq hk request hr, Shelf.carried_eq] at this
      exact this
    have hlog : ∀ {j m}, m ∈ (s.shelf.setLog id (s.shelf.settledLines id block)).log j →
        m ∈ (s.call lowercase i).log j := by
      intro j m hm
      have := congrArg Shelf.lines hs
      rw [Shelf.settle_eq hk request hr] at this
      have hl : (s.call lowercase i).log j =
          (s.shelf.setLog id (s.shelf.settledLines id block)).log j := congrFun this (.conversation j)
      rw [hl]
      exact hm
    -- where the entry of a line goes, and the line with it
    have hto : ∀ a ∈ s.attention, ∃ m y, s.hitMessage (attentionHit a) = some m ∧
        s.shelf.carry id block a = some (a.1, y) ∧
        (s.call lowercase i).hitMessage (attentionHit (a.1, y)) = some { m with sequence := y } := by
      intro a hal
      obtain ⟨m, hhit, hm, hseq⟩ := hit_of_held ho ha hal
      obtain ⟨y, hy, hcar⟩ := Shelf.carry_spec ho hk hcarries hal hm hseq
      exact ⟨m, y, hhit, hcar, (hitMessage_eq_some ho').mpr ⟨hlog hy, rfl⟩⟩
    refine ⟨hheld, ?_, ?_, hvisit⟩
    · intro a' ha'
      rw [hatt] at ha'
      obtain ⟨a, hal, hcar⟩ := List.mem_filterMap.mp ha'
      obtain ⟨m, y, hhit, hcar', hhit'⟩ := hto a hal
      rw [hcar'] at hcar
      cases hcar
      exact ⟨_, hhit', .inr ⟨a, hal, rfl, m, hhit, by rw [hed]⟩⟩
    · intro id' block' _ a hal
      obtain ⟨m, y, hhit, hcar, hhit'⟩ := hto a hal
      refine ⟨m, y, hhit, ?_, hhit'⟩
      rw [hatt]
      exact List.mem_filterMap.mpr ⟨a, hal, hcar⟩
  · have hno : ∀ id block, ¬ s.Settles i id block := fun id block h => hset ⟨id, block, h⟩
    obtain ⟨hheld, hsub⟩ := unsettled_attention lowercase hi ho ha hno
    refine ⟨hheld, ?_, fun id block h => absurd h (hno id block), hvisit⟩
    intro a' ha'
    obtain ⟨m', hhit', hm', hs'⟩ := hit_of_held ho' hheld ha'
    refine ⟨m', hhit', ?_⟩
    by_cases hal : a' ∈ s.attention
    · right
      obtain ⟨m, hhit, hm, hs⟩ := hit_of_held ho ha hal
      have hu : Undisturbed (attentionHit a') s i := fun id block h => absurd h (hno id block)
      obtain ⟨n, hn, hns, rfl⟩ := origin lowercase hi ho (spent_of_hit ho hhit) hu hm' hs'
      refine ⟨a', hal, rfl, n, (hitMessage_eq_some ho).mpr ⟨hn, hns⟩, ?_⟩
      rw [← hs']
    · left
      refine ⟨?_, hal⟩
      by_contra hn
      exact hal (hsub (Bool.eq_false_iff.mpr hn) ha')

theorem withNetworks_held (configs : List NetworkConfig) :
    (withNetworks configs).shelf.AttentionHeld := by
  obtain ⟨-, selected, hs⟩ := withNetworks_shelf configs
  rw [hs]
  intro a ha
  cases ha

/-- In every run, what is found under the sequence of a held line is that line edited by the
confirmations since, or nothing, as long as no page that settles takes the sequence from its line or
hands it to another one; and the queue of notified lines follows its lines as long as no page that
settles in order moves a notified line. -/
theorem lines_keep_identity (lowercase : String → String) (configs : List NetworkConfig) :
    (∀ is js hit m, (run lowercase configs is).hitMessage hit = some m →
      Machine.Along (Undisturbed hit) (call lowercase) (run lowercase configs is) js →
      (run lowercase configs (is ++ js)).hitMessage hit = none ∨
        (run lowercase configs (is ++ js)).hitMessage hit =
          some (js.foldl (fun m i => i.edit hit m) m)) ∧
    ∀ is, Machine.Along CarriesAttention (call lowercase) (withNetworks configs) is →
      Machine.Along (AttentionFollows lowercase) (call lowercase) (withNetworks configs) is := by
  constructor
  · intro is js hit m hm hu
    have h : (run lowercase configs is).Ids ∧ (run lowercase configs is).shelf.Ordered :=
      ⟨(run_shelf lowercase configs is).1, run_ordered lowercase configs is⟩
    have hrun : run lowercase configs (is ++ js) =
        Machine.exec (call lowercase) (run lowercase configs is) js := Machine.exec_append
    have he := hitMessage_exec lowercase h (spent_of_hit h.2 hm) hu
    rw [hm] at he
    rw [hrun]
    exact he
  · intro is hc
    refine Machine.Along.of_invariant
      (fun s => (s.Ids ∧ s.shelf.Ordered) ∧ s.shelf.AttentionHeld) ?_ ?_
      ⟨withNetworks_ids configs, withNetworks_held configs⟩ hc
    · rintro s i ⟨h, ha⟩ hi
      exact ⟨call_invariant lowercase i h, (attention_call lowercase h.1 h.2 ha hi).1⟩
    · rintro s i ⟨h, ha⟩ hi
      exact (attention_call lowercase h.1 h.2 ha hi).2

def pageArrives : List AppCall :=
  [.setStatus 1 .registered, .joinedChannel 1 "#a", .setHistoryPaging 1 true,
    .appendConversationMessage 1 "bob" "now" .message { serverTime := some 9000000 } false,
    .requestOlderHistory 1, .pushOlderHistoryLine 1 1 (pastLine "third" 3000000),
    .pushOlderHistoryLine 1 1 (pastLine "first" 1000000),
    .pushOlderHistoryLine 1 1 (pastLine "second" 2000000)]

/-- A hit that was found while a page arrived names another line when the page has settled. -/
theorem settled_page_hands_on :
    let hit : Hit := ⟨.conversation 1, sequenceOrigin - historyReserve⟩
    let s := run toAsciiLowercase [⟨1, "net", ["#a"]⟩] pageArrives
    let s' := run toAsciiLowercase [⟨1, "net", ["#a"]⟩] (pageArrives ++
      [.finishOlderHistory 1 1 false])
    (s.hitMessage hit).map (·.text) = some "third" ∧
      (s'.hitMessage hit).map (·.text) = some "first" := by
  decide +kernel

end AppState

end CayenChat.App
