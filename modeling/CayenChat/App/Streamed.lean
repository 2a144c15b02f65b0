import CayenChat.App.Attention
import CayenChat.App.Session

/-! # Pages that arrive

The order a page is put into when it ends, and its lines until then: they are
the oldest of their log, and those that are held are the last that were taken.
-/

namespace CayenChat.App

section Times

variable {l : List Message} {i : ℕ}

def carriedTime (l : List Message) (i : ℕ) : Option Timestamp :=
  ((l.take (i + 1)).filterMap (·.timestamp)).getLast?

/-- Every line once, by the times they count as, lines of equal time as they arrived. -/
structure TimeOrder (l : List Message) (order : List ℕ) : Prop where
  each : order.Perm (List.range l.length)
  ordered : order.Pairwise fun i j => timeLe (carriedTime l i) (carriedTime l j) ∧
    (timeLe (carriedTime l j) (carriedTime l i) → i < j)

theorem heldTimes_getElem? (time : Option Timestamp) {times : List (Option Timestamp)}
    (hi : i < times.length) : (heldTimes time times)[i]? =
      some (((times.take (i + 1)).filterMap id).getLast?.or time) := by
  induction times generalizing time i with
  | nil => exact absurd hi (Nat.not_lt_zero i)
  | cons own times ih =>
    rw [heldTimes, List.take_succ_cons]
    have hcons : ∀ rest : List (Option Timestamp), ((own :: rest).filterMap id).getLast?.or time =
        (rest.filterMap id).getLast?.or (own.or time) := by
      intro rest
      cases own with
      | none => rfl
      | some t =>
        change (t :: rest.filterMap id).getLast?.or time = _
        rw [List.getLast?_cons]
        cases (rest.filterMap id).getLast? <;> rfl
    cases i with
    | zero =>
      rw [hcons]
      rfl
    | succ i =>
      rw [List.getElem?_cons_succ, ih (own.or time) (Nat.lt_of_succ_lt_succ hi), hcons]

theorem heldTimes_eq (hi : i < l.length) :
    (heldTimes none (l.map (·.timestamp)))[i]?.join = carriedTime l i := by
  rw [heldTimes_getElem? none (by rwa [List.length_map]), ← List.map_take, List.filterMap_map]
  exact Option.or_none

theorem timeLe_total (a b : Option Timestamp) : timeLe a b ∨ timeLe b a := by
  cases a with
  | none => exact Or.inl trivial
  | some a =>
    cases b with
    | none => exact Or.inr trivial
    | some b => exact le_total a b

theorem timeLe_trans {a b c : Option Timestamp} (h : timeLe a b) (h' : timeLe b c) :
    timeLe a c := by
  cases a with
  | none => trivial
  | some a =>
    cases b with
    | none => cases h
    | some b =>
      cases c with
      | none => cases h'
      | some c => exact le_trans h h'

theorem serverTimeOrder_spec (l : List Message) :
    TimeOrder l (serverTimeOrder (l.map (·.timestamp))) := by
  have hperm := serverTimeOrder_perm (l.map (·.timestamp))
  rw [List.length_map] at hperm
  refine ⟨hperm, ?_⟩
  let R : ℕ → ℕ → Prop := fun i j => timeLe (heldTimes none (l.map (·.timestamp)))[i]?.join
    (heldTimes none (l.map (·.timestamp)))[j]?.join
  have : Std.Total R := ⟨fun i j => timeLe_total _ _⟩
  have : IsTrans ℕ R := ⟨fun i j k h h' => timeLe_trans h h'⟩
  have hsorted := List.pairwise_insertionSort R
    (List.range (heldTimes none (l.map (·.timestamp))).length)
  have hrange : (List.range (heldTimes none (l.map (·.timestamp))).length).Pairwise
      fun i j => R j i → i < j := by
    refine List.Pairwise.imp ?_ List.pairwise_lt_range
    exact fun hlt _ => hlt
  have hstable := Arrange.stable_insertionSort hrange
  refine (hsorted.and hstable).imp_of_mem fun {i j} hi hj h => ?_
  have hlt : ∀ {k}, k ∈ (List.range (heldTimes none (l.map (·.timestamp))).length).insertionSort R →
      k < l.length := by
    intro k hk
    have := List.mem_range.mp ((List.mem_insertionSort R).mp hk)
    rwa [length_heldTimes, List.length_map] at this
  rw [← heldTimes_eq (hlt hi), ← heldTimes_eq (hlt hj)]
  exact h

end Times

def unnumbered (m : Message) : Message := { m with sequence := 0 }

theorem filter_place {l : List Message} {m : Message} {stop : ℤ} (h : Ascending l)
    (hm : m.sequence < stop) (hl : ∀ a ∈ l, a.sequence < stop → a.sequence < m.sequence) :
    (l.insertIdx (Search.partitionPoint (fun a => a.sequence < m.sequence) l) m).filter
        (·.sequence < stop) = l.filter (·.sequence < stop) ++ [m] := by
  rw [insertIdx_partitionPoint h, List.filter_append, List.filter_cons_of_pos (by simpa using hm),
    List.filter_filter, List.filter_filter]
  have hlow : (l.filter fun a => decide (a.sequence < stop) && decide (a.sequence < m.sequence)) =
      l.filter (·.sequence < stop) := by
    refine List.filter_congr fun a ha => ?_
    by_cases hlt : a.sequence < stop
    · rw [decide_eq_true hlt, decide_eq_true (hl a ha hlt), Bool.and_self]
    · rw [decide_eq_false hlt, Bool.false_and]
  have hhigh : (l.filter fun a => decide (a.sequence < stop) && !decide (a.sequence < m.sequence)) =
      [] := by
    refine List.filter_eq_nil_iff.mpr fun a ha => ?_
    rw [Bool.and_eq_true, decide_eq_true_eq, Bool.not_eq_true', decide_eq_false_iff_not]
    exact fun hlt => hlt.2 (hl a ha hlt.1)
  rw [hlow, hhigh]

def LogEvent.Spares (id : ConversationId) (request : ℕ) : LogEvent → Prop
  | .settle j _ | .forget j => j ≠ id
  | .confirm j x .. | .fail j x => j = id → sequenceOrigin ≤ x
  | .push j r _ => j = id → r = request
  | _ => True

namespace Shelf

variable {b b' : Shelf} {id j : ConversationId} {request : ℕ} {above : ℤ} {taken : List Message}
  {k : HistoryBlock} {l l' : List Message} {e : LogEvent}

def took (b : Shelf) (id : ConversationId) (request : ℕ) (line : TimelineLine) : Bool :=
  ((b.openBlock id request).blocks id).any fun k =>
    (b.openBlock id request).takes id k (requestedMessage line)

/-- The lines of a page are the oldest of a log, those held the last that were taken. -/
structure Leads (k : HistoryBlock) (l : List Message) (taken : List Message) : Prop where
  lowest : ∀ m ∈ l, k.start ≤ m.sequence
  held : (l.filter (·.sequence < k.start + historyReserve)).map unnumbered <:+ taken

/-- The page of a request has brought these lines, all below what the conversation held. -/
structure Page (b : Shelf) (id : ConversationId) (request : ℕ) (above : ℤ) (taken : List Message) :
    Prop where
  floor : b.floor ≤ above
  high : above ≤ sequenceOrigin
  below : ∀ k, b.blocks id = some k → k.request = request → k.start + historyReserve ≤ above
  leads : ∀ k, b.blocks id = some k → k.request = request → Leads k (b.log id) taken
  rest : ∀ m ∈ b.log id, (∀ k, b.blocks id = some k → k.request = request →
    k.start + historyReserve ≤ m.sequence) → above ≤ m.sequence

theorem Leads.suffix (h : Leads k l taken) (hs : l' <:+ l) : Leads k l' taken where
  lowest m hm := h.lowest m (hs.subset hm)
  held := (hs.filter _).map unnumbered |>.trans h.held

theorem Page.keep (h : b.Page id request above taken) (hf : b'.floor ≤ b.floor)
    (hb : b'.blocks id = b.blocks id)
    (hm : ∀ m ∈ b'.log id, (∃ m' ∈ b.log id, m'.sequence = m.sequence) ∨
      sequenceOrigin ≤ m.sequence)
    (hl : ∀ k, b.blocks id = some k → Leads k (b.log id) taken → Leads k (b'.log id) taken) :
    b'.Page id request above taken where
  floor := hf.trans h.floor
  high := h.high
  below k hk := h.below k (hb ▸ hk)
  rest m hmem hout := by
    rcases hm m hmem with ⟨m', hm', hs⟩ | hge
    · exact hs ▸ h.rest m' hm' fun k hk hr => hs ▸ hout k (hb ▸ hk) hr
    · exact h.high.trans hge
  leads k hk hr := hl k (hb ▸ hk) (h.leads k (hb ▸ hk) hr)

theorem Page.quiet (h : b.Page id request above taken) (hf : b'.floor ≤ b.floor)
    (hb : b'.blocks id = b.blocks id) (hl : b'.log id = b.log id) :
    b'.Page id request above taken :=
  h.keep hf hb (fun m hm => Or.inl ⟨m, hl ▸ hm, rfl⟩) fun _ _ hk => hl ▸ hk

theorem page_append (h : b.Ordered) (hp : b.Page id request above taken) (m : Message) :
    (b.append j m).Page id request above taken := by
  by_cases hj : j = id
  swap
  · exact hp.quiet le_rfl rfl (Function.update_of_ne (by simp [Ne.symm hj]) ..)
  subst hj
  set new : Message := { m with sequence := b.top + 1 }
  have hhigh := h.high
  have hlog : (b.append j m).log j = (trimRetained (b.log j ++ [new])).1 :=
    Function.update_self ..
  refine hp.keep le_rfl rfl (fun a ha => ?_) fun k hk hlead => ?_
  · rw [hlog] at ha
    rcases List.mem_append.mp ((trimRetained_suffix _).subset ha) with ha | ha
    · exact Or.inl ⟨a, ha, rfl⟩
    · rw [List.mem_singleton.mp ha]
      change _ ∨ sequenceOrigin ≤ b.top + 1
      omega
  have hbelow := (h.pages j k hk).below
  rw [hlog]
  refine Leads.suffix ?_ (trimRetained_suffix _)
  have hnew : k.start + historyReserve ≤ new.sequence := by
    change _ ≤ b.top + 1
    omega
  constructor
  · intro a ha
    rcases List.mem_append.mp ha with ha | ha
    · exact hlead.lowest a ha
    · rw [List.mem_singleton.mp ha]
      have := Nat.zero_le historyReserve
      omega
  · rw [List.filter_append, List.filter_cons_of_neg (by simpa using hnew), List.filter_nil,
      List.append_nil]
    exact hlead.held

theorem page_edited (h : b.Ordered) (hp : b.Page id request above taken) {x : ℤ}
    {f : Message → Message} (hf : ∀ m, (f m).sequence = m.sequence)
    (hx : j = id → sequenceOrigin ≤ x) :
    (b.setLog j (AppState.edited (b.log j) x f)).Page id request above taken := by
  by_cases hj : j = id
  swap
  · exact hp.quiet le_rfl rfl (Function.update_of_ne (by simp [Ne.symm hj]) ..)
  subst hj
  have hx := hx rfl
  have hlog : (b.setLog j (AppState.edited (b.log j) x f)).log j =
      (b.log j).map fun m => if m.sequence = x then f m else m :=
    (Function.update_self ..).trans (edited_eq (h.ascending (.conversation j)) f)
  have hseq : ∀ m : Message, (if m.sequence = x then f m else m).sequence = m.sequence := by
    intro m
    split
    · exact hf m
    · rfl
  refine hp.keep le_rfl rfl (fun a ha => ?_) fun k hk hlead => ?_
  · rw [hlog] at ha
    obtain ⟨m, hm, rfl⟩ := List.mem_map.mp ha
    exact Or.inl ⟨m, hm, (hseq m).symm⟩
  have hbelow := (h.pages j k hk).below
  rw [hlog]
  constructor
  · intro a ha
    obtain ⟨m, hm, rfl⟩ := List.mem_map.mp ha
    rw [hseq]
    exact hlead.lowest m hm
  · rw [List.filter_map]
    have hsame : ((b.log j).filter ((fun m => decide (m.sequence < k.start + historyReserve)) ∘
        fun m => if m.sequence = x then f m else m)) =
          (b.log j).filter (·.sequence < k.start + historyReserve) := by
      refine List.filter_congr fun m _ => ?_
      rw [Function.comp_apply, hseq]
    rw [hsame]
    have hid : ((b.log j).filter (·.sequence < k.start + historyReserve)).map
        (fun m => if m.sequence = x then f m else m) =
          (b.log j).filter (·.sequence < k.start + historyReserve) := by
      refine (List.map_congr_left fun m hm => if_neg ?_).trans (List.map_id' _)
      have := of_decide_eq_true (List.mem_filter.mp hm).2
      omega
    rw [hid]
    exact hlead.held

theorem page_openBlock (h : b.Ordered) (hp : b.Page id request above taken) {r : ℕ}
    (hj : j = id → r = request) : (b.openBlock j r).Page id request above taken := by
  unfold openBlock
  split
  · exact hp
  rename_i hno
  have hr : (0 : ℤ) ≤ historyReserve := Nat.cast_nonneg _
  by_cases hjid : j = id
  swap
  · refine hp.quiet ?_ (Function.update_of_ne (Ne.symm hjid) ..) rfl
    change b.floor - historyReserve ≤ b.floor
    omega
  obtain rfl := hj hjid
  subst hjid
  have hnone : ∀ k, b.blocks j = some k → k.request ≠ r := by
    intro k hk hkr
    apply hno
    rw [hk]
    exact decide_eq_true hkr
  have hfloor := hp.floor
  refine ⟨?_, hp.high, ?_, ?_, ?_⟩
  · change b.floor - historyReserve ≤ above
    omega
  · intro k hk _
    cases (Function.update_self ..).symm.trans hk
    change b.floor - historyReserve + historyReserve ≤ above
    omega
  · intro k hk _
    cases (Function.update_self ..).symm.trans hk
    have hge : ∀ m ∈ b.log j, b.floor ≤ m.sequence := fun m hm =>
      (h.given (.conversation j) m hm).1
    constructor
    · intro m hm
      have := hge m hm
      change b.floor - historyReserve ≤ m.sequence
      omega
    · have hnil : (b.log j).filter (·.sequence < b.floor - historyReserve + historyReserve) = [] := by
        refine List.filter_eq_nil_iff.mpr fun m hm => ?_
        have := hge m hm
        rw [decide_eq_true_eq]
        omega
      change ((b.log j).filter (·.sequence < b.floor - historyReserve + historyReserve)).map _ <:+ _
      rw [hnil]
      exact List.nil_suffix
  · exact fun m hm _ => hp.rest m hm fun k hk hkr => absurd hkr (hnone k hk)

theorem page_place (h : b.Ordered) (hp : b.Page id request above taken) (hk : b.blocks id = some k)
    (hkr : k.request = request) (hroom : k.next < k.start + k.room) {m : Message}
    (hm : m.sequence = 0) (attention : Bool) :
    (b.place id k m attention).Page id request above (taken ++ [m]) := by
  have hlead := hp.leads k hk hkr
  have hf := h.pages id k hk
  have hbegun := hf.begun
  have hres := hf.room
  set new : Message := { m with sequence := k.next }
  set next : HistoryBlock := { k with
    next := k.next + 1
    nearTop := (k.nearTop.admitMessage m).1 }
  have hblock : (b.place id k m attention).blocks id = some next := Function.update_self ..
  have hlog : (b.place id k m attention).log id = (AppState.placed (b.log id) new).1 :=
    Function.update_self ..
  refine ⟨hp.floor, hp.high, ?_, ?_, ?_⟩
  · intro k' hk' _
    cases hblock.symm.trans hk'
    exact hp.below k hk hkr
  swap
  · intro a ha hout
    have hout := hout next hblock hkr
    rw [hlog] at ha
    rcases mem_place.mp ((trimRetained_suffix _).subset ha) with rfl | ha
    · change k.start + historyReserve ≤ k.next at hout
      omega
    · refine hp.rest a ha fun k' hk' _ => ?_
      cases hk.symm.trans hk'
      exact hout
  intro k' hk' _
  cases hblock.symm.trans hk'
  rw [hlog]
  refine Leads.suffix ?_ (trimRetained_suffix _)
  constructor
  · intro a ha
    rcases mem_place.mp ha with rfl | ha
    · exact hbegun
    · exact hlead.lowest a ha
  · -- the lines of the page come before the new one, the others behind it
    have hpage : ∀ a ∈ b.log id, a.sequence < k.start + historyReserve → a.sequence < k.next :=
      fun a ha hlt => ((h.given (.conversation id) a ha).2.2 id k hk (hlead.lowest a ha) hlt).2
    have hnew : new.sequence < k.start + historyReserve := by
      change k.next < _
      omega
    have hsplit := filter_place (l := b.log id) (h.ascending (.conversation id)) hnew hpage
    rw [hsplit, List.map_append]
    have hun : unnumbered new = m := by
      change { m with sequence := 0 } = m
      rw [← hm]
    rw [List.map_singleton, hun]
    obtain ⟨gone, hgone⟩ := hlead.held
    exact ⟨gone, by rw [← hgone, List.append_assoc]⟩

theorem page_push (h : b.Ordered) (hp : b.Page id request above taken) (line : TimelineLine) :
    (b.push id request line).Page id request above
      (taken ++ if b.took id request line then [requestedMessage line] else []) := by
  have ho := openBlock_ordered h id request
  have hpo := page_openBlock h hp (j := id) (r := request) fun _ => rfl
  obtain ⟨k, hk, hkr⟩ : ∃ k, (b.openBlock id request).blocks id = some k ∧ k.request = request := by
    rcases openBlock_blocks b id request with ⟨k, -, hr, hk⟩ | ⟨-, hk⟩
    · exact ⟨k, hk, hr⟩
    · exact ⟨_, hk, rfl⟩
  have htook : b.took id request line =
      (b.openBlock id request).takes id k (requestedMessage line) := by
    unfold took
    rw [hk]
    rfl
  unfold push
  dsimp only
  rw [htook, hk]
  dsimp only
  split
  · rename_i ht
    exact page_place ho hpo hk hkr (takes_room (ho.pages id k hk) ht) rfl line.attention
  · rwa [List.append_nil]

theorem page_push_other (h : b.Ordered) (hp : b.Page id request above taken) (hj : j ≠ id)
    (r : ℕ) (line : TimelineLine) : (b.push j r line).Page id request above taken := by
  have hpo := page_openBlock h hp (j := j) (r := r) fun heq => absurd heq hj
  unfold push
  dsimp only
  split
  · exact hpo
  · split
    · exact hpo.quiet le_rfl (Function.update_of_ne hj.symm ..)
        (Function.update_of_ne (by simp [hj.symm]) ..)
    · exact hpo

theorem page_settle (hp : b.Page id request above taken) (hj : j ≠ id) (r : ℕ) :
    (b.settle j r).Page id request above taken := by
  have hb : ∀ k, Function.update b.blocks j k id = b.blocks id := fun k =>
    Function.update_of_ne hj.symm ..
  unfold settle
  dsimp only
  split
  · exact hp.quiet le_rfl (hb none) rfl
  · split
    · exact hp.quiet le_rfl (hb none) (Function.update_of_ne (by simp [hj.symm]) ..)
    · exact hp.quiet le_rfl (hb none) rfl

theorem page_step (h : b.Ordered) (hp : b.Page id request above taken)
    (hs : e.Spares id request) (hno : ∀ line, e ≠ .push id request line) :
    (b.step e).Page id request above taken := by
  have hnote : ∀ {b : Shelf} (j), b.Page id request above taken →
      (b.note j).Page id request above taken := by
    intro b j hb
    unfold note
    split
    · exact hb
    · exact hb.quiet le_rfl rfl rfl
  cases e with
  | append j m attention =>
    dsimp only [Shelf.step]
    split
    · split
      · exact hnote j (page_append h hp m)
      · exact page_append h hp m
    · exact hp
  | appendServer n m =>
    exact hp.quiet le_rfl rfl (log_setServer b n (pushBounded (b.lines (.server n))
      { m with sequence := b.top + 1 }).1 id)
  | note j => exact hnote j hp
  | visit => exact hp.quiet le_rfl rfl rfl
  | confirm j x text kind info =>
    dsimp only [Shelf.step]
    unfold confirm
    split
    · exact hp
    · exact (page_edited h hp (f := AppState.confirmed text kind info) (fun _ => rfl) hs).quiet
        le_rfl rfl rfl
  | fail j x => exact page_edited h hp (f := AppState.failed) (fun _ => rfl) hs
  | push j r line =>
    refine page_push_other h hp (fun hj => ?_) r line
    obtain rfl := hs hj
    exact hno line (by rw [hj])
  | settle j r => exact page_settle hp hs r
  | forget j =>
    exact hp.quiet le_rfl (Function.update_of_ne (Ne.symm hs) ..)
      (Function.update_of_ne (by simpa using Ne.symm hs) ..)
  | clear n => exact hp.quiet le_rfl rfl (log_setServer b n [] id)

theorem page_run {es : List LogEvent} (h : b.Ordered) (hp : b.Page id request above taken)
    (hes : ∀ e ∈ es, e.Spares id request ∧ ∀ line, e ≠ .push id request line) :
    (es.foldl step b).Page id request above taken := by
  induction es generalizing b with
  | nil => exact hp
  | cons e es ih =>
    obtain ⟨⟨hs, hno⟩, hes⟩ := List.forall_mem_cons.mp hes
    exact ih (step_ordered h e) (page_step h hp hs hno) hes

end Shelf

namespace AppState

variable {s : AppState} {i : AppCall} {id : ConversationId} {request : ℕ} {above : ℤ}
  {taken : List Message} {e : LogEvent}

/-- A page is in flight and stays so: the call neither ends it, nor removes its conversation, nor
confirms a line of a page. -/
def Streaming (id : ConversationId) (request : ℕ) (s : AppState) (i : AppCall) : Prop :=
  s.olderHistoryInFlight id = some request ∧
    match i with
    | .syncNetworks .. | .resetNetwork .. => False
    | .closePrivate j => j ≠ id
    | .finishOlderHistory j r _ => j = id → r ≠ request
    | .confirmMessage j x _ _ _ | .failMessage j x => j = id → sequenceOrigin ≤ x
    | _ => True

def streamed (id : ConversationId) (request : ℕ) (s : AppState) : AppCall → List Message
  | .pushOlderHistoryLine j r line =>
    if j = id ∧ r = request ∧ (s.pushOlderHistoryLine j r line).2 = true then
      [requestedMessage line]
    else []
  | _ => []

section Events

theorem spares_append {j : ConversationId} {m : Message} {attention : Bool}
    (he : e ∈ s.appendEvents j m attention) :
    e.Spares id request ∧ ∀ line, e ≠ .push id request line := by
  unfold appendEvents at he
  split at he
  · rw [List.mem_singleton.mp he]
    exact ⟨trivial, fun line h => by cases h⟩
  · cases he

theorem spares_server {n : NetworkId} {m : Message} (he : e ∈ s.serverEvents n m) :
    e.Spares id request ∧ ∀ line, e ≠ .push id request line := by
  unfold serverEvents at he
  split at he
  · rw [List.mem_singleton.mp he]
    exact ⟨trivial, fun line h => by cases h⟩
  · cases he

theorem spares_channelLine {n : NetworkId} {name text : String} {line : Line} {info : MessageMeta}
    (he : e ∈ s.channelLineEvents n name text line info) :
    e.Spares id request ∧ ∀ line, e ≠ .push id request line := by
  unfold channelLineEvents at he
  cases h : s.channelId n name with
  | none =>
    rw [h] at he
    cases he
  | some j =>
    rw [h] at he
    exact spares_append he

theorem events_spare (hs : s.Streaming id request i)
    (hno : ∀ line, i ≠ .pushOlderHistoryLine id request line) (he : e ∈ s.events i) :
    e.Spares id request ∧ ∀ line, e ≠ .push id request line := by
  obtain ⟨hin, hs⟩ := hs
  cases i with
  | syncNetworks | resetNetwork => exact hs.elim
  | closePrivate j =>
    dsimp only [events] at he
    unfold closeEvents at he
    split at he
    · rw [List.mem_singleton.mp he]
      exact ⟨hs, fun line h => by cases h⟩
    · cases he
  | dispatch command =>
    dsimp only [events] at he
    unfold dispatchEvents at he
    split at he
    · rw [List.mem_singleton.mp he]
      exact ⟨trivial, fun line h => by cases h⟩
    · cases he
  | noteAttention j =>
    rw [List.mem_singleton.mp he]
    exact ⟨trivial, fun line h => by cases h⟩
  | appendServerMessageAt n text info => exact spares_server he
  | appendSystemMessage n text => exact spares_server he
  | appendDiagnosticMessage n text => exact spares_server he
  | appendConversationMessage j sender text kind info unread => exact spares_append he
  | appendConversationActivity j text => exact spares_append he
  | appendNetworkActivity n text =>
    obtain ⟨c, -, he⟩ := List.mem_flatMap.mp he
    exact spares_append he
  | appendChannelMessageAt network name sender text kind info =>
    dsimp only [events] at he
    unfold channelEvents at he
    split at he
    · exact spares_server he
    · exact spares_append he
  | appendChannelActivityAt network name text info => exact spares_channelLine he
  | appendChannelAlertAt network name text info => exact spares_channelLine he
  | appendRequestedJoinAlertAt network name text info =>
    dsimp only [events] at he
    unfold joinAlertEvents at he
    dsimp only at he
    split at he
    · exact spares_channelLine he
    · cases he
  | confirmMessage j x text kind info =>
    rw [List.mem_singleton.mp he]
    exact ⟨hs, fun line h => by cases h⟩
  | failMessage j x =>
    rw [List.mem_singleton.mp he]
    exact ⟨hs, fun line h => by cases h⟩
  | finishHistoryFor j gapNote =>
    obtain ⟨line, -, he⟩ := List.mem_flatMap.mp he
    exact spares_append he
  | pushOlderHistoryLine j r line =>
    dsimp only [events] at he
    unfold pushEvents at he
    split at he
    · rename_i h
      rw [List.mem_singleton.mp he]
      have hj : j ≠ id := by
        rintro rfl
        cases hin.symm.trans h.1
        exact hno line rfl
      exact ⟨fun h => absurd h hj, fun line h => hj (by cases h; rfl)⟩
    · cases he
  | finishOlderHistory j r beginning =>
    dsimp only [events] at he
    unfold settleEvents at he
    split at he
    · rename_i h
      rw [List.mem_singleton.mp he]
      refine ⟨?_, fun line h => by cases h⟩
      rintro rfl
      cases hin.symm.trans h
      exact hs rfl rfl
    · cases he
  | _ => cases he

theorem pushOlderHistoryLine_took (h : s.olderHistoryInFlight id = some request)
    (hc : (s.conversation id).isSome) (line : TimelineLine) :
    (s.pushOlderHistoryLine id request line).2 = s.shelf.took id request line := by
  have hn : ¬ (decide (s.olderHistoryInFlight id ≠ some request) ||
      (s.conversation id).isNone) = true := by
    rw [Bool.or_eq_true, decide_eq_true_eq, Option.isNone_iff_eq_none,
      ← Option.not_isSome_iff_eq_none, not_or, not_not, not_not]
    exact ⟨h, hc⟩
  unfold pushOlderHistoryLine Shelf.took
  rw [if_neg hn, ← shelf_openBlock]
  dsimp only
  generalize s.openBlock id request = s₁
  rw [show s₁.shelf.blocks id = s₁.historyBlocks.lookup id from rfl]
  cases s₁.historyBlocks.lookup id with
  | none => rfl
  | some block =>
    change _ = (decide ((block.next - block.start).toNat < block.room) &&
      !(s₁.filterOf id).contains (requestedMessage line) &&
        (block.nearTop.admitMessage (requestedMessage line)).2)
    dsimp only
    by_cases hroom : block.room ≤ (block.next - block.start).toNat
    · rw [if_pos hroom, decide_eq_false (not_lt.mpr hroom)]
      rfl
    rw [if_neg hroom, decide_eq_true (not_le.mp hroom)]
    cases (s₁.filterOf id).contains (requestedMessage line) with
    | true => rfl
    | false =>
      cases (block.nearTop.admitMessage (requestedMessage line)).2 with
      | false => rfl
      | true => rfl

end Events

section Streams

theorem page_call (lowercase : String → String) (hi : s.Ids) (ho : s.shelf.Ordered)
    (hp : s.shelf.Page id request above taken) (hs : s.Streaming id request i) :
    (s.call lowercase i).shelf.Page id request above (taken ++ s.streamed id request i) := by
  rw [(call_follows lowercase s i hi).2]
  by_cases hpush : ∃ line, i = .pushOlderHistoryLine id request line
  · obtain ⟨line, rfl⟩ := hpush
    dsimp only [events, streamed]
    unfold pushEvents
    split
    · rename_i h
      rw [pushOlderHistoryLine_took h.1 h.2]
      simp only [eq_self, true_and]
      exact Shelf.page_push ho hp line
    · rename_i h
      have hno : (s.pushOlderHistoryLine id request line).2 = false := by
        unfold pushOlderHistoryLine
        rw [if_pos]
        rw [Bool.or_eq_true, decide_eq_true_eq, Option.isNone_iff_eq_none,
          ← Option.not_isSome_iff_eq_none]
        exact not_and_or.mp h
      rw [hno, if_neg (by simp), List.append_nil]
      exact hp
  · push Not at hpush
    have hnil : s.streamed id request i = [] := by
      cases i with
      | pushOlderHistoryLine j r line =>
        refine if_neg ?_
        rintro ⟨rfl, rfl, -⟩
        exact hpush line rfl
      | _ => rfl
    rw [hnil, List.append_nil]
    exact Shelf.page_run ho hp fun e he => events_spare hs hpush he

theorem page_exec (lowercase : String → String) {js : List AppCall}
    (h : s.Ids ∧ s.shelf.Ordered) (hp : s.shelf.Page id request above taken)
    (hs : Machine.Along (Streaming id request) (call lowercase) s js) :
    (Machine.exec (call lowercase) s js).shelf.Page id request above
      (taken ++ Machine.collect (streamed id request) (call lowercase) s js) := by
  induction js generalizing s taken with
  | nil => rwa [Machine.collect_nil, List.append_nil]
  | cons i js ih =>
    rw [Machine.collect_cons, ← List.append_assoc]
    exact ih (call_invariant lowercase i h) (page_call lowercase h.1 h.2 hp hs.1) hs.2

theorem page_begins (ho : s.shelf.Ordered) (hno : ∀ k, s.historyBlocks.lookup id = some k → k.request ≠ request) :
    s.shelf.Page id request s.olderSequenceFloor [] where
  floor := le_rfl
  high := ho.low
  below k hk hr := absurd hr (hno k hk)
  leads k hk hr := absurd hr (hno k hk)
  rest m hm _ := (ho.given (.conversation id) m hm).1

end Streams

end AppState

end CayenChat.App
