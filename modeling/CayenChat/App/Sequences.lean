import CayenChat.App.Ordered

/-! # Sequences name lines

Every event keeps the logs ascending and bounded, and gives no sequence to two
lines: appended lines count up, each page has a block of its own far below,
and a page that ends hands out the sequences of its block again.
-/

namespace CayenChat.App

/-- The sequences set aside for a page lie below what was appended and above the floor. -/
structure HistoryBlock.Fits (k : HistoryBlock) (floor : ℤ) : Prop where
  above : floor ≤ k.start
  below : k.start + historyReserve ≤ sequenceOrigin
  begun : k.start ≤ k.next
  filled : k.next ≤ k.start + k.room
  room : k.room ≤ historyReserve

namespace Shelf

def Given (b : Shelf) (source : Source) (x : ℤ) : Prop :=
  b.floor ≤ x ∧ x ≤ b.top ∧ ∀ id k, b.blocks id = some k → k.start ≤ x →
    x < k.start + historyReserve → source = .conversation id ∧ x < k.next

def Apart (b : Shelf) (source : Source) (x : ℤ) : Prop :=
  ∀ other ≠ source, ∀ m ∈ b.lines other, m.sequence ≠ x

/-- The logs ascend within their bound, and sequences are names. -/
structure Ordered (b : Shelf) : Prop where
  ascending : ∀ source, Ascending (b.lines source)
  bounded : ∀ source, (b.lines source).length ≤ maxRetained
  given : ∀ source, ∀ m ∈ b.lines source, b.Given source m.sequence
  apart : ∀ source, ∀ m ∈ b.lines source, b.Apart source m.sequence
  low : b.floor ≤ sequenceOrigin
  high : sequenceOrigin ≤ b.top
  pages : ∀ id k, b.blocks id = some k → k.Fits b.floor
  separate : ∀ id id' k k', b.blocks id = some k → b.blocks id' = some k' → id ≠ id' →
    k.start + historyReserve ≤ k'.start ∨ k'.start + historyReserve ≤ k.start

variable {b b' : Shelf} {source : Source} {l : List Message} {m : Message} {id : ConversationId}
  {k : HistoryBlock} {x : ℤ}

theorem Ordered.congr (h : b.Ordered) (hl : b'.lines = b.lines) (ht : b'.top = b.top)
    (hf : b'.floor = b.floor) (hb : b'.blocks = b.blocks) : b'.Ordered := by
  obtain ⟨lines, top, floor, blocks, filters, attention⟩ := b'
  dsimp only at hl ht hf hb
  subst hl ht hf hb
  exact ⟨h.ascending, h.bounded, h.given, h.apart, h.low, h.high, h.pages, h.separate⟩

theorem Ordered.setLines (h : b.Ordered) (source : Source) (ha : Ascending l) (hb : l.length ≤ maxRetained)
    (hl : ∀ m ∈ l, b.Given source m.sequence ∧ b.Apart source m.sequence) :
    (b.setLines source l).Ordered := by
  constructor
  · intro other
    change Ascending (Function.update b.lines source l other)
    rw [Function.update_apply]
    split_ifs
    · exact ha
    · exact h.ascending other
  · intro other
    change (Function.update b.lines source l other).length ≤ maxRetained
    rw [Function.update_apply]
    split_ifs
    · exact hb
    · exact h.bounded other
  · intro other m hm
    change m ∈ Function.update b.lines source l other at hm
    rw [Function.update_apply] at hm
    split_ifs at hm with ho
    · exact ho ▸ (hl m hm).1
    · exact h.given other m hm
  · intro other m hm third ht m' hm'
    change m ∈ Function.update b.lines source l other at hm
    change m' ∈ Function.update b.lines source l third at hm'
    rw [Function.update_apply] at hm hm'
    split_ifs at hm with ho
    · split_ifs at hm' with ht'
      · exact absurd (ht'.trans ho.symm) ht
      · exact (hl m hm).2 third ht' m' hm'
    · split_ifs at hm' with ht'
      · exact ((hl m' hm').2 other ho m hm).symm
      · exact h.apart other m hm third ht m' hm'
  · exact h.low
  · exact h.high
  · exact h.pages
  · exact h.separate

theorem Ordered.keepLines (h : b.Ordered) (source : Source) (ha : Ascending l) (hb : l.length ≤ maxRetained)
    (hl : ∀ m ∈ l, ∃ m' ∈ b.lines source, m'.sequence = m.sequence) :
    (b.setLines source l).Ordered := by
  refine h.setLines source ha hb fun m hm => ?_
  obtain ⟨m', hm', hs⟩ := hl m hm
  exact hs ▸ ⟨h.given source m' hm', h.apart source m' hm'⟩

theorem Ordered.raise (h : b.Ordered) : Ordered { b with top := b.top + 1 } where
  ascending := h.ascending
  bounded := h.bounded
  given source m hm := by
    obtain ⟨hf, ht, hk⟩ := h.given source m hm
    exact ⟨hf, ht.trans (Int.le_of_lt (Int.lt_succ _)), hk⟩
  apart := h.apart
  low := h.low
  high := h.high.trans (Int.le_of_lt (Int.lt_succ _))
  pages := h.pages
  separate := h.separate

theorem Ordered.next (h : b.Ordered) (source : Source) :
    Given { b with top := b.top + 1 } source (b.top + 1) ∧
      Apart { b with top := b.top + 1 } source (b.top + 1) := by
  have hlow := h.low
  have hhigh := h.high
  refine ⟨⟨?_, le_rfl, ?_⟩, ?_⟩
  · change b.floor ≤ b.top + 1
    omega
  · intro id k hk hs hlt
    have hb := (h.pages id k hk).below
    omega
  · intro other _ m hm
    have ht := (h.given other m hm).2.1
    change m.sequence ≠ b.top + 1
    omega

theorem Ordered.pushed (h : b.Ordered) (source : Source) (m : Message) :
    Ordered { b.setLines source
        (pushBounded (b.lines source) { m with sequence := b.top + 1 }).1 with
      top := b.top + 1 } := by
  have hs := trimRetained_suffix (b.lines source ++ [{ m with sequence := b.top + 1 }])
  have ha : Ascending (b.lines source ++ [{ m with sequence := b.top + 1 }]) := by
    apply (h.ascending source).append
    intro a ha
    have ht := (h.given source a ha).2.1
    change a.sequence < b.top + 1
    omega
  refine h.raise.setLines source (ha.sublist hs.sublist) (trimRetained_length _) fun a ham => ?_
  rcases List.mem_append.mp (hs.subset ham) with hold | hnew
  · exact ⟨h.raise.given source a hold, h.raise.apart source a hold⟩
  · rw [List.mem_singleton.mp hnew]
    exact h.next source

theorem note_ordered (h : b.Ordered) (id : ConversationId) : (b.note id).Ordered := by
  unfold note
  split
  · exact h
  · exact h.congr rfl rfl rfl rfl

theorem append_ordered (h : b.Ordered) (id : ConversationId) (m : Message) :
    (b.append id m).Ordered :=
  (h.pushed (.conversation id) m).congr rfl rfl rfl rfl

theorem edited_ordered (h : b.Ordered) (id : ConversationId) (x : ℤ) {f : Message → Message}
    (hf : ∀ m, (f m).sequence = m.sequence) :
    (b.setLog id (AppState.edited (b.log id) x f)).Ordered := by
  have ha := h.ascending (.conversation id)
  have hs : ∀ m, (if m.sequence = x then f m else m).sequence = m.sequence := fun m => by
    split_ifs
    · exact hf m
    · rfl
  change (b.setLog id (AppState.edited (b.lines (.conversation id)) x f)).Ordered
  rw [edited_eq ha]
  refine h.keepLines _ ?_ ?_ ?_
  · refine List.pairwise_map.mpr (List.Pairwise.imp ?_ ha)
    intro m m' hlt
    rwa [hs, hs]
  · rw [List.length_map]
    exact h.bounded _
  · intro m hm
    obtain ⟨m', hm', rfl⟩ := List.mem_map.mp hm
    exact ⟨m', hm', (hs m').symm⟩

theorem confirm_ordered (h : b.Ordered) (id : ConversationId) (x : ℤ) {f : Message → Message}
    (hf : ∀ m, (f m).sequence = m.sequence) : (b.confirm id x f).Ordered := by
  unfold confirm
  split
  · exact h
  · exact (edited_ordered h id x hf).congr rfl rfl rfl rfl

theorem release_ordered (h : b.Ordered) (id : ConversationId) :
    Ordered { b with blocks := Function.update b.blocks id none } := by
  have hk : ∀ {id' k}, Function.update b.blocks id none id' = some k → b.blocks id' = some k := by
    intro id' k hk
    rw [Function.update_apply] at hk
    split_ifs at hk
    exact hk
  constructor
  · exact h.ascending
  · exact h.bounded
  · intro source m hm
    obtain ⟨hf, ht, hb⟩ := h.given source m hm
    exact ⟨hf, ht, fun id' k h' => hb id' k (hk h')⟩
  · exact h.apart
  · exact h.low
  · exact h.high
  · intro id' k h'
    exact h.pages id' k (hk h')
  · intro i j k k' hi hj
    exact h.separate i j k k' (hk hi) (hk hj)

theorem openBlock_ordered (h : b.Ordered) (id : ConversationId) (request : ℕ) :
    (b.openBlock id request).Ordered := by
  unfold openBlock
  split_ifs
  · exact h
  have hlow := h.low
  have hcases : ∀ {i k}, Function.update b.blocks id (some (AppState.freshBlock
      (b.floor - historyReserve) request (b.log id))) i = some k →
      (i = id ∧ k.start = b.floor - historyReserve ∧ k.next = k.start ∧
        k.room ≤ historyReserve) ∨ (i ≠ id ∧ b.blocks i = some k) := by
    intro i k hk
    rw [Function.update_apply] at hk
    split_ifs at hk with hi
    · cases hk
      exact .inl ⟨hi, rfl, rfl, min_le_right _ _⟩
    · exact .inr ⟨hi, hk⟩
  constructor
  · exact h.ascending
  · exact h.bounded
  · rintro source m hm
    obtain ⟨hf, ht, hb⟩ := h.given source m hm
    refine ⟨?_, ht, ?_⟩
    · change b.floor - historyReserve ≤ m.sequence
      omega
    · rintro i k hk hs hlt
      rcases hcases hk with ⟨-, hstart, -, -⟩ | ⟨-, hk⟩
      · omega
      · exact hb i k hk hs hlt
  · exact h.apart
  · change b.floor - historyReserve ≤ sequenceOrigin
    omega
  · exact h.high
  · rintro i k hk
    rcases hcases hk with ⟨-, hstart, hnext, hroom⟩ | ⟨-, hk⟩
    · constructor
      · exact hstart.ge
      · omega
      · exact hnext.ge
      · omega
      · exact hroom
    · obtain ⟨hfl, hbl, hbe, hfi, hro⟩ := h.pages i k hk
      refine ⟨?_, hbl, hbe, hfi, hro⟩
      change b.floor - historyReserve ≤ k.start
      omega
  · rintro i j k k' hi hj hne
    rcases hcases hi with ⟨rfl, hs, -, -⟩ | ⟨hi', hi⟩ <;>
      rcases hcases hj with ⟨hj', hs', -, -⟩ | ⟨hj', hj⟩
    · exact absurd hj'.symm hne
    · have := (h.pages j k' hj).above
      left
      omega
    · have := (h.pages i k hi).above
      right
      omega
    · exact h.separate i j k k' hi hj hne

theorem Ordered.vacant (h : b.Ordered) (hk : b.blocks id = some k) (hr : k.next < k.start + k.room)
    (source : Source) : ∀ m ∈ b.lines source, m.sequence ≠ k.next := by
  intro m hm heq
  have hf := h.pages id k hk
  have hroom := hf.room
  have hbegun := hf.begun
  have hb := (h.given source m hm).2.2 id k hk (by omega) (by omega)
  omega

theorem takes_room (hf : k.Fits x) (ht : b.takes id k m = true) : k.next < k.start + k.room := by
  have hb := hf.begun
  simp only [takes, Bool.and_eq_true, decide_eq_true_eq] at ht
  have := ht.1.1
  omega

theorem place_ordered (h : b.Ordered) (hk : b.blocks id = some k)
    (hr : k.next < k.start + k.room) (m : Message) (attention : Bool) :
    (b.place id k m attention).Ordered := by
  have hf := h.pages id k hk
  have hroom := hf.room
  have hlow := h.low
  have hhigh := h.high
  -- the block goes on by one
  have hcases : ∀ {i k'}, Function.update b.blocks id (some
      { k with next := k.next + 1, nearTop := (k.nearTop.admitMessage m).1 }) i = some k' →
      (i = id ∧ k'.start = k.start ∧ k'.next = k.next + 1 ∧ k'.room = k.room) ∨
        (i ≠ id ∧ b.blocks i = some k') := by
    intro i k' hk'
    rw [Function.update_apply] at hk'
    split_ifs at hk' with hi
    · cases hk'
      exact .inl ⟨hi, rfl, rfl, rfl⟩
    · exact .inr ⟨hi, hk'⟩
  have hnext : Ordered { b with blocks := Function.update b.blocks id (some
      { k with next := k.next + 1, nearTop := (k.nearTop.admitMessage m).1 }) } := by
    constructor
    · exact h.ascending
    · exact h.bounded
    · rintro source a ha
      obtain ⟨hfl, ht, hb⟩ := h.given source a ha
      refine ⟨hfl, ht, ?_⟩
      rintro i k' hk' hs hlt
      rcases hcases hk' with ⟨rfl, hstart, hn, -⟩ | ⟨-, hk'⟩
      · obtain ⟨rfl, hlt'⟩ := hb i k hk (by omega) (by omega)
        exact ⟨rfl, by omega⟩
      · exact hb i k' hk' hs hlt
    · exact h.apart
    · exact h.low
    · exact h.high
    · rintro i k' hk'
      rcases hcases hk' with ⟨rfl, hstart, hn, hro⟩ | ⟨-, hk'⟩
      · obtain ⟨hfl, hbl, hbe, hfi, -⟩ := hf
        refine ⟨?_, ?_, ?_, ?_, ?_⟩
        · change b.floor ≤ k'.start
          omega
        all_goals omega
      · exact h.pages i k' hk'
    · rintro i j k₁ k₂ hi hj hne
      rcases hcases hi with ⟨rfl, hs, -, -⟩ | ⟨hi', hi⟩ <;>
        rcases hcases hj with ⟨hj', hs', -, -⟩ | ⟨hj', hj⟩
      · exact absurd hj'.symm hne
      · rw [hs]
        exact h.separate i j k k₂ hk hj hne
      · rw [hs']
        exact h.separate i id k₁ k hi hk hi'
      · exact h.separate i j k₁ k₂ hi hj hne
  have hplaced : Ascending ((b.log id).insertIdx (Search.partitionPoint
      (fun a => a.sequence < k.next) (b.log id)) { m with sequence := k.next }) :=
    (h.ascending (.conversation id)).place (m := { m with sequence := k.next })
      (h.vacant hk hr (.conversation id))
  have hs := trimRetained_suffix ((b.log id).insertIdx (Search.partitionPoint
    (fun a => a.sequence < k.next) (b.log id)) { m with sequence := k.next })
  refine (hnext.setLines (.conversation id) (hplaced.sublist hs.sublist)
    (trimRetained_length _) fun a ha => ?_).congr rfl rfl rfl rfl
  rcases (mem_place (m := { m with sequence := k.next })).mp (hs.subset ha) with rfl | ha
  · refine ⟨⟨?_, ?_, ?_⟩, ?_⟩
    · have := hf.above
      have := hf.begun
      change b.floor ≤ k.next
      omega
    · have := hf.below
      change k.next ≤ b.top
      omega
    · rintro i k' hk' hs' hlt
      change k'.start ≤ k.next at hs'
      change k.next < k'.start + historyReserve at hlt
      rcases hcases hk' with ⟨rfl, hstart, hn, -⟩ | ⟨hi, hk'⟩
      · refine ⟨rfl, ?_⟩
        change k.next < k'.next
        omega
      · have := hf.begun
        rcases h.separate i id k' k hk' hk hi with hsep | hsep <;> omega
    · intro other _
      exact h.vacant hk hr other
  · exact ⟨hnext.given _ a ha, hnext.apart _ a ha⟩

theorem push_ordered (h : b.Ordered) (id : ConversationId) (request : ℕ) (line : TimelineLine) :
    (b.push id request line).Ordered := by
  have ho := openBlock_ordered h id request
  unfold push
  generalize b.openBlock id request = b at ho
  dsimp only
  split
  · exact ho
  · rename_i k hk
    split_ifs with ht
    · exact place_ordered ho hk (takes_room (ho.pages id k hk) ht) _ _
    · exact ho

end Shelf

theorem Ascending.length_le {l : List Message} (h : Ascending l) {x y : ℤ}
    (hl : ∀ m ∈ l, x ≤ m.sequence ∧ m.sequence < y) : l.length ≤ (y - x).toNat := by
  have hn : (l.map (·.sequence)).Nodup := by
    refine List.pairwise_map.mpr (List.Pairwise.imp ?_ h)
    intro a b hlt
    exact hlt.ne
  have hs : (l.map (·.sequence)).toFinset ⊆ Finset.Ico x y := by
    intro z hz
    obtain ⟨m, hm, rfl⟩ := List.mem_map.mp (List.mem_toFinset.mp hz)
    exact Finset.mem_Ico.mpr (hl m hm)
  have hc := Finset.card_le_card hs
  rwa [List.toFinset_card_of_nodup hn, List.length_map, Int.card_Ico] at hc

theorem settled_ascending {l : List Message} (h : Ascending l) {first : ℤ} {room n : ℕ}
    (hn : n ≤ room) (block : List Message) (hlen : block.length = n)
    (hb : ∀ i (hi : i < block.length), (block[i]).sequence = first + i) :
    Ascending ((l.filter fun m => m.sequence < first) ++ block ++
      l.filter fun m => !decide (m.sequence < first + room)) := by
  have hbm : ∀ m ∈ block, first ≤ m.sequence ∧ m.sequence < first + room := by
    intro m hm
    obtain ⟨i, hi, rfl⟩ := List.mem_iff_getElem.mp hm
    rw [hb i hi]
    omega
  have hba : Ascending block := by
    refine List.pairwise_iff_getElem.mpr fun i j hi hj hij => ?_
    rw [hb i hi, hb j hj]
    omega
  refine List.pairwise_append.mpr ⟨List.pairwise_append.mpr ⟨h.sublist List.filter_sublist, hba, ?_⟩,
    h.sublist List.filter_sublist, ?_⟩
  · rintro a ha m hm
    have hlt : a.sequence < first := by simpa using (List.mem_filter.mp ha).2
    exact hlt.trans_le (hbm m hm).1
  · rintro a ha c hc
    have hge : first + room ≤ c.sequence := by simpa using (List.mem_filter.mp hc).2
    rcases List.mem_append.mp ha with ha | ha
    · have hlt : a.sequence < first := by simpa using (List.mem_filter.mp ha).2
      omega
    · exact (hbm a ha).2.trans_le hge

namespace Shelf

variable {b : Shelf} {id : ConversationId} {k : HistoryBlock} {x : ℤ}

theorem Ordered.arrived_mem (h : b.Ordered) (hk : b.blocks id = some k) {m : Message}
    (hm : m ∈ AppState.arrived (b.log id) k.start (k.start + historyReserve)) :
    m ∈ b.lines (.conversation id) ∧ k.start ≤ m.sequence ∧ m.sequence < k.next := by
  have hr : k.start ≤ k.start + historyReserve := by
    have := (Nat.cast_nonneg historyReserve : (0 : ℤ) ≤ historyReserve)
    omega
  change m ∈ AppState.arrived (b.lines (.conversation id)) _ _ at hm
  rw [arrived_eq (h.ascending _) hr] at hm
  obtain ⟨hm, hb⟩ := List.mem_filter.mp hm
  simp only [Bool.and_eq_true, decide_eq_true_eq] at hb
  exact ⟨hm, hb.1, ((h.given _ m hm).2.2 id k hk hb.1 hb.2).2⟩

theorem Ordered.arrived_ascending (h : b.Ordered) (id : ConversationId) (first : ℤ) :
    Ascending (AppState.arrived (b.log id) first (first + historyReserve)) := by
  have hr : first ≤ first + historyReserve := by
    have := (Nat.cast_nonneg historyReserve : (0 : ℤ) ≤ historyReserve)
    omega
  have ha := h.ascending (.conversation id)
  change Ascending (AppState.arrived (b.lines (.conversation id)) _ _)
  rw [arrived_eq ha hr]
  exact ha.sublist List.filter_sublist

theorem Ordered.arrived_length (h : b.Ordered) (hk : b.blocks id = some k) :
    (AppState.arrived (b.log id) k.start (k.start + historyReserve)).length ≤
      (k.next - k.start).toNat :=
  (h.arrived_ascending id k.start).length_le fun _ hm => (h.arrived_mem hk hm).2

def settledLines (b : Shelf) (id : ConversationId) (k : HistoryBlock) : List Message :=
  let messages := b.log id
  let stop := k.start + historyReserve
  messages.take (Search.partitionPoint (fun m => m.sequence < k.start) messages) ++
    AppState.settled k.start historyReserve none (AppState.arrived messages k.start stop) ++
    messages.drop (Search.partitionPoint (fun m => m.sequence < stop) messages)

theorem Ordered.settledLines_eq (h : b.Ordered) (hk : b.blocks id = some k) :
    b.settledLines id k =
      ((b.log id).filter fun m => m.sequence < k.start) ++
        (inTimeOrder (AppState.arrived (b.log id) k.start (k.start + historyReserve))).mapIdx
          (fun offset m => { m with sequence := k.start + offset }) ++
        (b.log id).filter fun m => !decide (m.sequence < k.start + historyReserve) := by
  have hf := h.pages id k hk
  have ha : Ascending (b.log id) := h.ascending (.conversation id)
  have hl := h.arrived_length hk
  have hfill := hf.filled
  have hroom := hf.room
  unfold settledLines
  dsimp only
  rw [Search.take_partitionPoint (ha.below _), Search.drop_partitionPoint (ha.below _),
    settled_eq (by omega)]

theorem settle_eq (h : b.blocks id = some k) (request : ℕ) (hr : k.request = request) :
    b.settle id request =
      { Shelf.setLines { b with blocks := Function.update b.blocks id none } (.conversation id)
          (b.settledLines id k) with
        attention := AppState.carried b.attention id k.start (k.start + historyReserve) none
          (AppState.arrived (b.log id) k.start (k.start + historyReserve)) } := by
  unfold settle
  rw [h]
  exact if_pos hr

theorem settle_ordered (h : b.Ordered) (id : ConversationId) (request : ℕ) :
    (b.settle id request).Ordered := by
  have hrel := release_ordered h id
  cases hk : b.blocks id with
  | none =>
    unfold settle
    rw [hk]
    exact hrel
  | some k =>
    by_cases hr : k.request = request
    swap
    · unfold settle
      rw [hk]
      dsimp only
      rw [if_neg hr]
      exact hrel
    rw [settle_eq hk request hr]
    refine Ordered.congr (b := Shelf.setLines
      { b with blocks := Function.update b.blocks id none } _ _) ?_ rfl rfl rfl rfl
    have hf := h.pages id k hk
    have hl := h.arrived_length hk
    have hfill := hf.filled
    have hroom := hf.room
    have ha : Ascending (b.log id) := h.ascending (.conversation id)
    have hlen := (inTimeOrder_perm (AppState.arrived (b.log id) k.start
      (k.start + historyReserve))).length_eq
    have hperm : (b.settledLines id k).length = (b.log id).length := by
      have hs := congrArg List.length (ha.split_eq (x := k.start)
        (y := k.start + historyReserve) (by omega))
      simp only [List.length_append] at hs
      rw [h.settledLines_eq hk]
      simp only [List.length_append, List.length_mapIdx]
      omega
    refine hrel.setLines _ ?_ ?_ ?_
    · rw [h.settledLines_eq hk]
      refine settled_ascending ha (n := _) ?_ _ rfl ?_
      · rw [List.length_mapIdx]
        omega
      · intro i hi
        rw [List.getElem_mapIdx]
    · rw [hperm]
      exact h.bounded (.conversation id)
    · intro m hm
      rw [h.settledLines_eq hk, List.append_assoc, List.mem_append, List.mem_append] at hm
      rcases hm with hm | hm | hm
      · have hm := (List.mem_filter.mp hm).1
        exact ⟨hrel.given _ m hm, hrel.apart _ m hm⟩
      · obtain ⟨i, hi, rfl⟩ := List.mem_iff_getElem.mp hm
        rw [List.getElem_mapIdx]
        rw [List.length_mapIdx] at hi
        have := hf.above
        have := hf.below
        have := h.high
        refine ⟨⟨?_, ?_, ?_⟩, ?_⟩
        · change b.floor ≤ k.start + (i : ℤ)
          omega
        · change k.start + (i : ℤ) ≤ b.top
          omega
        · intro j k' hk' hs hlt
          change k'.start ≤ k.start + (i : ℤ) at hs
          change k.start + (i : ℤ) < _ at hlt
          change Function.update b.blocks id none j = some k' at hk'
          rw [Function.update_apply] at hk'
          split_ifs at hk' with hj
          rcases h.separate j id k' k hk' hk hj with hsep | hsep <;> omega
        · intro other ho m hm heq
          change m.sequence = k.start + (i : ℤ) at heq
          have := (h.given other m hm).2.2 id k hk (by omega) (by omega)
          exact ho this.1
      · have hm := (List.mem_filter.mp hm).1
        exact ⟨hrel.given _ m hm, hrel.apart _ m hm⟩

theorem forget_ordered (h : b.Ordered) (id : ConversationId) : (b.forget id).Ordered := by
  refine ((release_ordered h id).keepLines (.conversation id) .nil ?_ ?_).congr
    rfl rfl rfl rfl
  · exact Nat.zero_le _
  · intro m hm
    cases hm

theorem step_ordered (h : b.Ordered) (e : LogEvent) : (b.step e).Ordered := by
  cases e with
  | append id m attention =>
    dsimp only [step]
    split_ifs
    · exact note_ordered (append_ordered h id m) id
    · exact append_ordered h id m
    · exact h
  | appendServer id m => exact h.pushed (.server id) m
  | note id => exact note_ordered h id
  | visit => exact h.congr rfl rfl rfl rfl
  | confirm id x text kind info => exact confirm_ordered h id x fun _ => rfl
  | fail id x => exact edited_ordered h id x fun _ => rfl
  | push id request line => exact push_ordered h id request line
  | settle id request => exact settle_ordered h id request
  | forget id => exact forget_ordered h id
  | clear id => exact h.keepLines _ .nil (Nat.zero_le _) fun m hm => by cases hm

end Shelf

end CayenChat.App
