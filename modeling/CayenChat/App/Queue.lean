import CayenChat.App.Attention
import CayenChat.App.Session

/-! # The order of notified lines

The entries of a conversation are in the order of its log, and a history line
that is noted takes the place of a live one only where it is gone again itself.
-/

namespace CayenChat.App

namespace Attention

variable {attention rest : Attention} {log : ConversationId → List Message} {id : ConversationId}
  {x : ℤ} {a : ConversationId × ℤ}

def Sorted (attention : Attention) : Prop :=
  attention.Pairwise fun a b => a.1 = b.1 → a.2 < b.2

theorem Sorted.sublist (h : attention.Sorted) (hs : rest.Sublist attention) : rest.Sorted :=
  List.Pairwise.sublist hs h

theorem Sorted.nodup (h : attention.Sorted) : attention.Nodup := by
  refine h.imp fun {a b} hab heq => ?_
  subst heq
  exact lt_irrefl _ (hab rfl)

theorem withRoom_sublist (h : attention.withRoom log id x = some rest) :
    rest.Sublist attention := by
  unfold withRoom at h
  split at h
  · split at h
    · cases h
      exact List.eraseIdx_sublist ..
    · split at h
      · cases h
      · cases h
        exact List.tail_sublist _
  · cases h
    exact .refl _

theorem length_withRoom (h : attention.withRoom log id x = some rest)
    (hl : attention.length ≤ maxAttention) : rest.length < maxAttention := by
  have hmax : 0 < maxAttention := by decide
  unfold withRoom at h
  split at h
  · split at h
    · rename_i victim hv
      cases h
      have hlt := (List.findIdx?_eq_some_iff_getElem.mp hv).1
      rw [List.length_eraseIdx_of_lt hlt]
      omega
    · split at h
      · cases h
      · cases h
        rw [List.length_tail]
        omega
  · cases h
    omega

theorem length_note (hl : attention.length ≤ maxAttention) :
    (attention.note log id x).length ≤ maxAttention := by
  unfold note
  split
  · exact hl
  split
  · exact hl
  · rename_i rest hrest
    have := length_withRoom hrest hl
    rw [List.length_insertIdx_of_le_length List.findIdx_le_length]
    omega

theorem Sorted.insert (hs : rest.Sorted) (hnew : (id, x) ∉ rest) {p : ConversationId × ℤ → Bool}
    (hp : ∀ b, p b = true ↔ b.1 = id ∧ x < b.2) :
    Sorted (rest.insertIdx (rest.findIdx p) (id, x)) := by
  refine Arrange.pairwise_insertIdx hs List.findIdx_le_length ?_ ?_
  · intro b hb hid
    obtain ⟨i, hi, rfl⟩ := List.mem_iff_getElem.mp hb
    rw [List.length_take] at hi
    rw [List.getElem_take] at hid ⊢
    have hnot := List.not_of_lt_findIdx (lt_min_iff.mp hi).1
    rw [← Bool.not_eq_true, hp, not_and, not_lt] at hnot
    refine lt_of_le_of_ne (hnot hid) fun heq => hnew ?_
    rw [show (id, x) = rest[i] from Prod.ext hid.symm heq.symm]
    exact List.getElem_mem _
  · intro b hb hid
    obtain ⟨i, hi, rfl⟩ := List.mem_iff_getElem.mp hb
    rw [List.length_drop] at hi
    rw [List.getElem_drop] at hid ⊢
    have hlt : rest.findIdx p < rest.length := by omega
    have hat := (hp _).mp (List.findIdx_getElem (w := hlt))
    rcases Nat.eq_zero_or_pos i with rfl | hpos
    · exact hat.2
    · have hlater := List.pairwise_iff_getElem.mp hs (rest.findIdx p) (rest.findIdx p + i) hlt
        (by omega) (by omega)
      exact hat.2.trans (hlater (hat.1.trans hid))

theorem Sorted.note (h : attention.Sorted) (log : ConversationId → List Message)
    (id : ConversationId) (x : ℤ) : (attention.note log id x).Sorted := by
  unfold Attention.note
  split
  · exact h
  rename_i hnew
  split
  · exact h
  rename_i rest hrest
  have hsub := withRoom_sublist hrest
  refine (h.sublist hsub).insert (fun hmem => hnew (hsub.subset hmem)) fun b => ?_
  rw [Bool.and_eq_true, decide_eq_true_eq, decide_eq_true_eq]

/-- An entry whose line is not history stays where a history line is noted, or another entry gives
way. -/
theorem mem_note_of_live (ha : a ∈ attention) (hlive : historyIn (log a.1) a.2 = false)
    (h : historyIn (log id) x = true ∨ attention.length < maxAttention ∨
      (∃ b ∈ attention, historyIn (log b.1) b.2 = true) ∨ attention.head? ≠ some a) :
    a ∈ attention.note log id x := by
  unfold note
  split
  · exact ha
  split
  · exact ha
  rename_i rest hrest
  refine (List.mem_insertIdx List.findIdx_le_length).mpr (Or.inr ?_)
  unfold withRoom at hrest
  split at hrest
  swap
  · cases hrest
    exact ha
  rename_i hfull
  split at hrest
  · rename_i victim hv
    cases hrest
    obtain ⟨hlt, hhist, -⟩ := List.findIdx?_eq_some_iff_getElem.mp hv
    refine List.mem_eraseIdx_iff_getElem.mpr ?_
    obtain ⟨i, hi, rfl⟩ := List.mem_iff_getElem.mp ha
    refine ⟨i, hi, fun heq => ?_, rfl⟩
    subst heq
    have hhist : historyIn (log attention[i].1) attention[i].2 = true := hhist
    rw [hlive] at hhist
    cases hhist
  · rename_i hnone
    split at hrest
    · cases hrest
    · rename_i hno
      cases hrest
      rcases h with h | h | ⟨b, hb, hb'⟩ | h
      · exact absurd h hno
      · omega
      · have hno : historyIn (log b.1) b.2 = false := List.findIdx?_eq_none_iff.mp hnone b hb
        rw [hb'] at hno
        cases hno
      · cases hatt : attention with
        | nil =>
          rw [hatt] at ha
          cases ha
        | cons c rest =>
          rw [hatt] at ha h
          exact (List.mem_cons.mp ha).resolve_left fun heq => h (heq ▸ rfl)

theorem mem_prune_of_le {l : List Message} (ha : a ∈ attention)
    (hl : a.1 = id → (l.head?.map Message.sequence).all (· ≤ a.2) = true) :
    a ∈ attention.prune id l := by
  refine List.mem_filter.mpr ⟨ha, ?_⟩
  rw [Bool.or_eq_true, decide_eq_true_eq]
  by_cases hid : a.1 = id
  · exact Or.inr (hl hid)
  · exact Or.inl hid

end Attention

namespace Shelf

variable {b b' : Shelf} {id : ConversationId} {k : HistoryBlock} {e : LogEvent}
  {a : ConversationId × ℤ} {m : Message}

/-- The queue is in order and within its bound. -/
structure Queued (b : Shelf) : Prop where
  sorted : b.attention.Sorted
  bounded : b.attention.length ≤ maxAttention

theorem Queued.sublist (h : b.Queued) (hs : b'.attention.Sublist b.attention) : b'.Queued :=
  ⟨h.sorted.sublist hs, hs.length_le.trans h.bounded⟩

theorem Queued.note (h : b.Queued) (id : ConversationId) : (b.note id).Queued := by
  unfold Shelf.note
  split
  · exact h
  · exact ⟨h.sorted.note b.log id _, Attention.length_note h.bounded⟩

theorem prune_sublist {attention : Attention} (id : ConversationId) (l : List Message)
    (c : Bool) : (if c then attention.prune id l else attention).Sublist attention := by
  split
  · exact List.filter_sublist
  · exact .refl _

theorem Queued.place (h : b.Queued) (id : ConversationId) (k : HistoryBlock) (m : Message)
    (attention : Bool) : (b.place id k m attention).Queued := by
  set r := AppState.placed (b.log id) { m with sequence := k.next }
  set b₁ : Shelf := { b.setLog id r.1 with blocks := Function.update b.blocks id (some { k with
    next := k.next + 1, nearTop := (k.nearTop.admitMessage m).1 }) }
  have hnoted : ({ b with
      attention := if attention then b.attention.note b₁.log id k.next else b.attention } :
      Shelf).Queued := by
    split
    · exact ⟨h.sorted.note b₁.log id k.next, Attention.length_note h.bounded⟩
    · exact h
  exact hnoted.sublist (prune_sublist id r.1 r.2)

theorem queued_plain (h : b.Queued) (hp : e.plain = true) : (b.step e).Queued := by
  cases e with
  | append id m attention =>
    have happ : (b.append id m).Queued := h.sublist (prune_sublist id _ _)
    dsimp only [step]
    split
    · split
      · exact happ.note id
      · exact happ
    · exact h
  | appendServer id m => exact ⟨h.sorted, h.bounded⟩
  | note id => exact h.note id
  | visit => exact h.sublist ((List.tail_sublist _).trans (List.dropWhile_sublist _))
  | push id request line =>
    have ho : (b.openBlock id request).Queued := by
      unfold openBlock
      split
      · exact h
      · exact ⟨h.sorted, h.bounded⟩
    dsimp only [step]
    unfold push
    dsimp only
    split
    · exact ho
    · split
      · exact ho.place id _ _ _
      · exact ho
  | forget id => exact h.sublist List.filter_sublist
  | clear id => exact ⟨h.sorted, h.bounded⟩
  | confirm id x text kind info => cases hp
  | fail id x => cases hp
  | settle id request => cases hp

theorem queued_run {es : List LogEvent} (h : b.Queued) (hp : ∀ e ∈ es, e.plain = true) :
    (es.foldl step b).Queued := by
  induction es generalizing b with
  | nil => exact h
  | cons e es ih =>
    obtain ⟨hpe, hp⟩ := List.forall_mem_cons.mp hp
    exact ih (queued_plain h hpe) hp

section Settling

def KeepsOrder (b : Shelf) (id : ConversationId) (k : HistoryBlock) : Prop :=
  ∀ p ∈ b.moves id k, ∀ q ∈ b.moves id k, (id, p.1) ∈ b.attention → (id, q.1) ∈ b.attention →
    p.1 < q.1 → p.2 < q.2

theorem carry_moves (h : b.Ordered) (hk : b.blocks id = some k) (hc : b.Carries id k)
    (ha : a ∈ b.attention) (hm : m ∈ b.log a.1) (hs : m.sequence = a.2) :
    ∃ y, b.carry id k a = some (a.1, y) ∧
      (a.1 = id ∧ k.start ≤ a.2 ∧ a.2 < k.start + historyReserve → (a.2, y) ∈ b.moves id k ∧
        k.start ≤ y ∧ y < k.start + historyReserve) ∧
      (¬ (a.1 = id ∧ k.start ≤ a.2 ∧ a.2 < k.start + historyReserve) → y = a.2) := by
  obtain ⟨j, x⟩ := a
  dsimp only at ha hm hs ⊢
  subst hs
  by_cases hin : j = id ∧ k.start ≤ m.sequence ∧ m.sequence < k.start + historyReserve
  swap
  · refine ⟨m.sequence, ?_, fun h => absurd h hin, fun _ => rfl⟩
    unfold carry carriedTo
    dsimp only
    split
    · apply if_pos
      simp only [Bool.or_eq_true, Bool.not_eq_true', Bool.and_eq_false_iff, decide_eq_true_eq,
        decide_eq_false_iff_not]
      by_cases hj : j = id
      · exact Or.inr (not_and_or.mp fun hand => hin ⟨hj, hand⟩)
      · exact Or.inl hj
    · rfl
  obtain ⟨rfl, hlo, hhi⟩ := hin
  have harr := (arrived_mem_iff h j k.start).mpr ⟨hm, hlo, hhi⟩
  have hlen := h.arrived_length hk
  have hfill := (h.pages j k hk).filled
  have hroom := (h.pages j k hk).room
  obtain ⟨i, hi, hmoved⟩ := movedTo_eq k.start historyReserve
    (h.arrived_ascending j k.start) (by omega) harr
  obtain ⟨-, hp⟩ := mem_settledLines_of_moved h hk hi
  have hlt : i < (AppState.arrived (b.log j) k.start (k.start + historyReserve)).length := by
    have := (List.getElem?_eq_some_iff.mp hi).1
    rwa [(inTimeOrder_perm _).length_eq] at this
  refine ⟨k.start + i, ?_, fun _ => ⟨hp, by omega, by omega⟩, fun hno => absurd ⟨rfl, hlo, hhi⟩ hno⟩
  unfold carry carriedTo
  dsimp only
  split
  · have hout : ¬((decide (j ≠ j) || !(decide (k.start ≤ m.sequence) &&
        decide (m.sequence < k.start + historyReserve))) = true) := by
      simp [hlo, hhi]
    rw [if_neg hout, show (k.start + historyReserve - k.start).toNat = historyReserve by omega,
      hmoved]
  · rename_i hno
    have heq : m.sequence = k.start + i := hc.resolve_left hno _ hp ha
    rw [heq]

theorem queued_settle (h : b.Ordered) (hq : b.Queued) (ha : b.AttentionHeld) {request : ℕ}
    (hc : ∀ k, b.blocks id = some k → k.request = request → b.Carries id k ∧ b.KeepsOrder id k) :
    (b.settle id request).Queued := by
  cases hk : b.blocks id with
  | none =>
    unfold settle
    rw [hk]
    exact ⟨hq.sorted, hq.bounded⟩
  | some k =>
    by_cases hr : k.request = request
    swap
    · unfold settle
      rw [hk]
      dsimp only
      rw [if_neg hr]
      exact ⟨hq.sorted, hq.bounded⟩
    obtain ⟨hcarries, hkeeps⟩ := hc k hk hr
    rw [settle_eq hk request hr, carried_eq]
    refine ⟨?_, (List.length_filterMap_le _ _).trans hq.bounded⟩
    refine List.pairwise_filterMap.mpr (hq.sorted.imp_of_mem fun {a c} hal hcl hac => ?_)
    intro a' ha' c' hc' heq
    obtain ⟨m, hm, hs⟩ := ha a hal
    obtain ⟨n, hn, hsn⟩ := ha c hcl
    obtain ⟨y, hy, hyin, hyout⟩ := carry_moves h hk hcarries hal hm hs
    obtain ⟨z, hz, hzin, hzout⟩ := carry_moves h hk hcarries hcl hn hsn
    cases Option.some.inj (ha'.symm.trans hy)
    cases Option.some.inj (hc'.symm.trans hz)
    dsimp only at heq ⊢
    have hlt := hac heq
    by_cases hia : a.1 = id ∧ k.start ≤ a.2 ∧ a.2 < k.start + historyReserve
    · obtain ⟨hp, hlo, hhi⟩ := hyin hia
      by_cases hic : c.1 = id ∧ k.start ≤ c.2 ∧ c.2 < k.start + historyReserve
      · obtain ⟨hp', -, -⟩ := hzin hic
        exact hkeeps _ hp _ hp' (hia.1 ▸ hal) (hic.1 ▸ hcl) hlt
      · rw [hzout hic]
        have : k.start + historyReserve ≤ c.2 := by
          by_contra hno
          exact hic ⟨heq ▸ hia.1, by omega, by omega⟩
        omega
    · rw [hyout hia]
      by_cases hic : c.1 = id ∧ k.start ≤ c.2 ∧ c.2 < k.start + historyReserve
      · obtain ⟨-, hlo, -⟩ := hzin hic
        have : a.2 < k.start := by
          by_contra hno
          exact hia ⟨heq.trans hic.1, by omega, by omega⟩
        omega
      · rwa [hzout hic]

end Settling

end Shelf

end CayenChat.App
