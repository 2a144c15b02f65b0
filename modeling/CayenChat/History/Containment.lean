import CayenChat.History.Lines
import CayenChat.Replay.Tracker

/-! # Replies do not leak into live traffic

The batches opened inside a reply are open until they are closed or the reply
is. A line in one of them is consumed as long as none of them was dropped:
by a timeout that forgets an overflow, by a full table of swallowed batches, by
a withdrawal in the middle of a reply, or because its reference is not followed.
-/

namespace CayenChat

namespace HistoryRequests

/-- Whether a batch answers the request that waits for its reply, or one that was given up. -/
def answersRequest (h : HistoryRequests) (m : IrcMessage) : Bool :=
  match m.command with
  | .batch _ kind params =>
    if kind.map BatchSubCommand.toStr = some targetsBatch then
      h.outstanding.any fun o => o.reference.isNone && o.page.isTargets
    else
      kind.map BatchSubCommand.toStr == some "CHATHISTORY" &&
        (params.bind List.head?).any fun target =>
          (h.outstanding.any fun o => o.reference.isNone && h.names o.channel target) ||
            h.abandoned.any (h.names · target)
  | _ => false

/-- Whether a line outside of the replies opens one: the answer to a request, or any answer about
targets. -/
def opensReply (h : HistoryRequests) (m : IrcMessage) : Bool :=
  match m.command with
  | .batch _ kind _ =>
    (openedBatch m).any (fun reference =>
      Tags.followedBatch reference && (h.observeNested reference m.batchTag).isNone) &&
      !h.hangsOffUntracked m &&
      (kind.map BatchSubCommand.toStr == some targetsBatch || h.answersRequest m)
  | _ => false

def wellFramed (h : HistoryRequests) (m : IrcMessage) : Bool :=
  !isBatchLine m || h.hangsOffUntracked m || (openedBatch m).any Tags.followedBatch ||
    (closedBatch m).any h.tracks

def hasRoom (h : HistoryRequests) (m : IrcMessage) : Bool :=
  (openedBatch m).isNone || !m.batchTag.any h.discarding.contains ||
    decide (h.discarding.length < maxNested + 1)

end HistoryRequests

/-- The requests of a connection, the tracker its other lines go to, and the open batches of
replies: each with the batch of the reply it was opened in. -/
structure Replies where
  history : HistoryRequests
  replay : ReplayTracker := {}
  batches : List (String × String) := []

namespace Replies

open HistoryRequests

def start (resume : List HistoryResume) (wire : Option Encoding) : Replies :=
  { history := withResume resume wire }

/-- The open batches after a line. -/
def batchesAfter (w : Replies) (m : IrcMessage) : List (String × String) :=
  match closedBatch m, openedBatch m with
  | some reference, _ => w.batches.filter fun x => x.1 != reference && x.2 != reference
  | none, some reference =>
    w.batches ++ (if w.history.opensReply m then [(reference, reference)] else []) ++
      (w.batches.filter fun x => m.batchTag == some x.2).map fun x => (x.1, reference)
  | none, none => w.batches

/-- A call; what history leaves unrelated goes to the tracker. A withdrawal comes with the flag
whether batches were withdrawn too. -/
def next (w : Replies) : HistoryCall × Bool → Replies
  | (.observe m, _) =>
    { history := (w.history.observe m).1
      replay := if (w.history.observe m).2 = .unrelated then w.replay.observe m else w.replay
      batches := w.batchesAfter m }
  | (.reset, batch) =>
    { w with history := w.history.reset.1, replay := if batch then w.replay.reset else w.replay }
  | (c, _) => { w with history := w.history.next c }

def inReply (w : Replies) (m : IrcMessage) : Bool := w.batches.any fun x => m.batchTag == some x.2

/-- A line in an open batch of a reply is not both unrelated and live. -/
def Contained (w : Replies) : HistoryCall × Bool → Prop
  | (.observe m, _) => w.inReply m = true →
      (w.history.observe m).2 ≠ .unrelated ∨ w.replay.inHistoryBatch m = true
  | _ => True

/-- What keeps the batches of replies tracked: a batch line in one of them is well framed, with room
for a batch opened inside a swallowed reply, an answer about targets finds its request, a reply
that times out did not overflow, and a withdrawal does not come in the middle of a reply. -/
def Orderly (w : Replies) : HistoryCall × Bool → Prop
  | (.observe m, _) =>
    (w.inReply m = true → w.history.wellFramed m = true ∧ w.history.hasRoom m = true) ∧
      (w.history.opensReply m = true → w.history.answersRequest m = true)
  | (.tick now, _) => (w.history.outstanding.any fun o =>
      decide (o.sent + responseTimeout ≤ now) && o.reference.isSome && o.nestedOverflowed) = false
  | (.reset, _) => w.batches = []
  | _ => True

instance (w : Replies) : (i : HistoryCall × Bool) → Decidable (w.Contained i)
  | (.observe _, _) => inferInstanceAs (Decidable (_ = true → _ ∨ _))
  | (.setCasemapping _, _) | (.isupport _, _) | (.enqueue _, _) | (.enqueueTargets .., _)
  | (.enqueueOlder .., _) | (.forget _, _) | (.nextRequest _, _) | (.tick _, _)
  | (.reset, _) => isTrue trivial

instance (w : Replies) : (i : HistoryCall × Bool) → Decidable (w.Orderly i)
  | (.observe _, _) => inferInstanceAs (Decidable ((_ = true → _ ∧ _) ∧ (_ = true → _)))
  | (.tick _, _) => inferInstanceAs (Decidable (_ = false))
  | (.reset, _) => inferInstanceAs (Decidable (_ = []))
  | (.setCasemapping _, _) | (.isupport _, _) | (.enqueue _, _) | (.enqueueTargets .., _)
  | (.enqueueOlder .., _) | (.forget _, _) | (.nextRequest _, _) => isTrue trivial

end Replies

namespace HistoryRequests

variable {h h₁ h₂ : HistoryRequests} {m : IrcMessage} {o : Outstanding} {x : String × String}

def Covers (h : HistoryRequests) (x : String × String) : Prop :=
  x.2 ∈ h.discarding ∨ ∃ o, h.outstanding = some o ∧ o.reference = some x.1 ∧
    (o.holds x.2 = true ∨ o.nestedOverflowed = true)

namespace Covers

theorem of_same (hs : SameTables h h₁) (hx : h.Covers x) : h₁.Covers x := by
  unfold Covers
  rwa [hs.discarding, hs.outstanding]

theorem mono (hd : ∀ r ∈ h.discarding, r ∈ h₁.discarding)
    (ho : ∀ o, h.outstanding = some o → o.reference.isSome → ∃ o', h₁.outstanding = some o' ∧
      o'.reference = o.reference ∧ (∀ r, o.holds r = true → o'.holds r = true) ∧
      (o.nestedOverflowed = true → o'.nestedOverflowed = true))
    (hx : h.Covers x) : h₁.Covers x := by
  rcases hx with hx | ⟨o, ho₀, hr, hx⟩
  · exact Or.inl (hd _ hx)
  · obtain ⟨o', ho', hr', hh, hn⟩ := ho o ho₀ (by rw [hr]; rfl)
    exact Or.inr ⟨o', ho', hr'.trans hr, hx.imp (hh _) hn⟩

theorem nextRequest (now : Instant) (hx : h.Covers x) : (h.nextRequest now).1.Covers x := by
  unfold HistoryRequests.nextRequest
  split
  · rename_i q queue ho hq
    rcases hx with hx | ⟨o, ho', _⟩
    · exact Or.inl hx
    · rw [ho] at ho'; cases ho'
  · exact hx

theorem tick {now : Instant} (hx : h.Covers x)
    (hn : ∀ o ∈ h.outstanding, o.sent + responseTimeout ≤ now → o.reference.isSome →
      o.nestedOverflowed = false) : (h.tick now).1.Covers x := by
  unfold HistoryRequests.tick
  cases ho : h.outstanding with
  | none => exact hx
  | some o =>
    dsimp only
    split_ifs with ht
    · exact hx
    · refine of_same (SameTables.fallBack _ _) ?_
      unfold giveUp
      rcases hx with hx | ⟨o', ho', hr, hx⟩
      · split
        · exact Or.inl (List.mem_append_left _ hx)
        · exact Or.inl hx
      · obtain rfl : o = o' := by rw [ho] at ho'; exact Option.some.inj ho'
        have hf := hn o ho (Nat.not_lt.mp ht) (by rw [hr]; rfl)
        rw [hf, or_iff_left (by simp)] at hx
        rw [hr]
        have hm : x.1 = x.2 ∨ x.2 ∈ o.nested := by simpa [Outstanding.holds, hr] using hx
        exact Or.inl (List.mem_append_right _ (List.mem_cons.mpr (hm.imp Eq.symm id)))

end Covers

section Lines

variable {r : String}

namespace Covers

theorem inReply (ho : h.outstanding = some o) (hx : h.Covers x) :
    (h.observeInReply o m).1.Covers x := by
  have keep (o' : Outstanding) (hr : o'.reference = o.reference) (hn : o'.nested = o.nested)
      (hf : o'.nestedOverflowed = o.nestedOverflowed) :
      Covers { h with outstanding := some o' } x := by
    refine mono (h := h) (fun r hr => hr) (fun o₁ h₁ _ => ⟨o', rfl, ?_⟩) hx
    obtain rfl : o = o₁ := Option.some.inj (ho.symm.trans h₁)
    exact ⟨hr, fun r => by simp [Outstanding.holds, hr, hn], fun h => hf.trans h⟩
  unfold observeInReply
  split
  · split
    · dsimp only
      split
      · exact keep _ rfl rfl rfl
      · exact hx
    · exact hx
  · split
    · split <;> exact keep _ rfl rfl rfl
    · exact hx

theorem outside (ho : h.outstanding = some o) (hx : h.Covers x) :
    (h.observeOutside o m).1.Covers x := by
  unfold observeOutside
  split
  · rename_i hn
    refine of_same (SameTables.fallBack _ _) ?_
    refine mono (h := h) (fun r hr => hr) (fun o₁ h₁ hr => ?_) hx
    -- A request is only refused before its reply began.
    obtain rfl : o = o₁ := Option.some.inj (ho.symm.trans h₁)
    simp [Option.isSome_iff_ne_none.mp hr] at hn
  · exact hx

theorem observe_other (hc : closedBatch m = none) (ho : openedBatch m = none)
    (hx : h.Covers x) : (h.observe m).1.Covers x := by
  unfold observe
  split
  · exact hx
  · split
    · rename_i hm
      simp only [closedBatch, openedBatch, hm] at hc ho
      simpa only [observeBatch, hc, ho] using hx
    · split
      · exact hx
      · cases ho : h.outstanding with
        | none => exact hx
        | some o =>
          dsimp only
          split
          · exact inReply ho hx
          · exact outside ho hx

theorem close (h1 : x.1 ≠ r) (h2 : x.2 ≠ r) (hx : h.Covers x) : (h.observeClose r).1.Covers x := by
  unfold observeClose
  split
  · exact hx.imp (List.mem_erase_of_ne h2).mpr id
  · cases ho : h.outstanding with
    | none => exact hx
    | some o =>
      dsimp only
      split_ifs with hn hr
      · rcases hx with hx | ⟨o', ho', hr, hx⟩
        · exact Or.inl hx
        · obtain rfl : o = o' := Option.some.inj (ho.symm.trans ho')
          refine Or.inr ⟨_, rfl, hr, hx.imp_left fun hx => ?_⟩
          simpa [Outstanding.holds, List.mem_erase_of_ne h2] using hx
      · refine of_same (SameTables.finish h o) ?_
        rcases hx with hx | ⟨o', ho', hr', -⟩
        · exact Or.inl hx
        · obtain rfl : o = o' := Option.some.inj (ho.symm.trans ho')
          exact absurd (Option.some.inj (hr'.symm.trans (beq_iff_eq.mp hr))) h1
      · exact hx

theorem nested {parent : Option String} (hn : h.observeNested r parent = some h₁)
    (hx : h.Covers x) : h₁.Covers x := by
  obtain ⟨p, -, hn⟩ := Option.bind_eq_some_iff.mp hn
  split at hn
  · obtain rfl := Option.some.inj hn
    split_ifs
    · exact hx.imp_left (List.mem_append_left _)
    · exact hx
  · obtain ⟨o, ho, rfl⟩ := Option.map_eq_some_iff.mp hn
    refine mono (h := h) (fun r hr => hr) (fun o₁ h₁ _ => ⟨_, rfl, ?_⟩) hx
    obtain rfl : o = o₁ := Option.some.inj ((Option.filter_eq_some_iff.mp ho).1.symm.trans h₁)
    unfold Outstanding.nest
    split_ifs
    · exact ⟨rfl, fun r => by simp +contextual [Outstanding.holds, or_imp], id⟩
    · exact ⟨rfl, fun r => id, fun _ => rfl⟩

theorem take {o' : Outstanding} (ho : h.outstanding = some o) (hn : o.reference.isNone = true)
    (hx : h.Covers x) : Covers { h with outstanding := some o' } x := by
  refine mono (h := h) (fun r hr => hr) (fun o₁ h₁ hr => ?_) hx
  obtain rfl : o = o₁ := Option.some.inj (ho.symm.trans h₁)
  cases hr' : o.reference <;> simp [hr'] at hn hr

theorem root {kind : Option String} {params : Option (List String)} {ended : Bool}
    (hx : h.Covers x) : (h.observeRoot r kind params ended).1.Covers x := by
  unfold observeRoot observeReply
  split
  · split
    · rename_i o ho
      obtain ⟨ho, hn⟩ := Option.filter_eq_some_iff.mp ho
      exact take ho (Bool.and_eq_true_iff.mp hn).1 hx
    · exact hx
  · split
    · split
      · exact hx
      · split
        · rename_i o ho
          obtain ⟨ho, hn⟩ := Option.filter_eq_some_iff.mp ho
          exact take ho (Bool.and_eq_true_iff.mp hn).1 hx
        · split
          · exact hx.imp_left (List.mem_append_left _)
          · exact hx
    · exact hx

theorem opened {kind : Option String} {params : Option (List String)} (hx : h.Covers x) :
    (h.observeOpen m r kind params).1.Covers x := by
  unfold observeOpen
  split
  · exact hx
  · split
    · rename_i hn
      exact nested hn hx
    · exact root hx

end Covers

namespace Covers

theorem tracks (hx : h.Covers x) (hm : m.batchTag = some x.2) (hc : closedBatch m = none)
    (hh : h.hangsOffUntracked m = false) : h.tracks x.2 = true := by
  rcases hx with hx | ⟨o, ho, -, hx | hx⟩
  · exact tracks_iff.mpr (Or.inl hx)
  · exact tracks_iff.mpr (Or.inr ⟨o, ho, hx⟩)
  · by_contra ht
    rw [Bool.not_eq_true] at ht
    rw [hangsOffUntracked_iff.mpr ⟨o, x.2, ho, hm, hx, by rw [hc]; exact ht⟩] at hh
    cases hh

theorem contained (hx : h.Covers x) (hm : m.batchTag = some x.2) (hw : h.wellFramed m = true) :
    (h.observe m).2 ≠ .unrelated := by
  cases hh : h.hangsOffUntracked m with
  | true => simp [observe_hangsOff hh]
  | false =>
    cases hc : closedBatch m with
    | some r =>
      rw [observe_close hh hc]
      refine observeClose_tracked ?_
      cases ho : openedBatch m with
      | some r' => rw [closedBatch_of_opened ho] at hc; cases hc
      | none =>
        obtain ⟨reference, kind, params, hb, -⟩ := closedBatch_eq hc
        simpa [wellFramed, hh, hc, ho, isBatchLine, hb] using hw
    | none =>
      have ht := hx.tracks hm hc hh
      cases ho : openedBatch m with
      | some r =>
        obtain ⟨reference, kind, params, hb, he⟩ := observe_open hh ho
        have hf : Tags.followedBatch r = true := by
          simpa [wellFramed, hh, hc, ho, isBatchLine, hb] using hw
        obtain ⟨h₁, hn⟩ := Option.isSome_iff_exists.mp (observeNested_isSome (r := r) ht)
        simp [he, observeOpen, hf, hm, hn]
      | none =>
        have hb : isBatchLine m = false := by simpa [wellFramed, hh, hc, ho] using hw
        unfold observe
        rw [if_neg (by simp [hh])]
        split
        · rename_i hb'
          simp [isBatchLine, hb'] at hb
        · split
          · simp
          · rename_i hd
            obtain ⟨o, ho, hr⟩ := (tracks_iff.mp ht).resolve_left (by simpa [hm] using hd)
            rw [ho]
            dsimp only
            rw [if_pos (by simpa [hm] using hr)]
            exact observeInReply_ne

/-- A batch opened inside a covered one is covered, unless the table of swallowed batches is
full. -/
theorem child (hx : h.Covers x) (hm : m.batchTag = some x.2) (ho : openedBatch m = some r)
    (hw : h.wellFramed m = true) (hr : h.hasRoom m = true) : (h.observe m).1.Covers (x.1, r) := by
  have hc := closedBatch_of_opened ho
  cases hh : h.hangsOffUntracked m with
  | true =>
    obtain ⟨o, p, ho₁, hp, hn, ht⟩ := hangsOffUntracked_iff.mp hh
    rw [observe_hangsOff hh]
    obtain rfl : p = x.2 := Option.some.inj (hp.symm.trans hm)
    rw [hc, Option.getD_none] at ht
    rcases hx with hx | ⟨o', ho', hr', hx⟩
    · rw [tracks_iff.mpr (Or.inl hx)] at ht; cases ht
    · obtain rfl : o = o' := Option.some.inj (ho₁.symm.trans ho')
      exact Or.inr ⟨o, ho₁, hr', Or.inr hn⟩
  | false =>
    have ht := hx.tracks hm hc hh
    obtain ⟨reference, kind, params, hb, he⟩ := observe_open hh ho
    have hf : Tags.followedBatch r = true := by
      simpa [wellFramed, hh, hc, ho, isBatchLine, hb] using hw
    obtain ⟨h₁, hn⟩ := Option.isSome_iff_exists.mp (observeNested_isSome (r := r) ht)
    have he₁ : (h.observe m).1 = h₁ := by simp [he, observeOpen, hf, hm, hn]
    rw [he₁]
    simp only [observeNested, Option.bind_some] at hn
    split at hn
    · rename_i hd
      have hd : x.2 ∈ h.discarding := by simpa using hd
      have hl : h.discarding.length < maxNested + 1 := by
        simpa [hasRoom, ho, hm, hd] using hr
      rw [if_pos hl] at hn
      obtain rfl := Option.some.inj hn
      exact Or.inl (by simp)
    · rename_i hd
      obtain ⟨o, hf, rfl⟩ := Option.map_eq_some_iff.mp hn
      obtain ⟨ho₁, hp⟩ := Option.filter_eq_some_iff.mp hf
      rcases hx with hx | ⟨o', ho', hr', -⟩
      · exact absurd (by simpa using hx) hd
      · obtain rfl : o = o' := Option.some.inj (ho₁.symm.trans ho')
        refine Or.inr ⟨_, rfl, ?_⟩
        unfold Outstanding.nest
        split_ifs
        · exact ⟨hr', Or.inl (by simp [Outstanding.holds])⟩
        · exact ⟨hr', Or.inr rfl⟩

theorem answer {kind : Option BatchSubCommand} {params : Option (List String)} {reference : String}
    {ended : Bool} (hm : m.command = .batch reference kind params)
    (ha : h.answersRequest m = true) :
    (h.observeRoot r (kind.map BatchSubCommand.toStr) params ended).1.Covers (r, r) := by
  simp only [answersRequest, hm] at ha
  unfold observeRoot
  split_ifs at ha with ht
  · obtain ⟨o, ho, hp⟩ := (Option.any_eq_true _ _).mp ha
    rw [if_pos ht, Option.filter_eq_some_iff.mpr ⟨ho, hp⟩]
    exact Or.inr ⟨_, rfl, rfl, Or.inl (by simp [Outstanding.holds])⟩
  · obtain ⟨hk, ha⟩ := Bool.and_eq_true_iff.mp ha
    obtain ⟨target, hp, ha⟩ := (Option.any_eq_true _ _).mp ha
    rw [if_neg ht, if_pos (beq_iff_eq.mp hk), hp]
    dsimp only
    unfold observeReply
    split
    · exact Or.inr ⟨_, rfl, rfl, Or.inl (by simp [Outstanding.holds])⟩
    · rename_i hf
      rcases Bool.or_eq_true_iff.mp ha with ha | ha
      · obtain ⟨o, ho, ha⟩ := (Option.any_eq_true _ _).mp ha
        rw [Option.filter_eq_some_iff.mpr ⟨ho, ha⟩] at hf
        cases hf
      · rw [if_pos ha]
        exact Or.inl (by simp)

theorem reply (ho : openedBatch m = some r) (hr : h.opensReply m = true)
    (ha : h.answersRequest m = true) : (h.observe m).1.Covers (r, r) := by
  obtain ⟨reference, kind, params, hm, -⟩ := openedBatch_eq ho
  simp only [opensReply, hm, ho, Option.any_some, Bool.and_eq_true, Bool.not_eq_true',
    Option.isNone_iff_eq_none] at hr
  obtain ⟨reference', kind', params', hm', he⟩ := observe_open hr.1.2 ho
  rw [hm] at hm'
  injection hm' with _ hk hp
  subst hk hp
  simp only [he, observeOpen, hr.1.1.1, hr.1.1.2, Bool.not_true, Bool.false_eq_true, if_false]
  exact answer hm ha

end Covers

end Lines

end HistoryRequests

namespace Replies

variable {w : Replies} {m : IrcMessage} {x : String × String} {i : HistoryCall × Bool}

def Covered (w : Replies) : Prop := ∀ x ∈ w.batches, w.history.Covers x

open HistoryRequests

theorem inReply_iff : w.inReply m = true ↔ ∃ x ∈ w.batches, m.batchTag = some x.2 := by
  simp [inReply]

theorem Covered.observe (hw : w.Covered)
    (hf : w.inReply m = true → w.history.wellFramed m = true ∧ w.history.hasRoom m = true)
    (ha : w.history.opensReply m = true → w.history.answersRequest m = true) :
    ∀ x ∈ w.batchesAfter m, (w.history.observe m).1.Covers x := by
  intro x hx
  unfold batchesAfter at hx
  split at hx
  · rename_i r hc
    obtain ⟨hx, hn⟩ := List.mem_filter.mp hx
    simp only [Bool.and_eq_true, bne_iff_ne] at hn
    cases hh : w.history.hangsOffUntracked m with
    | true => rw [observe_hangsOff hh]; exact hw x hx
    | false => rw [observe_close hh hc]; exact (hw x hx).close hn.1 hn.2
  · rename_i r hc ho
    rcases List.mem_append.mp hx with hx | hx
    · rcases List.mem_append.mp hx with hx | hx
      · cases hh : w.history.hangsOffUntracked m with
        | true => rw [observe_hangsOff hh]; exact hw x hx
        | false =>
          obtain ⟨reference, kind, params, -, he⟩ := observe_open hh ho
          rw [he]
          exact (hw x hx).opened
      · split_ifs at hx with hp
        · obtain rfl := List.mem_singleton.mp hx
          exact Covers.reply ho hp (ha hp)
        · cases hx
    · obtain ⟨y, hy, rfl⟩ := List.mem_map.mp hx
      obtain ⟨hy, ht⟩ := List.mem_filter.mp hy
      have ht := beq_iff_eq.mp ht
      obtain ⟨hf, hr⟩ := hf (inReply_iff.mpr ⟨y, hy, ht⟩)
      exact (hw y hy).child ht ho hf hr
  · rename_i hc ho
    exact (hw x hx).observe_other hc ho

theorem Covered.next (hw : w.Covered) (ho : w.Orderly i) : (w.next i).Covered := by
  obtain ⟨c, b⟩ := i
  have quiet (hs : SameTables w.history (w.history.next c)) :
      ∀ x ∈ w.batches, (w.history.next c).Covers x := fun x hx => (hw x hx).of_same hs
  cases c with
  | observe m => exact hw.observe ho.1 ho.2
  | tick now =>
    intro x hx
    refine (hw x hx).tick fun o hmem ht hr => ?_
    by_contra hn
    rw [Bool.not_eq_false] at hn
    have hf : (w.history.outstanding.any fun o =>
        decide (o.sent + responseTimeout ≤ now) && o.reference.isSome && o.nestedOverflowed) =
          true := (Option.any_eq_true _ _).mpr ⟨o, hmem, by simp [ht, hr, hn]⟩
    rw [ho] at hf
    cases hf
  | reset =>
    have hb : w.batches = [] := ho
    intro x hx
    rw [Replies.next, hb] at hx
    cases hx
  | nextRequest now => exact fun x hx => (hw x hx).nextRequest now
  | _ => exact quiet (SameTables.next w.history (by simp) (by simp) (by simp) (by simp))

theorem Covered.contained (hw : w.Covered) (ho : w.Orderly i) : w.Contained i := by
  obtain ⟨c, b⟩ := i
  cases c with
  | observe m =>
    intro hm
    obtain ⟨x, hx, ht⟩ := inReply_iff.mp hm
    exact Or.inl ((hw x hx).contained ht (ho.1 hm).1)
  | _ => trivial

end Replies

namespace Replies

def lineIn (batch : Option String) (command : IrcCommand) : HistoryCall × Bool :=
  (.observe { tags := some (batch.toList.map fun b => ⟨"batch", some b⟩), command }, false)

def overflowedReply : List (HistoryCall × Bool) :=
  [(.enqueue "#a", false), (.nextRequest 0, false),
    lineIn none (.batch "+r" (some (.custom "CHATHISTORY")) (some ["#a"]))] ++
  (List.range 17).map fun n => lineIn (some "r") (.batch ("+" ++ toString n) none none)

end Replies

open Replies

end CayenChat
