import CayenChat.History.Ledger

/-! # Lines and the tables of replies

What a line does is told by the batch it closes or opens and by the tables its
batch is looked up in. Every other call leaves the tables as they are, unless
it hands out a request, gives one up or withdraws them all.
-/

namespace CayenChat

namespace HistoryRequests

def openedBatch (m : IrcMessage) : Option String :=
  match m.command with
  | .batch reference _ _ => stripFirst '+' reference
  | _ => none

def isBatchLine (m : IrcMessage) : Bool :=
  match m.command with
  | .batch .. => true
  | _ => false

def tracks (h : HistoryRequests) (reference : String) : Bool :=
  h.discarding.contains reference || h.outstanding.any (·.holds reference)

variable {h h₁ h₂ : HistoryRequests} {m : IrcMessage} {o : Outstanding} {r : String}

/-- The tables that lines of replies are matched with are the same. -/
structure SameTables (h h' : HistoryRequests) : Prop where
  outstanding : h'.outstanding = h.outstanding
  abandoned : h'.abandoned = h.abandoned
  discarding : h'.discarding = h.discarding

namespace SameTables

theorem refl : SameTables h h := ⟨rfl, rfl, rfl⟩

theorem trans (h01 : SameTables h h₁) (h12 : SameTables h₁ h₂) : SameTables h h₂ :=
  ⟨h12.1.trans h01.1, h12.2.trans h01.2, h12.3.trans h01.3⟩

theorem enqueue (h : HistoryRequests) (channel : String) : SameTables h (h.enqueue channel).1 := by
  have htake : SameTables h (h.takeResume channel).1 := by
    unfold takeResume
    split <;> exact ⟨rfl, rfl, rfl⟩
  unfold HistoryRequests.enqueue
  split_ifs
  · exact refl
  · exact refl
  · exact htake.trans ⟨rfl, rfl, rfl⟩

theorem enqueuePeers (peers : List String) (h : HistoryRequests) :
    SameTables h (h.enqueuePeers peers).1 := by
  induction peers generalizing h with
  | nil => exact refl
  | cons peer peers ih =>
    have he := enqueue h peer
    unfold HistoryRequests.enqueuePeers
    split
    · rename_i h₁ heq
      rw [heq] at he
      exact he.trans (ih h₁)
    · rename_i heq
      rwa [heq] at he

theorem fallBack (h : HistoryRequests) (f : Finished) : SameTables h (h.fallBack f) := by
  unfold HistoryRequests.fallBack
  split_ifs <;> exact ⟨rfl, rfl, rfl⟩

theorem finish (h : HistoryRequests) (o : Outstanding) :
    SameTables { h with outstanding := none } (h.finish o).1 := by
  unfold HistoryRequests.finish
  cases o.page.isTargets with
  | true => exact enqueuePeers _ _
  | false => exact refl

theorem next (h : HistoryRequests) {c : HistoryCall} (ho : ∀ m, c ≠ .observe m)
    (ht : ∀ now, c ≠ .tick now) (hr : c ≠ .reset) (hn : ∀ now, c ≠ .nextRequest now) :
    SameTables h (h.next c) := by
  cases c with
  | setCasemapping => exact ⟨rfl, rfl, rfl⟩
  | isupport m =>
    obtain ⟨limit, types, he⟩ := h.isupport_eq m
    exact ⟨by rw [HistoryRequests.next, he], by rw [HistoryRequests.next, he],
      by rw [HistoryRequests.next, he]⟩
  | enqueue channel => exact enqueue h channel
  | enqueueTargets since now =>
    unfold HistoryRequests.next enqueueTargets
    split_ifs <;> exact ⟨rfl, rfl, rfl⟩
  | enqueueOlder channel request reference limit =>
    rcases h.enqueueOlder_cases channel request reference limit with ⟨f, he⟩ | ⟨selector, he⟩ <;>
      exact ⟨by rw [HistoryRequests.next, he], by rw [HistoryRequests.next, he],
        by rw [HistoryRequests.next, he]⟩
  | forget channel => exact ⟨rfl, rfl, rfl⟩
  | nextRequest now => exact absurd rfl (hn now)
  | tick now => exact absurd rfl (ht now)
  | reset => exact absurd rfl hr
  | observe m => exact absurd rfl (ho m)

end SameTables

theorem closedBatch_eq (hc : closedBatch m = some r) :
    ∃ reference kind params, m.command = .batch reference kind params ∧
      stripFirst '-' reference = some r := by
  unfold closedBatch at hc
  split at hc
  · exact ⟨_, _, _, by assumption, hc⟩
  · cases hc

theorem openedBatch_eq (hc : openedBatch m = some r) :
    ∃ reference kind params, m.command = .batch reference kind params ∧
      stripFirst '+' reference = some r := by
  unfold openedBatch at hc
  split at hc
  · exact ⟨_, _, _, by assumption, hc⟩
  · cases hc

theorem closedBatch_of_opened (ho : openedBatch m = some r) : closedBatch m = none := by
  obtain ⟨reference, kind, params, hm, hr⟩ := openedBatch_eq ho
  simp only [closedBatch, hm]
  cases hc : stripFirst '-' reference with
  | none => rfl
  | some r' => exact absurd (stripFirst_unique hr hc).1 (by decide)

theorem observe_hangsOff (hh : h.hangsOffUntracked m = true) : h.observe m = (h, .consumed) := by
  rw [observe, if_pos hh]

theorem observe_close (hh : h.hangsOffUntracked m = false) (hc : closedBatch m = some r) :
    h.observe m = h.observeClose r := by
  obtain ⟨reference, kind, params, hm, hr⟩ := closedBatch_eq hc
  simp [observe, hh, hm, observeBatch, hr]

/-- What a line that opens a batch does. -/
def observeOpen (h : HistoryRequests) (m : IrcMessage) (r : String) (kind : Option String)
    (params : Option (List String)) : HistoryRequests × Observed :=
  if !Tags.followedBatch r then (h, .unrelated)
  else
    match h.observeNested r m.batchTag with
    | some h => (h, .consumed)
    | none => h.observeRoot r kind params (Tags.hasTag m endTag)

theorem observe_open (hh : h.hangsOffUntracked m = false) (ho : openedBatch m = some r) :
    ∃ reference kind params, m.command = .batch reference kind params ∧
      h.observe m = h.observeOpen m r (kind.map BatchSubCommand.toStr) params := by
  have hc := closedBatch_of_opened ho
  obtain ⟨reference, kind, params, hm, hr⟩ := openedBatch_eq ho
  simp only [closedBatch, hm] at hc
  refine ⟨reference, kind, params, hm, ?_⟩
  simp only [observe, hh, hm, observeBatch, hc, hr, Bool.false_eq_true, if_false]
  rfl

theorem tracks_iff : h.tracks r = true ↔
    r ∈ h.discarding ∨ ∃ o, h.outstanding = some o ∧ o.holds r = true := by
  simp [tracks, Option.any_eq_true]

theorem hangsOffUntracked_iff : h.hangsOffUntracked m = true ↔ ∃ o p, h.outstanding = some o ∧
    m.batchTag = some p ∧ o.nestedOverflowed = true ∧
      h.tracks ((closedBatch m).getD p) = false := by
  unfold hangsOffUntracked tracks
  cases h.outstanding <;> cases m.batchTag <;> simp [and_comm]

theorem observeNested_isSome {p : String} (hp : h.tracks p = true) :
    (h.observeNested r (some p)).isSome := by
  unfold observeNested
  rcases tracks_iff.mp hp with hp | ⟨o, ho, hp⟩
  · simp [hp]
  · simp only [Option.bind_some]
    split
    · rfl
    · simp [ho, hp]

theorem observeClose_tracked (hr : h.tracks r = true) : (h.observeClose r).2 ≠ .unrelated := by
  unfold observeClose
  split
  · simp
  · rename_i hd
    obtain ⟨o, ho, hr⟩ := (tracks_iff.mp hr).resolve_left (by simpa using hd)
    rw [ho]
    dsimp only
    split_ifs with hn he
    · simp
    · simp
    · simp_all [Outstanding.holds]

theorem observeInReply_ne : (h.observeInReply o m).2 ≠ .unrelated := by
  unfold observeInReply
  split <;> split <;> (try split) <;> simp

end HistoryRequests

end CayenChat
