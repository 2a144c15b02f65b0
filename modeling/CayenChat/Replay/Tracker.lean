import Mathlib
import CayenChat.Lib.Bounded
import CayenChat.Wire.Tags
import CayenChat.Lib.Machine

/-! # The replay tracker

Tells replayed history apart from live messages by the batches that are open.
Only history batches are remembered; when there are too many of them, unknown
batches count as history until the connection resets.
-/

namespace CayenChat

def maxOpenBatches : ℕ := 64

def historyBatchTypes : List String := ["CHATHISTORY", "ZNC.IN/PLAYBACK"]

/-- The open batches that carry history, and after an overflow those that do not. -/
structure ReplayTracker where
  historyBatches : List String := []
  overflowed : Bool := false
  liveBatches : List String := []
  deriving DecidableEq, Repr

namespace ReplayTracker

def inHistoryBatch (t : ReplayTracker) (m : IrcMessage) : Bool :=
  match m.batchTag with
  | none => false
  | some reference =>
    t.historyBatches.contains reference || (t.overflowed && !t.liveBatches.contains reference)

def forget (t : ReplayTracker) (reference : String) : ReplayTracker :=
  { t with
    historyBatches := t.historyBatches.filter (· != reference)
    liveBatches := t.liveBatches.filter (· != reference) }

/-- Remembers a followed reference as history or, after an overflow, as live. -/
def remember (t : ReplayTracker) (reference : String) (history : Bool) : ReplayTracker :=
  if history then
    { t with
      historyBatches := Bounded.push maxOpenBatches t.historyBatches reference
      overflowed := t.overflowed || decide (maxOpenBatches ≤ t.historyBatches.length) }
  else if t.overflowed then
    { t with liveBatches := Bounded.push maxOpenBatches t.liveBatches reference }
  else t

def carriesHistory (t : ReplayTracker) (m : IrcMessage) (kind : Option BatchSubCommand) : Bool :=
  kind.any (historyBatchTypes.contains ·.toStr) || t.inHistoryBatch m

/-- Follows `BATCH +ref type` and `BATCH -ref`. -/
def observe (t : ReplayTracker) (m : IrcMessage) : ReplayTracker :=
  match m.command with
  | .batch reference kind _ =>
    match stripFirst '-' reference with
    | some reference => t.forget reference
    | none =>
      match stripFirst '+' reference with
      | some reference =>
        if Tags.followedBatch reference then
          (t.forget reference).remember reference (t.carriesHistory m kind)
        else t
      | none => t
  | _ => t

def reset (_ : ReplayTracker) : ReplayTracker := {}

/-- Classifies a line when its batch membership was already read by the caller. -/
def replayedWithHistory (_ : ReplayTracker) (m : IrcMessage) (inHistoryBatch : Bool) : Bool :=
  let fromUser := match m.source with
    | some (.nickname _ user host) => user != "" || host != ""
    | _ => false
  !fromUser || inHistoryBatch

def replayed (t : ReplayTracker) (m : IrcMessage) : Bool :=
  t.replayedWithHistory m (t.inHistoryBatch m)

theorem inHistoryBatch_iff {t : ReplayTracker} {m : IrcMessage} :
    t.inHistoryBatch m = true ↔ ∃ r, m.batchTag = some r ∧
      (r ∈ t.historyBatches ∨ (t.overflowed = true ∧ r ∉ t.liveBatches)) := by
  unfold inHistoryBatch
  cases m.batchTag <;> simp

@[simp] theorem mem_forget_history {t : ReplayTracker} {r x : String} :
    x ∈ (t.forget r).historyBatches ↔ x ∈ t.historyBatches ∧ x ≠ r := by
  simp [forget]

@[simp] theorem mem_forget_live {t : ReplayTracker} {r x : String} :
    x ∈ (t.forget r).liveBatches ↔ x ∈ t.liveBatches ∧ x ≠ r := by
  simp [forget]

@[simp] theorem overflowed_forget (t : ReplayTracker) (r : String) :
    (t.forget r).overflowed = t.overflowed := rfl

end ReplayTracker

end CayenChat

/-! ## The tracker fails closed

What the lines say about open history batches is a set of references. The
bounded tracker covers this set whatever the lines are, and agrees with it
until more history batches were open at once than it remembers.
-/

namespace CayenChat

/-- A line from the server, or the withdrawal of the batch capability. -/
inductive ReplayInput
  | line (m : IrcMessage)
  | reset

def ReplayTracker.next (t : ReplayTracker) : ReplayInput → ReplayTracker
  | .line m => t.observe m
  | .reset => t.reset

/-- The followed history batches that are open, and whether too many were open at once. -/
structure OpenHistory where
  batches : Finset String := ∅
  overflow : Bool := false

namespace OpenHistory

def carriesHistory (a : OpenHistory) (m : IrcMessage) (kind : Option BatchSubCommand) : Bool :=
  kind.any (historyBatchTypes.contains ·.toStr) || m.batchTag.any (decide <| · ∈ a.batches)

def close (a : OpenHistory) (reference : String) : OpenHistory :=
  { a with batches := a.batches.erase reference }

def start (a : OpenHistory) (reference : String) (history : Bool) : OpenHistory :=
  if history then
    { batches := insert reference a.batches
      overflow := a.overflow || decide (maxOpenBatches ≤ a.batches.card) }
  else a

def next (a : OpenHistory) : ReplayInput → OpenHistory
  | .reset => {}
  | .line m =>
    match m.command with
    | .batch reference kind _ =>
      match stripFirst '-' reference with
      | some reference => a.close reference
      | none =>
        match stripFirst '+' reference with
        | some reference =>
          if Tags.followedBatch reference then
            (a.close reference).start reference (a.carriesHistory m kind)
          else a
        | none => a
    | _ => a

end OpenHistory

/-- The tracker covers the open history batches, exactly so before an overflow. -/
structure Tracks (t : ReplayTracker) (a : OpenHistory) : Prop where
  overflow : t.overflowed = a.overflow
  apart : ∀ r ∈ t.historyBatches, r ∉ t.liveBatches
  covered : ∀ r ∈ a.batches, r ∈ t.historyBatches ∨ (t.overflowed = true ∧ r ∉ t.liveBatches)
  nodup : t.overflowed = false → t.historyBatches.Nodup
  exact : t.overflowed = false → ∀ r, r ∈ t.historyBatches ↔ r ∈ a.batches

namespace Tracks

variable {t : ReplayTracker} {a : OpenHistory} {m : IrcMessage} {r : String}

theorem initial : Tracks {} {} := ⟨rfl, by simp, by simp, by simp, by simp⟩

theorem inHistoryBatch (h : Tracks t a) (hr : m.batchTag = some r) (ha : r ∈ a.batches) :
    t.inHistoryBatch m = true :=
  ReplayTracker.inHistoryBatch_iff.mpr ⟨r, hr, h.covered r ha⟩

theorem mem_of_inHistoryBatch (h : Tracks t a) (ho : t.overflowed = false)
    (hm : t.inHistoryBatch m = true) : ∃ r, m.batchTag = some r ∧ r ∈ a.batches := by
  obtain ⟨r, hr, hh | ⟨ht, _⟩⟩ := ReplayTracker.inHistoryBatch_iff.mp hm
  · exact ⟨r, hr, (h.exact ho r).mp hh⟩
  · rw [ho] at ht; cases ht

theorem card_eq (h : Tracks t a) (ho : t.overflowed = false) :
    t.historyBatches.length = a.batches.card := by
  rw [← List.toFinset_card_of_nodup (h.nodup ho)]
  congr 1
  ext r
  rw [List.mem_toFinset, h.exact ho]

theorem carriesHistory (h : Tracks t a) {kind : Option BatchSubCommand}
    (ha : a.carriesHistory m kind = true) : t.carriesHistory m kind = true := by
  unfold OpenHistory.carriesHistory at ha
  unfold ReplayTracker.carriesHistory
  rcases Bool.or_eq_true_iff.mp ha with hk | hp
  · rw [hk, Bool.true_or]
  · obtain ⟨r, hr, hm⟩ := (Option.any_eq_true _ _).mp hp
    rw [h.inHistoryBatch hr (of_decide_eq_true hm), Bool.or_true]

theorem carriesHistory_eq (h : Tracks t a) (ho : t.overflowed = false)
    (kind : Option BatchSubCommand) : t.carriesHistory m kind = a.carriesHistory m kind := by
  rw [Bool.eq_iff_iff]
  refine ⟨fun ht => ?_, h.carriesHistory⟩
  unfold OpenHistory.carriesHistory
  rcases Bool.or_eq_true_iff.mp ht with hk | hp
  · rw [hk, Bool.true_or]
  · obtain ⟨r, hr, hm⟩ := h.mem_of_inHistoryBatch ho hp
    rw [hr, Option.any_some, decide_eq_true hm, Bool.or_true]

theorem close (h : Tracks t a) (r : String) : Tracks (t.forget r) (a.close r) where
  overflow := h.overflow
  apart x hx := by
    rw [ReplayTracker.mem_forget_history] at hx
    exact fun hl => h.apart x hx.1 (ReplayTracker.mem_forget_live.mp hl).1
  covered x hx := by
    obtain ⟨hne, hx⟩ := Finset.mem_erase.mp hx
    rcases h.covered x hx with hh | ⟨ho, hl⟩
    · exact Or.inl (ReplayTracker.mem_forget_history.mpr ⟨hh, hne⟩)
    · exact Or.inr ⟨ho, fun hx => hl (ReplayTracker.mem_forget_live.mp hx).1⟩
  nodup ho := (h.nodup ho).filter _
  exact ho x := by
    rw [ReplayTracker.mem_forget_history, h.exact ho, OpenHistory.close, Finset.mem_erase, and_comm]

theorem remember_history (h : Tracks t a) (hr : r ∉ t.liveBatches) (hn : r ∉ t.historyBatches)
    {history : Bool} (hh : history = true ∨ t.overflowed = true) :
    Tracks (t.remember r true) (a.start r history) := by
  have hc : ∀ x ∈ t.historyBatches,
      x ∈ Bounded.push maxOpenBatches t.historyBatches r ∨
        (decide (maxOpenBatches ≤ t.historyBatches.length) = true ∧ x ∉ t.liveBatches) := by
    intro x hx
    by_cases hf : maxOpenBatches ≤ t.historyBatches.length
    · exact Or.inr ⟨decide_eq_true hf, h.apart x hx⟩
    · rw [Bounded.push_of_lt (Nat.not_le.mp hf)]
      exact Or.inl (List.mem_append_left _ hx)
  have hcov : ∀ x ∈ a.batches, x ∈ (t.remember r true).historyBatches ∨
      ((t.remember r true).overflowed = true ∧ x ∉ (t.remember r true).liveBatches) := by
    intro x hx
    simp only [ReplayTracker.remember, if_true]
    rcases h.covered x hx with hx | ⟨ho, hl⟩
    · exact (hc x hx).imp_right fun ⟨hf, hl⟩ => ⟨by rw [hf, Bool.or_true], hl⟩
    · exact Or.inr ⟨by rw [ho, Bool.true_or], hl⟩
  have hself : r ∈ (t.remember r true).historyBatches := by
    simp only [ReplayTracker.remember, if_true]
    exact Bounded.mem_push_self
  have hroom : (t.remember r true).overflowed = false →
      t.overflowed = false ∧ (t.remember r true).historyBatches = t.historyBatches ++ [r] := by
    intro ho
    simp only [ReplayTracker.remember, if_true, Bool.or_eq_false_iff, decide_eq_false_iff_not] at ho ⊢
    exact ⟨ho.1, Bounded.push_of_lt (Nat.not_le.mp ho.2)⟩
  refine ⟨?_, ?_, ?_, ?_, ?_⟩
  · cases ho : t.overflowed with
    | true => cases history <;> simp [ReplayTracker.remember, OpenHistory.start, ho, ← h.overflow]
    | false =>
      obtain rfl : history = true := hh.resolve_right (by simp [ho])
      simp [ReplayTracker.remember, OpenHistory.start, ← h.overflow, h.card_eq ho]
  · intro x hx
    simp only [ReplayTracker.remember, if_true] at hx ⊢
    rcases Bounded.mem_of_mem_push hx with hx | rfl
    · exact h.apart x hx
    · exact hr
  · intro x hx
    cases history with
    | false => exact hcov x hx
    | true =>
      rcases Finset.mem_insert.mp hx with rfl | hx
      · exact Or.inl hself
      · exact hcov x hx
  · intro ho
    obtain ⟨ho, he⟩ := hroom ho
    rw [he]
    exact (h.nodup ho).append (List.nodup_singleton r) (List.disjoint_singleton.mpr hn)
  · intro ho x
    obtain ⟨ho, he⟩ := hroom ho
    obtain rfl : history = true := hh.resolve_right (by simp [ho])
    rw [he, List.mem_append, List.mem_singleton, h.exact ho]
    simp [OpenHistory.start, or_comm]

theorem remember_live (h : Tracks t a) (hr : r ∉ a.batches) (hn : r ∉ t.historyBatches) :
    Tracks (t.remember r false) (a.start r false) := by
  cases ho : t.overflowed with
  | false => simpa [ReplayTracker.remember, OpenHistory.start, ho] using h
  | true =>
    simp only [ReplayTracker.remember, OpenHistory.start, ho, if_true, Bool.false_eq_true, if_false]
    refine ⟨ho ▸ h.overflow, ?_, ?_, by simp, by simp⟩
    · intro x hx hl
      rcases Bounded.mem_of_mem_push hl with hl | rfl
      · exact h.apart x hx hl
      · exact hn hx
    · intro x hx
      rcases h.covered x hx with hh | ⟨_, hl⟩
      · exact Or.inl hh
      · refine Or.inr ⟨rfl, fun hp => ?_⟩
        rcases Bounded.mem_of_mem_push hp with hp | rfl
        · exact hl hp
        · exact hr hx

theorem start (h : Tracks t a) (kind : Option BatchSubCommand) (r : String) :
    Tracks ((t.forget r).remember r (t.carriesHistory m kind))
      ((a.close r).start r (a.carriesHistory m kind)) := by
  have hc := h.close r
  have hl : r ∉ (t.forget r).liveBatches := by simp
  have hh : r ∉ (t.forget r).historyBatches := by simp
  cases ht : t.carriesHistory m kind with
  | true =>
    refine hc.remember_history hl hh ?_
    cases ho : t.overflowed with
    | true => exact Or.inr ho
    | false => exact Or.inl (h.carriesHistory_eq ho kind ▸ ht)
  | false =>
    have ha : a.carriesHistory m kind = false :=
      Bool.eq_false_iff.mpr fun ha => by simp [h.carriesHistory ha] at ht
    rw [ha]
    exact hc.remember_live (by simp [OpenHistory.close]) hh

theorem next (h : Tracks t a) (i : ReplayInput) : Tracks (t.next i) (a.next i) := by
  cases i with
  | reset => exact initial
  | line m =>
    simp only [ReplayTracker.next, ReplayTracker.observe, OpenHistory.next]
    cases m.command with
    | batch reference kind params =>
      dsimp only
      cases stripFirst '-' reference with
      | some r => exact h.close r
      | none =>
        cases stripFirst '+' reference with
        | none => exact h
        | some r =>
          dsimp only
          split_ifs with hf
          · exact h.start kind r
          · exact h
    | _ => exact h

end Tracks

theorem tracks_exec (inputs : List ReplayInput) :
    Tracks (Machine.exec ReplayTracker.next {} inputs) (Machine.exec OpenHistory.next {} inputs) := by
  suffices ∀ t a, Tracks t a →
      Tracks (Machine.exec ReplayTracker.next t inputs) (Machine.exec OpenHistory.next a inputs) from
    this _ _ Tracks.initial
  induction inputs with
  | nil => exact fun _ _ h => h
  | cons i is ih => exact fun t a h => ih _ _ (h.next i)

/-- Every line in an open history batch is history for the tracker, also after an overflow;
before one no other line is. -/
theorem inHistoryBatch_of_open (inputs : List ReplayInput) (m : IrcMessage) :
    let tracker := Machine.exec ReplayTracker.next {} inputs
    let said := Machine.exec OpenHistory.next {} inputs
    (∀ r ∈ said.batches, m.batchTag = some r → tracker.inHistoryBatch m = true) ∧
      (said.overflow = false → tracker.inHistoryBatch m = true →
        ∃ r ∈ said.batches, m.batchTag = some r) := by
  have h := tracks_exec inputs
  refine ⟨fun r hr hm => h.inHistoryBatch hm hr, fun ho hm => ?_⟩
  obtain ⟨r, hr, ha⟩ := h.mem_of_inHistoryBatch (h.overflow.trans ho) hm
  exact ⟨r, ha, hr⟩

end CayenChat
