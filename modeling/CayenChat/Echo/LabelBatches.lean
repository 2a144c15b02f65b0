import Mathlib
import CayenChat.Echo.Settlement

/-! # Lines that carry a label

A line names a message by its own label or by the label its batch was opened
with. Batches are followed while they are among the latest ones, and only when
the message of their label was still waiting as they opened.
-/

namespace CayenChat

/-- The echoes of a connection and the open label batches: reference, label, and how many of them
were opened since. -/
structure LabelWatch where
  echoes : Echoes := {}
  opened : List (String × String × ℕ) := []

theorem Echoes.observe_batches {e : Echoes} {m : IrcMessage}
    (hm : ∀ reference kind params, m.command ≠ .batch reference kind params)
    (currentNick : String) (labeled : Bool) :
    (e.observe m currentNick labeled).1.batches = e.batches := by
  have hs (matching : Pending → Bool) (event : Pending → Option EchoEvent) :
      (e.settleFirst matching event).1.batches = e.batches := by
    unfold settleFirst
    split <;> rfl
  unfold observe
  split
  · exact absurd (by assumption) (hm _ _ _)
  · split
    · exact hs _ _
    · split
      · split
        · exact hs _ _
        · rfl
      · rfl

namespace LabelWatch

def batchLabel (e : Echoes) (m : IrcMessage) (reference : String) : Option String :=
  (Tags.tagValue m "label").filter fun label =>
    e.pending.any (·.label == some label) && Tags.followedBatch reference

/-- The open label batches after a line; a reference names the batch opened last. -/
def openedAfter (w : LabelWatch) (m : IrcMessage) : List (String × String × ℕ) :=
  match m.command with
  | .batch reference _ _ =>
    match stripFirst '+' reference with
    | some reference =>
      let others := w.opened.filter (·.1 != reference)
      match batchLabel w.echoes m reference with
      | some label => others.map (fun x => (x.1, x.2.1, x.2.2 + 1)) ++ [(reference, label, 0)]
      | none => others
    | none =>
      match stripFirst '-' reference with
      | some reference => w.opened.filter (·.1 != reference)
      | none => w.opened
  | _ => w.opened

def next (w : LabelWatch) : EchoCall → LabelWatch
  | .observe m currentNick labeled =>
    { echoes := w.echoes.next (.observe m currentNick labeled), opened := w.openedAfter m }
  | .reset => { echoes := w.echoes.next .reset, opened := [] }
  | c => { w with echoes := w.echoes.next c }

/-- The label a line carries: its own, or that of its batch while fewer than the bound of label
batches were opened after it. -/
def labelOf (w : LabelWatch) (m : IrcMessage) : Option String :=
  (Tags.tagValue m "label").or (m.batchTag.bind fun reference =>
    (w.opened.find? fun x => x.1 == reference && decide (x.2.2 < maxLabelBatches)).map (·.2.1))

/-- A line that carries a label leaves every message under another label, or without one, waiting. -/
def KeepsOthers (w : LabelWatch) : EchoCall → Prop
  | .observe m currentNick labeled => ∀ l, w.labelOf m = some l →
      (w.echoes.observe m currentNick labeled).1.pending.filter (·.label != some l) =
        w.echoes.pending.filter (·.label != some l)
  | _ => True

/-- The table holds the open label batches that are recent enough. -/
structure Follows (w : LabelWatch) : Prop where
  nodup : (w.echoes.batches.map Prod.fst).Nodup
  recent : ∀ r l a, (r, l, a) ∈ w.opened → a < maxLabelBatches → ∃ before after,
    w.echoes.batches = before ++ (r, l) :: after ∧ after.length ≤ a

variable {w : LabelWatch} {m : IrcMessage} {r l : String} {a : ℕ}

theorem eraseP_eq_filter {b : List (String × String)} (h : (b.map Prod.fst).Nodup) :
    b.eraseP (·.1 == r) = b.filter (·.1 != r) := by
  induction b with
  | nil => rfl
  | cons x b ih =>
    obtain ⟨hx, hn⟩ := List.nodup_cons.mp h
    cases hr : x.1 == r with
    | true =>
      rw [List.eraseP_cons_of_pos (p := fun y : String × String => y.1 == r) hr, List.filter_cons_of_neg (by simpa using hr)]
      refine (List.filter_eq_self.mpr fun y hy => ?_).symm
      simp only [bne_iff_ne]
      rintro hy'
      exact hx (List.mem_map.mpr ⟨y, hy, hy'.trans (beq_iff_eq.mp hr).symm⟩)
    | false =>
      rw [List.eraseP_cons_of_neg (by simp [hr]), List.filter_cons_of_pos (by simp [bne, hr]),
        ih hn]

theorem recent_filter {b : List (String × String)} {r' : String} (hr : r ≠ r')
    (h : ∃ before after, b = before ++ (r, l) :: after ∧ after.length ≤ a) :
    ∃ before after, b.filter (·.1 != r') = before ++ (r, l) :: after ∧ after.length ≤ a := by
  obtain ⟨before, after, rfl, ha⟩ := h
  refine ⟨before.filter (·.1 != r'), after.filter (·.1 != r'), ?_, ?_⟩
  · rw [List.filter_append, List.filter_cons_of_pos (by simpa using hr)]
  · exact (List.length_filter_le _ _).trans ha

theorem recent_drop {b : List (String × String)} (ha : a + 1 < maxLabelBatches)
    (h : ∃ before after, b = before ++ (r, l) :: after ∧ after.length ≤ a) :
    ∃ before after, (if maxLabelBatches ≤ b.length then b.drop 1 else b) =
      before ++ (r, l) :: after ∧ after.length ≤ a := by
  obtain ⟨before, after, rfl, hle⟩ := h
  split_ifs with hf
  · cases before with
    | nil =>
      simp only [List.nil_append, List.length_cons] at hf
      omega
    | cons x before => exact ⟨before, after, rfl, hle⟩
  · exact ⟨before, after, rfl, hle⟩

namespace Follows

theorem openBatch (hw : Follows w) :
    Follows {
      echoes := { w.echoes with
        batches := (if maxLabelBatches ≤ w.echoes.batches.length then w.echoes.batches.drop 1
          else w.echoes.batches).filter (·.1 != r) ++ [(r, l)] }
      opened := (w.opened.filter (·.1 != r)).map (fun x => (x.1, x.2.1, x.2.2 + 1)) ++
        [(r, l, 0)] } where
  nodup := by
    have hd : ((if maxLabelBatches ≤ w.echoes.batches.length then w.echoes.batches.drop 1
        else w.echoes.batches).map Prod.fst).Nodup := by
      split_ifs
      · rw [List.map_drop]; exact hw.nodup.sublist (List.drop_sublist _ _)
      · exact hw.nodup
    rw [List.map_append]
    refine List.Nodup.append (hd.sublist (List.filter_sublist.map _)) (List.nodup_singleton _)
      (List.disjoint_singleton.mpr fun h => ?_)
    obtain ⟨x, hx, hx'⟩ := List.mem_map.mp h
    have hne := (List.mem_filter.mp hx).2
    simp [hx'] at hne
  recent r' l' a h ha := by
    rcases List.mem_append.mp h with h | h
    · obtain ⟨x, hx, hx'⟩ := List.mem_map.mp h
      obtain ⟨rfl, rfl, rfl⟩ : x.1 = r' ∧ x.2.1 = l' ∧ x.2.2 + 1 = a := by
        simpa [Prod.mk.injEq] using hx'
      obtain ⟨hx, hne⟩ := List.mem_filter.mp hx
      have hrec := hw.recent x.1 x.2.1 x.2.2 hx (by omega)
      obtain ⟨before, after, he, hle⟩ :=
        recent_filter (by simpa using hne) (recent_drop ha hrec)
      exact ⟨before, after ++ [(r, l)], by rw [he]; simp, by simpa using hle⟩
    · obtain ⟨rfl, rfl, rfl⟩ : r' = r ∧ l' = l ∧ a = 0 := by simpa using h
      exact ⟨_, [], rfl, Nat.le_refl _⟩

theorem forget (hw : Follows w) {b : List (String × String)}
    (hb : b = w.echoes.batches ∨ b = w.echoes.batches.filter (·.1 != r)) :
    Follows { echoes := { w.echoes with batches := b }, opened := w.opened.filter (·.1 != r) } where
  nodup := by
    rcases hb with rfl | rfl
    · exact hw.nodup
    · exact hw.nodup.sublist (List.filter_sublist.map _)
  recent r' l a h ha := by
    obtain ⟨h, hne⟩ := List.mem_filter.mp h
    have hrec := hw.recent r' l a h ha
    rcases hb with rfl | rfl
    · exact hrec
    · exact recent_filter (by simpa using hne) hrec

theorem of_batches (hw : Follows w) {e : Echoes} (he : e.batches = w.echoes.batches) :
    Follows { w with echoes := e } :=
  ⟨he ▸ hw.nodup, fun r l a h ha => he ▸ hw.recent r l a h ha⟩

theorem observe (hw : Follows w) (currentNick : String) (labeled : Bool) :
    Follows (w.next (.observe m currentNick labeled)) := by
  simp only [LabelWatch.next, Echoes.next]
  cases hm : m.command with
  | batch reference kind params =>
    simp only [Echoes.observe, hm, Echoes.observeBatch, openedAfter, batchLabel]
    cases stripFirst '+' reference with
    | some r =>
      cases Tags.tagValue m "label" with
      | none => exact hw.forget (Or.inl rfl)
      | some label =>
        cases hg : w.echoes.pending.any (·.label == some label) && Tags.followedBatch r with
        | true => simpa only [Option.filter, hg, if_true] using hw.openBatch
        | false =>
          simpa only [Option.filter, hg, Bool.false_eq_true, if_false] using hw.forget (Or.inl rfl)
    | none =>
      cases stripFirst '-' reference with
      | none => exact hw
      | some r =>
        dsimp only
        split_ifs
        · exact hw.forget (Or.inr (eraseP_eq_filter hw.nodup))
        · exact hw.forget (Or.inl rfl)
  | _ =>
    simp only [openedAfter, hm]
    exact hw.of_batches (Echoes.observe_batches (by simp [hm]) currentNick labeled)

theorem lineLabel (hw : Follows w) (h : w.labelOf m = some l) : w.echoes.lineLabel m = some l := by
  unfold labelOf at h
  unfold Echoes.lineLabel
  cases ht : Tags.tagValue m "label" with
  | some own => rwa [ht] at h
  | none =>
    rw [ht, Option.none_or] at h
    rw [Option.none_or]
    obtain ⟨r, hr, hf⟩ := Option.bind_eq_some_iff.mp h
    obtain ⟨x, hx, rfl⟩ := Option.map_eq_some_iff.mp hf
    obtain ⟨hp, -⟩ := List.find?_eq_some_iff_append.mp hx
    have hmem := List.mem_of_find?_eq_some hx
    obtain ⟨hxr, ha⟩ : x.1 = r ∧ x.2.2 < maxLabelBatches := by simpa using hp
    obtain ⟨before, after, he, -⟩ := hw.recent x.1 x.2.1 x.2.2 hmem ha
    have hfirst : w.echoes.batches.find? (·.1 == r) = some (x.1, x.2.1) := by
      refine List.find?_eq_some_iff_append.mpr ⟨by simpa using hxr, before, after, he, ?_⟩
      intro y hy
      have hn := hw.nodup
      rw [he, List.map_append, List.map_cons] at hn
      have hd := (List.nodup_append.mp hn).2.2 y.1 (List.mem_map_of_mem hy) x.1 List.mem_cons_self
      simpa [← hxr] using hd
    simp [hr, hfirst]

theorem next (hw : Follows w) (c : EchoCall) : Follows (w.next c) := by
  cases c with
  | observe m currentNick labeled => exact hw.observe currentNick labeled
  | reset => exact ⟨List.nodup_nil, fun r l a h => by cases h⟩
  | track localId target notice text keepText labeled now =>
    refine hw.of_batches ?_
    simp only [Echoes.next, Echoes.track]
    split_ifs <;> rfl
  | untrack localId => exact hw.of_batches rfl
  | expire now => exact hw.of_batches rfl

theorem keepsOthers (hw : Follows w) (c : EchoCall) : w.KeepsOthers c := by
  cases c with
  | observe m currentNick labeled =>
    intro l hl
    have hl := hw.lineLabel hl
    unfold Echoes.observe
    split
    · rw [(Echoes.observeBatch_pending _ _ _).1]
    · rw [hl]
      dsimp only
      rcases Echoes.settleFirst_cases (e := w.echoes)
        (fun p ev => Echoes.labeledEvent_localId) with h | ⟨before, p, after, ev, he, hp, -, h⟩
      · rw [h]
      · rw [h, he, List.filter_append, List.filter_append, List.filter_cons_of_neg]
        simpa using hp
  | _ => trivial

end Follows

end LabelWatch

open Echoes LabelWatch in
/-- Messages tracked are settled or dropped or still waiting, each once; labels are issued once; the
table stays within its bound; a line that carries a label settles no message under another one. -/
theorem messages_settle_once (calls : List EchoCall) :
    let final := Machine.exec Echoes.next {} calls
    (∀ id, (Machine.collect tracked Echoes.next {} calls).count id =
      (Machine.collect settled Echoes.next {} calls).count id +
        (Machine.collect untracked Echoes.next {} calls).count id + final.outstanding.count id) ∧
    (Machine.collect issued Echoes.next {} calls).Nodup ∧
    final.pending.length ≤ maxPending ∧
    Machine.Along KeepsOthers LabelWatch.next {} calls := by
  refine ⟨fun id => ?_, labels_nodup calls |>.1, ?_, ?_⟩
  · have hb := Machine.collect_count Echoes.balance {} calls id
    rw [Machine.count_collect_append] at hb
    simpa [outstanding] using hb
  · exact Machine.exec_invariant' (fun e : Echoes => e.pending.length ≤ maxPending)
      (fun e c h => length_pending_next h c) (Nat.zero_le _)
  · exact Machine.along_of_invariant Follows (fun _ c h => h.next c) (fun _ c h => h.keepsOthers c)
      ⟨List.nodup_nil, fun r l a h => by cases h⟩

namespace LabelWatch

/-- The open label batches as the lines name them, whether they are followed or not. -/
def saidAfter (said : List (String × String)) (m : IrcMessage) : List (String × String) :=
  match m.command with
  | .batch reference _ _ =>
    match stripFirst '+' reference, stripFirst '-' reference with
    | some reference, _ =>
      said.filter (·.1 != reference) ++ (Tags.tagValue m "label").toList.map fun l => (reference, l)
    | none, some reference => said.filter (·.1 != reference)
    | none, none => said
  | _ => said

def saidLabel (said : List (String × String)) (m : IrcMessage) : Option String :=
  (Tags.tagValue m "label").or
    ((m.batchTag.bind fun reference => said.find? (·.1 == reference)).map Prod.snd)

def tagged (tags : List (String × String)) (source : Option Prefix) (command : IrcCommand) :
    IrcMessage :=
  { tags := some (tags.map fun t => ⟨t.1, some t.2⟩), source, command }

/-- Two messages of the same text: the labeled one is given up, the other one has no label. -/
def unlabeledCopy : List EchoCall :=
  [.track 1 "#a" false "hi" false true 0, .expire 60000, .track 2 "#a" false "hi" false false 60000]

def lateBatch : IrcMessage := tagged [("label", "c1")] none (.batch "+b" none none)

def lateLine : IrcMessage :=
  tagged [("batch", "b")] (some (.nickname "me" "" "")) (.privmsg "#a" "hi")

end LabelWatch

open LabelWatch in
/-- A line in a batch with the label of a message given up settles a message without a label. -/
theorem late_batch_settles_unlabeled :
    saidLabel (saidAfter [] lateBatch) lateLine = some "c1" ∧
    let e := Machine.exec Echoes.next {} (unlabeledCopy ++ [.observe lateBatch "me" true])
    e.pending.map (fun p => (p.localId, p.label)) = [(2, none)] ∧
      e.settled (.observe lateLine "me" true) = [2] := by
  decide +kernel

end CayenChat
