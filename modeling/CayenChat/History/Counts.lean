import CayenChat.History.Lines

/-! # What a request is reported to have brought

While a request is answered, the lines streamed for it, those of its reply and
the end tag are counted with it. Each way of ending reports the counts, except
a withdrawal, which reports a request as one without lines.
-/

namespace CayenChat

def HistoryCall.closes : HistoryCall → Bool
  | .observe m => (HistoryRequests.closedBatch m).isSome
  | _ => false

def askedLines : IrcCommand → ℕ
  | .raw _ args => ((args.getLast?.bind String.toNat?).getD 0)
  | _ => 0

def Observed.streamed : Observed → List Streamed
  | message line => [line]
  | _ => []

@[simp] theorem Observed.streamed_consumed : Observed.consumed.streamed = [] := rfl
@[simp] theorem Observed.streamed_unrelated : Observed.unrelated.streamed = [] := rfl
@[simp] theorem Observed.streamed_message (line : Streamed) :
    (Observed.message line).streamed = [line] := rfl

namespace HistoryRequests

def streamed (h : HistoryRequests) : HistoryCall → List Streamed
  | .observe m => (h.observe m).2.streamed
  | _ => []

def inReply (h : HistoryRequests) (o : Outstanding) (m : IrcMessage) : Bool :=
  !h.hangsOffUntracked m && !m.batchTag.any h.discarding.contains && m.batchTag.any o.holds

/-- The messages of the reply that a call reads, kept or dropped. -/
def replied (h : HistoryRequests) : HistoryCall → List HistoryMessage
  | .observe m =>
    match h.outstanding with
    | some o =>
      if h.inReply o m && !o.page.isTargets then
        (historyLine m o.channel h.casemapping).toList
      else []
    | none => []
  | _ => []

def endTagged (h : HistoryRequests) : HistoryCall → List IrcMessage
  | .observe m =>
    if h.outstanding.any (·.reference.isNone) &&
        (h.observe m).1.outstanding.any (·.reference.isSome) && Tags.hasTag m endTag then [m]
    else []
  | _ => []

def reportedSent (h : HistoryRequests) : HistoryCall → List Finished
  | .forget _ => []
  | .reset => h.reset.2.take h.beingAnswered.length
  | c => h.reported c

end HistoryRequests

/-- A report tells how many lines were streamed, and whether lines may be missing. -/
structure Finished.Accurate (f : Finished) (c : HistoryCall) (asked : ℕ) (streamed : List Streamed)
    (replied : List HistoryMessage) (endTagged : List IrcMessage) : Prop where
  lines : f.lines = streamed.length
  bound : f.lines ≤ maxHistoryLines
  incomplete : f.incomplete = true ↔
    f.page = .resume ∧ f.failed = false ∧ c.closes = true ∧ endTagged = [] ∧
      asked ≤ replied.length

namespace HistoryRequests

variable {h : HistoryRequests} {m : IrcMessage} {o : Outstanding} {c : HistoryCall}
  {ks : List Streamed} {ls : List HistoryMessage} {ts : List IrcMessage}

/-! ## What a line does to the outstanding request -/

/-- The outstanding request after a line, what became of the line, and the messages of the reply
in it. -/
inductive Reads (h : HistoryRequests) (o : Outstanding) (m : IrcMessage) :
    Option Outstanding → Observed → List HistoryMessage → Prop
  | passes {what : Observed} (hw : what = .consumed ∨ what = .unrelated) :
    Reads h o m (some o) what []
  | nests {r : String} (hr : o.holds r = true) (nested : List String) (nestedOverflowed : Bool) :
    Reads h o m (some { o with nested, nestedOverflowed }) .consumed []
  | opens (hr : o.reference = none) (r : String) (ended : Bool)
    (he : o.page.isTargets = false → ended = Tags.hasTag m endTag) :
    Reads h o m (some { o with reference := some r, ended }) .consumed []
  | lists (ht : o.page.isTargets = true) (targets : List HistoryTarget) :
    Reads h o m (some { o with targets }) .consumed []
  | keeps {r : String} (hr : o.holds r = true) (hk : o.kept < maxHistoryLines)
    (line : HistoryMessage) :
    Reads h o m (some { o with kept := o.kept + 1 }) (.message ⟨o.channel, o.page, line⟩) [line]
  | drops {r : String} (hr : o.holds r = true) (line : HistoryMessage) :
    Reads h o m (some { o with dropped := o.dropped + 1 }) .consumed [line]
  | closes {r : String} (hr : o.reference = some r) (hc : closedBatch m = some r) :
    Reads h o m none (.finished (h.finish o).2) []
  | fails (hr : o.reference = none) (hc : closedBatch m = none) (note : Option String) :
    Reads h o m none (.finished (Finished.failure o.channel o.page note)) []

theorem historyLine_batch {channel : String} {mapping : CaseMapping}
    (hb : isBatchLine m = true) : historyLine m channel mapping = none := by
  unfold isBatchLine at hb
  split at hb
  · rename_i hm
    simp [historyLine, hm]
  · cases hb

theorem replied_of_not_inReply (ho : h.outstanding = some o) (hi : h.inReply o m = false) :
    h.replied (.observe m) = [] := by
  simp [replied, ho, hi]

theorem replied_batch (hb : isBatchLine m = true) : h.replied (.observe m) = [] := by
  cases ho : h.outstanding with
  | none => simp [replied, ho]
  | some o => simp [replied, ho, historyLine_batch hb]

theorem reads_close {r : String} (ho : h.outstanding = some o) (hc : closedBatch m = some r) :
    Reads h o m (h.observeClose r).1.outstanding (h.observeClose r).2 [] := by
  unfold observeClose
  split_ifs
  · rw [ho]
    exact .passes (.inl rfl)
  · rw [ho]
    dsimp only
    split_ifs with hn hr
    · exact .nests (r := r) (by
        simpa [Outstanding.holds] using Or.inr (List.contains_iff_mem.mp hn)) _ _
    · rw [(SameTables.finish h o).outstanding]
      exact .closes (beq_iff_eq.mp hr) hc
    · rw [ho]
      exact .passes (.inr rfl)

theorem reads_reply {r target : String} (ho : h.outstanding = some o) :
    Reads h o m (h.observeReply r target (Tags.hasTag m endTag)).1.outstanding
      (h.observeReply r target (Tags.hasTag m endTag)).2 [] := by
  unfold observeReply
  split
  · rename_i o' ho'
    obtain ⟨hs, hp⟩ := Option.filter_eq_some_iff.mp ho'
    obtain rfl := Option.some.inj (ho.symm.trans hs)
    rw [Bool.and_eq_true, Option.isNone_iff_eq_none] at hp
    exact .opens hp.1 r _ fun _ => rfl
  · split_ifs
    · rw [ho]
      exact .passes (.inl rfl)
    · rw [ho]
      exact .passes (.inr rfl)

theorem reads_root {r : String} {kind : Option String} {params : Option (List String)}
    (ho : h.outstanding = some o) :
    Reads h o m (h.observeRoot r kind params (Tags.hasTag m endTag)).1.outstanding
      (h.observeRoot r kind params (Tags.hasTag m endTag)).2 [] := by
  unfold observeRoot
  split_ifs
  · split
    · rename_i o' ho'
      obtain ⟨hs, hp⟩ := Option.filter_eq_some_iff.mp ho'
      obtain rfl := Option.some.inj (ho.symm.trans hs)
      rw [Bool.and_eq_true, Option.isNone_iff_eq_none] at hp
      refine .opens hp.1 r o.ended fun ht => ?_
      rw [hp.2] at ht
      cases ht
    · rw [ho]
      exact .passes (.inr rfl)
  · split
    · rw [ho]
      exact .passes (.inr rfl)
    · exact reads_reply ho
  · rw [ho]
    exact .passes (.inr rfl)

theorem reads_open {r : String} {kind : Option String} {params : Option (List String)}
    (ho : h.outstanding = some o) :
    Reads h o m (h.observeOpen m r kind params).1.outstanding (h.observeOpen m r kind params).2
      [] := by
  unfold observeOpen
  split_ifs
  · rw [ho]
    exact .passes (.inr rfl)
  · split
    · rename_i h' hn
      obtain ⟨p, -, hn⟩ := Option.bind_eq_some_iff.mp hn
      split at hn
      · obtain rfl := Option.some.inj hn
        split_ifs
        · rw [ho]
          exact .passes (.inl rfl)
        · rw [ho]
          exact .passes (.inl rfl)
      · obtain ⟨o', ho', rfl⟩ := Option.map_eq_some_iff.mp hn
        obtain ⟨hs, hp⟩ := Option.filter_eq_some_iff.mp ho'
        obtain rfl := Option.some.inj (ho.symm.trans hs)
        unfold Outstanding.nest
        split_ifs
        · exact .nests hp _ _
        · exact .nests hp _ _
    · exact reads_root ho

theorem reads_inReply (ho : h.outstanding = some o) (hi : h.inReply o m = true) :
    Reads h o m (h.observeInReply o m).1.outstanding (h.observeInReply o m).2
      (h.replied (.observe m)) := by
  obtain ⟨r, -, hr⟩ := (Option.any_eq_true ..).mp (Bool.and_eq_true_iff.mp hi).2
  have hreplied : h.replied (.observe m) =
      if o.page.isTargets then [] else (historyLine m o.channel h.casemapping).toList := by
    cases ht : o.page.isTargets <;> simp [replied, ho, hi, ht]
  rw [hreplied]
  unfold observeInReply
  cases ht : o.page.isTargets with
  | true =>
    rw [if_pos rfl, if_pos rfl]
    split
    · dsimp only
      split_ifs
      · exact .lists ht _
      · rw [ho]
        exact .passes (.inl rfl)
    · rw [ho]
      exact .passes (.inl rfl)
  | false =>
    rw [if_neg Bool.false_ne_true, if_neg Bool.false_ne_true]
    cases hl : historyLine m o.channel h.casemapping with
    | none =>
      dsimp only
      rw [ho]
      exact .passes (.inl rfl)
    | some line =>
      dsimp only
      split_ifs with hk
      · exact .keeps hr hk line
      · exact .drops hr line

theorem reads_outside (ho : h.outstanding = some o) (hc : closedBatch m = none) :
    Reads h o m (h.observeOutside o m).1.outstanding (h.observeOutside o m).2 [] := by
  unfold observeOutside
  split
  · rename_i note hn
    split_ifs at hn with hr
    rw [(SameTables.fallBack _ _).outstanding]
    exact .fails (Option.isNone_iff_eq_none.mp hr) hc _
  · rw [ho]
    exact .passes (.inr rfl)

theorem observe_unrelated (hh : h.hangsOffUntracked m = false) (hb : isBatchLine m = true)
    (hc : closedBatch m = none) (hp : openedBatch m = none) : h.observe m = (h, .unrelated) := by
  unfold isBatchLine at hb
  split at hb
  · rename_i hm
    simp only [closedBatch, openedBatch, hm] at hc hp
    simp [observe, hh, hm, observeBatch, hc, hp]
  · cases hb

theorem observe_message (ho : h.outstanding = some o) (hh : h.hangsOffUntracked m = false)
    (hb : isBatchLine m = false) : h.observe m =
      if m.batchTag.any h.discarding.contains then (h, .consumed)
      else if m.batchTag.any o.holds then h.observeInReply o m else h.observeOutside o m := by
  unfold observe
  rw [if_neg (by simp [hh]), ho]
  split
  · rename_i hm
    simp [isBatchLine, hm] at hb
  · rfl

theorem observe_reads (ho : h.outstanding = some o) (m : IrcMessage) :
    Reads h o m (h.observe m).1.outstanding (h.observe m).2 (h.replied (.observe m)) := by
  cases hh : h.hangsOffUntracked m with
  | true =>
    rw [replied_of_not_inReply ho (by simp [inReply, hh]), observe_hangsOff hh, ho]
    exact .passes (.inl rfl)
  | false =>
    cases hb : isBatchLine m with
    | true =>
      rw [replied_batch hb]
      cases hc : closedBatch m with
      | some r =>
        rw [observe_close hh hc]
        exact reads_close ho hc
      | none =>
        cases hp : openedBatch m with
        | some r =>
          obtain ⟨reference, kind, params, -, he⟩ := observe_open hh hp
          rw [he]
          exact reads_open ho
        | none =>
          rw [observe_unrelated hh hb hc hp, ho]
          exact .passes (.inr rfl)
    | false =>
      rw [observe_message ho hh hb]
      split_ifs with hd ht
      · rw [replied_of_not_inReply ho (by simp [inReply, hd]), ho]
        exact .passes (.inl rfl)
      · exact reads_inReply ho (by simp [inReply, hh, hd, ht])
      · rw [replied_of_not_inReply ho (by simp [inReply, ht])]
        have hc : closedBatch m = none := by
          unfold closedBatch
          split
          · rename_i hm
            simp [isBatchLine, hm] at hb
          · rfl
        exact reads_outside ho hc

/-! ## The counts of a request -/

/-- What the outstanding request has counted of its reply. -/
structure Counted (o : Outstanding) (ks : List Streamed) (ls : List HistoryMessage)
    (ts : List IrcMessage) : Prop where
  kept : o.kept = ks.length
  bound : o.kept ≤ maxHistoryLines
  lines : o.kept + o.dropped = ls.length
  ended : o.page.isTargets = false → (o.ended = true ↔ ts ≠ [])
  unopened : o.reference = none → o.nested = [] ∧ o.kept = 0 ∧ ts = []
  own : ∀ line ∈ ks, (line.channel, line.page) = o.request

theorem Counted.holds (hk : Counted o ks ls ts) {r : String} (hr : o.holds r = true) :
    o.reference ≠ none := by
  intro hn
  simp [Outstanding.holds, hn, (hk.unopened hn).1] at hr

def opening (o : Outstanding) (m : IrcMessage) (next : Option Outstanding) : List IrcMessage :=
  if o.reference.isNone && next.any (·.reference.isSome) && Tags.hasTag m endTag then [m] else []

theorem endTagged_eq (ho : h.outstanding = some o) (m : IrcMessage) :
    h.endTagged (.observe m) = opening o m (h.observe m).1.outstanding := by
  simp [endTagged, opening, ho]

theorem opening_same {o' : Outstanding} (hr : o'.reference = o.reference) :
    opening o m (some o') = [] := by
  unfold opening
  rw [Option.any_some, hr]
  cases o.reference <;> simp

theorem Counted.reads (hk : Counted o ks ls ts) {next : Option Outstanding} {what : Observed}
    {lines : List HistoryMessage} (hr : Reads h o m next what lines) (he : what.ended = []) :
    ∃ o', next = some o' ∧ o'.request = o.request ∧ o'.limit = o.limit ∧
      Counted o' (ks ++ what.streamed) (ls ++ lines) (ts ++ opening o m next) := by
  cases hr with
  | passes hw =>
    refine ⟨o, rfl, rfl, rfl, ?_⟩
    rw [opening_same, List.append_nil, List.append_nil]
    · rcases hw with rfl | rfl <;> simpa using hk
    · rfl
  | nests hr nested nestedOverflowed =>
    refine ⟨_, rfl, rfl, rfl, ?_⟩
    rw [opening_same, Observed.streamed_consumed, List.append_nil, List.append_nil, List.append_nil]
    · exact { hk with unopened := fun hn => absurd hn (hk.holds hr) }
    · rfl
  | opens hr r ended hend =>
    obtain ⟨-, hkept, rfl⟩ := hk.unopened hr
    refine ⟨_, rfl, rfl, rfl, ?_⟩
    rw [Observed.streamed_consumed, List.append_nil, List.append_nil, List.nil_append]
    refine { hk with ended := fun ht => ?_, unopened := fun hn => by cases hn }
    rw [hend ht]
    simp [opening, hr]
  | lists ht targets =>
    refine ⟨_, rfl, rfl, rfl, ?_⟩
    rw [opening_same, Observed.streamed_consumed, List.append_nil, List.append_nil, List.append_nil]
    · exact { hk with }
    · rfl
  | keeps hr hlt line =>
    refine ⟨_, rfl, rfl, rfl, ?_⟩
    rw [opening_same, Observed.streamed_message, List.append_nil]
    · constructor
      · simp [hk.kept]
      · exact hlt
      · have := hk.lines
        simp only [List.length_append, List.length_singleton]
        omega
      · exact hk.ended
      · exact fun hn => absurd hn (hk.holds hr)
      · intro line' hl
        rcases List.mem_append.mp hl with hl | hl
        · exact hk.own line' hl
        · rw [List.mem_singleton.mp hl]
          rfl
    · rfl
  | drops hr line =>
    refine ⟨_, rfl, rfl, rfl, ?_⟩
    rw [opening_same, Observed.streamed_consumed, List.append_nil, List.append_nil]
    · refine { hk with lines := ?_, unopened := fun hn => absurd hn (hk.holds hr) }
      have := hk.lines
      simp only [List.length_append, List.length_singleton]
      omega
    · rfl
  | closes => cases he
  | fails => cases he

theorem Counted.call (hk : Counted o ks ls ts) (ho : h.outstanding = some o)
    (hr : h.reportedSent c = []) : ∃ o', (h.next c).outstanding = some o' ∧
      o'.request = o.request ∧ o'.limit = o.limit ∧
      Counted o' (ks ++ h.streamed c) (ls ++ h.replied c) (ts ++ h.endTagged c) := by
  have hsame : (h.next c).outstanding = some o → h.streamed c = [] → h.replied c = [] →
      h.endTagged c = [] → ∃ o', (h.next c).outstanding = some o' ∧
        o'.request = o.request ∧ o'.limit = o.limit ∧
        Counted o' (ks ++ h.streamed c) (ls ++ h.replied c) (ts ++ h.endTagged c) := by
    intro hn h1 h2 h3
    refine ⟨o, hn, rfl, rfl, ?_⟩
    rw [h1, h2, h3, List.append_nil, List.append_nil, List.append_nil]
    exact hk
  have hother : (∀ m, c ≠ .observe m) → (∀ now, c ≠ .tick now) → c ≠ .reset →
      (∀ now, c ≠ .nextRequest now) → (h.next c).outstanding = some o := fun h1 h2 h3 h4 =>
    (SameTables.next h h1 h2 h3 h4).outstanding.trans ho
  cases c with
  | observe m =>
    have hreads := hk.reads (observe_reads ho m) hr
    rwa [← endTagged_eq ho] at hreads
  | tick now =>
    refine hsame ?_ rfl rfl rfl
    have hr : (h.tick now).2.toList.flatMap Observed.ended = [] := hr
    unfold HistoryRequests.next
    dsimp only
    unfold HistoryRequests.tick at hr ⊢
    rw [ho] at hr ⊢
    dsimp only at hr ⊢
    split_ifs at hr ⊢ with hlt
    · exact ho
    · cases hr
  | reset =>
    simp [reportedSent, reset, ho, beingAnswered] at hr
  | nextRequest now =>
    refine hsame ?_ rfl rfl rfl
    unfold HistoryRequests.next HistoryRequests.nextRequest
    rw [ho]
    exact ho
  | _ =>
    refine hsame (hother ?_ ?_ ?_ ?_) rfl rfl rfl <;> first | exact fun _ h => by cases h | exact fun h => by cases h

theorem Counted.exec {calls : List HistoryCall} (hk : Counted o ks ls ts)
    (ho : h.outstanding = some o) (hr : Machine.collect reportedSent next h calls = []) :
    ∃ o', (Machine.exec next h calls).outstanding = some o' ∧ o'.request = o.request ∧
      o'.limit = o.limit ∧ Counted o' (ks ++ Machine.collect streamed next h calls)
        (ls ++ Machine.collect replied next h calls)
        (ts ++ Machine.collect endTagged next h calls) := by
  induction calls generalizing h o ks ls ts with
  | nil =>
    refine ⟨o, ho, rfl, rfl, ?_⟩
    simpa using hk
  | cons c calls ih =>
    rw [Machine.collect_cons, List.append_eq_nil_iff] at hr
    obtain ⟨o', ho', hreq, hlim, hk'⟩ := hk.call ho hr.1
    obtain ⟨o'', ho'', hreq', hlim', hk''⟩ := ih hk' ho' hr.2
    refine ⟨o'', ho'', hreq'.trans hreq, hlim'.trans hlim, ?_⟩
    simpa [List.append_assoc] using hk''

theorem finish_report (h : HistoryRequests) (o : Outstanding) : ∃ note, (h.finish o).2 =
    { channel := o.channel, page := o.page, lines := o.kept, targets := o.targets.length,
      ended := o.ended,
      incomplete := o.page == .resume && !o.ended && decide (o.limit ≤ o.kept + o.dropped),
      note } := by
  unfold HistoryRequests.finish
  cases o.page.isTargets <;> exact ⟨_, rfl⟩

theorem accurate_empty {f : Finished} {asked : ℕ} (hf : f.lines = 0) (hi : f.incomplete = false)
    (hc : f.failed = true) : f.Accurate c asked ks ls ts ↔ ks = [] := by
  constructor
  · intro ha
    exact List.length_eq_zero_iff.mp (ha.lines.symm.trans hf)
  · rintro rfl
    refine ⟨hf, by rw [hf]; exact Nat.zero_le _, ?_⟩
    rw [hi, hc]
    simp

theorem Counted.reported (hk : Counted o ks ls ts) (ho : h.outstanding = some o) {f : Finished}
    (hf : f ∈ h.reportedSent c) : f.request = o.request ∧
      (f.Accurate c o.limit ks ls ts ↔ (c = .reset → ks = [])) := by
  cases c with
  | observe m =>
    have hreads := observe_reads ho m
    have hf : f ∈ (h.observe m).2.ended := hf
    generalize (h.observe m).1.outstanding = next at hreads
    generalize (h.observe m).2 = what at hreads hf
    generalize h.replied (.observe m) = lines at hreads
    cases hreads with
    | passes hw => rcases hw with rfl | rfl <;> cases hf
    | nests => cases hf
    | opens => cases hf
    | lists => cases hf
    | keeps => cases hf
    | drops => cases hf
    | closes hr hc =>
      obtain rfl := List.mem_singleton.mp hf
      obtain ⟨note, he⟩ := finish_report h o
      rw [he]
      refine ⟨rfl, fun _ hc => (by cases hc), fun _ => ⟨hk.kept, hk.bound, ?_⟩⟩
      dsimp only
      rw [Bool.and_eq_true, Bool.and_eq_true, beq_iff_eq, decide_eq_true_eq, hk.lines]
      constructor
      · rintro ⟨⟨hp, hend⟩, hlim⟩
        have hts := hk.ended (by rw [hp]; rfl)
        refine ⟨hp, rfl, by rw [HistoryCall.closes, hc]; rfl, ?_, hlim⟩
        rw [Bool.not_eq_true', ← Bool.not_eq_true, hts, not_not] at hend
        exact hend
      · rintro ⟨hp, -, -, rfl, hlim⟩
        have hts := hk.ended (by rw [hp]; rfl)
        refine ⟨⟨hp, ?_⟩, hlim⟩
        rw [Bool.not_eq_true', ← Bool.not_eq_true, hts]
        exact fun hne => hne rfl
    | fails hr hc note =>
      obtain rfl := List.mem_singleton.mp hf
      obtain ⟨-, hkept, -⟩ := hk.unopened hr
      have hks : ks = [] := List.length_eq_zero_iff.mp (hk.kept.symm.trans hkept)
      refine ⟨rfl, ?_⟩
      rw [accurate_empty rfl rfl rfl]
      exact ⟨fun _ _ => hks, fun _ => hks⟩
  | tick now =>
    have hf : f ∈ (h.tick now).2.toList.flatMap Observed.ended := hf
    unfold HistoryRequests.tick at hf
    rw [ho] at hf
    dsimp only at hf
    split_ifs at hf with hlt
    · cases hf
    · obtain rfl := List.mem_singleton.mp hf
      refine ⟨rfl, fun _ hc => (by cases hc), fun _ => ⟨hk.kept, hk.bound, ?_⟩⟩
      simp [Finished.failure]
  | reset =>
    have hf : f = Finished.failure o.channel o.page none := by
      simpa [reportedSent, reset, ho, beingAnswered] using hf
    subst hf
    refine ⟨rfl, ?_⟩
    rw [accurate_empty rfl rfl rfl]
    exact ⟨fun hks _ => hks, fun hks => hks rfl⟩
  | _ => cases hf

end HistoryRequests

open HistoryRequests Machine

theorem askedLines_request (q : Queued) (limit : ℕ) : askedLines (requestCommand q limit) = limit := by
  unfold requestCommand
  split <;> simp [askedLines]

theorem nextRequest_some {h : HistoryRequests} {now : Instant}
    {request : String × Page × IrcCommand} (hs : (h.nextRequest now).2 = some request) :
    ∃ q queue, h.nextRequest now =
      ({ h with
          queue := queue
          outstanding := some { channel := q.channel, page := q.page, sent := now
                                limit := min q.limit h.limit } },
        some (q.channel, q.page, requestCommand q (min q.limit h.limit))) := by
  unfold nextRequest at hs ⊢
  split at hs
  · exact ⟨_, _, rfl⟩
  · cases hs

/-- A request is handed out, calls leave it unanswered, and another one reports it as ended. -/
structure Ends (h : HistoryRequests) (now : Instant) (during : List HistoryCall) (c : HistoryCall)
    (request : String × Page × IrcCommand) (f : Finished) : Prop where
  sent : (h.nextRequest now).2 = some request
  answering : collect reportedSent next (h.nextRequest now).1 during = []
  reported : f ∈ (exec next (h.nextRequest now).1 during).reportedSent c

/-- The report of a request that was handed out tells its lines accurately, unless the request is
withdrawn after lines were streamed for it. -/
theorem finished_accurate_iff {h : HistoryRequests} {now : Instant} {during : List HistoryCall}
    {c : HistoryCall} {request : String × Page × IrcCommand} {f : Finished}
    (he : Ends h now during c request f) :
    f.request = (request.1, request.2.1) ∧
    (∀ line ∈ collect streamed next (h.nextRequest now).1 during,
      (line.channel, line.page) = (request.1, request.2.1)) ∧
    (f.Accurate c (askedLines request.2.2) (collect streamed next (h.nextRequest now).1 during)
        (collect replied next (h.nextRequest now).1 during)
        (collect endTagged next (h.nextRequest now).1 during) ↔
      (c = .reset → collect streamed next (h.nextRequest now).1 during = [])) := by
  obtain ⟨hs, ha, hf⟩ := he
  obtain ⟨q, queue, hn⟩ := nextRequest_some hs
  rw [hn] at hs ha hf ⊢
  obtain rfl := Option.some.inj hs
  have hk : Counted ⟨q.channel, q.page, now, none, false, min q.limit h.limit, [], false, 0, [], 0⟩
      [] [] [] := by
    constructor <;> simp
  obtain ⟨o, ho, hreq, hlim, hk⟩ := hk.exec rfl ha
  obtain ⟨hfr, hacc⟩ := hk.reported ho hf
  rw [List.nil_append, List.nil_append, List.nil_append, hlim] at hacc
  refine ⟨hfr.trans hreq, fun line hl => ?_, ?_⟩
  · exact (hk.own line (List.mem_append_right _ hl)).trans hreq
  · rw [askedLines_request]
    exact hacc

def waitingRequests : HistoryRequests := (({} : HistoryRequests).enqueue "#a").1

def replyBegins : List HistoryCall :=
  [.observe { command := .batch "+r" (some (.custom "CHATHISTORY")) (some ["#a"]) },
    .observe { tags := some [⟨"batch", some "r"⟩], command := .privmsg "#a" "hi" }]

/-- History is withdrawn in the middle of the reply: its line is not counted. -/
theorem withdrawn_without_lines : ∃ request f,
    Ends waitingRequests 0 replyBegins .reset request f ∧
      ¬ f.Accurate .reset (askedLines request.2.2)
        (collect streamed next (waitingRequests.nextRequest 0).1 replyBegins)
        (collect replied next (waitingRequests.nextRequest 0).1 replyBegins)
        (collect endTagged next (waitingRequests.nextRequest 0).1 replyBegins) := by
  refine ⟨("#a", .latest, .raw "CHATHISTORY" ["LATEST", "#a", "*", "50"]),
    Finished.failure "#a" .latest none, ⟨?_, ?_, ?_⟩, fun ha => ?_⟩
  · decide +kernel
  · decide +kernel
  · decide +kernel
  · have hlines : (0 : ℕ) = (collect streamed next (waitingRequests.nextRequest 0).1
        replyBegins).length := ha.lines
    revert hlines
    decide +kernel

/-- The reply ends, and its line is counted. -/
theorem answered_with_line : Finished.Accurate { channel := "#a", page := .latest, lines := 1 }
    (.observe { command := .batch "-r" none none }) 50
    (collect streamed next (waitingRequests.nextRequest 0).1 replyBegins)
    (collect replied next (waitingRequests.nextRequest 0).1 replyBegins)
    (collect endTagged next (waitingRequests.nextRequest 0).1 replyBegins) := by
  have he : Ends waitingRequests 0 replyBegins (.observe { command := .batch "-r" none none })
      ("#a", .latest, .raw "CHATHISTORY" ["LATEST", "#a", "*", "50"])
      { channel := "#a", page := .latest, lines := 1 } := by
    constructor
    · decide +kernel
    · decide +kernel
    · decide +kernel
  have hcommand : IrcCommand.raw "CHATHISTORY" ["LATEST", "#a", "*", "50"] =
      requestCommand ⟨"#a", .latest, "*", 50⟩ 50 := by
    decide +kernel
  have hacc := (finished_accurate_iff he).2.2.mpr fun hc => (by cases hc)
  rwa [hcommand, askedLines_request] at hacc

end CayenChat
