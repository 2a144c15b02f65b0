import CayenChat.History.Exchange

/-! # Lines of an answer

What a line of an answer does to the tables, when they hold the batches of that
answer and nothing else: taken by the outstanding request, or swallowed.
-/

namespace CayenChat

namespace HistoryRequests

variable {h : HistoryRequests} {m : IrcMessage} {o : Outstanding} {r : String}

def Unopened (h : HistoryRequests) : Prop :=
  ∀ o, h.outstanding = some o → o.reference = none ∧ o.nested = [] ∧ o.nestedOverflowed = false

theorem Unopened.hangsOff (hu : h.Unopened) : h.hangsOffUntracked m = false := by
  by_contra hh
  obtain ⟨o, p, ho, -, hn, -⟩ := hangsOffUntracked_iff.mp (Bool.not_eq_false _ ▸ hh)
  rw [(hu o ho).2.2] at hn
  cases hn

theorem Unopened.holds (hu : h.Unopened) (ho : h.outstanding = some o) : o.holds r = false := by
  simp [Outstanding.holds, hu o ho]

theorem Unopened.tracks (hu : h.Unopened) : h.tracks r = true ↔ r ∈ h.discarding := by
  rw [tracks_iff]
  refine or_iff_left ?_
  rintro ⟨o, ho, hr⟩
  rw [hu.holds ho] at hr
  cases hr

theorem Unopened.of_same {h' : HistoryRequests} (hu : h.Unopened) (hs : SameTables h h') :
    h'.Unopened := by
  unfold Unopened
  rwa [hs.outstanding]

theorem unopened_none (ho : h.outstanding = none) : h.Unopened := by
  intro o h'
  rw [ho] at h'
  cases h'

theorem observeNested_none {parent : Option String} (hp : ∀ p, parent = some p → h.tracks p = false) :
    h.observeNested r parent = none := by
  cases parent with
  | none => rfl
  | some p =>
    have ht := hp p rfl
    simp only [tracks, Bool.or_eq_false_iff, Option.any_eq_false] at ht
    simp only [observeNested, Option.bind_some, ht.1, Bool.false_eq_true, if_false]
    cases ho : h.outstanding with
    | none => rfl
    | some o => simp [Option.filter, by simpa using ht.2 o ho]

theorem not_holds (ho : h.outstanding = some o) (hr : h.tracks r = false) : o.holds r = false := by
  cases hh : o.holds r with
  | false => rfl
  | true => rw [tracks_iff.mpr (Or.inr ⟨o, ho, hh⟩)] at hr; cases hr

theorem not_discarding (hr : h.tracks r = false) : r ∉ h.discarding := by
  intro hd
  rw [tracks_iff.mpr (Or.inl hd)] at hr
  cases hr

theorem failure_isSome (m : IrcMessage) (channel : String) :
    (failure m channel).isSome = Exchange.rejects m := by
  unfold Exchange.rejects failure
  split
  · split <;> rfl
  · split <;> rfl
  · rfl

theorem observeClose_other (hr : h.tracks r = false) : h.observeClose r = (h, .unrelated) := by
  unfold observeClose
  rw [if_neg (by simpa using not_discarding hr)]
  cases ho : h.outstanding with
  | none => rfl
  | some o =>
    have hh := not_holds ho hr
    simp only [Outstanding.holds, Bool.or_eq_false_iff] at hh
    simp only [hh.1, hh.2, Bool.false_eq_true, if_false]

theorem observeRoot_other {kind : Option String} {params : Option (List String)} {ended : Bool}
    (hk : kind ≠ some targetsBatch) (hk' : kind ≠ some "CHATHISTORY") :
    h.observeRoot r kind params ended = (h, .unrelated) := by
  rw [observeRoot, if_neg hk, if_neg hk']

theorem content_batches (hb : isBatchLine m = false) :
    closedBatch m = none ∧ openedBatch m = none := by
  cases hm : m.command <;> simp_all [isBatchLine, closedBatch, openedBatch]

theorem observe_inside {p : String} (hh : h.hangsOffUntracked m = false)
    (hb : isBatchLine m = false) (hp : m.batchTag = some p) :
    (p ∈ h.discarding → h.observe m = (h, .consumed)) ∧
      (p ∉ h.discarding → ∀ o, h.outstanding = some o → o.holds p = true →
        h.observe m = h.observeInReply o m) := by
  have hm (reference : String) (kind : Option BatchSubCommand) (params : Option (List String)) :
      m.command ≠ .batch reference kind params := by
    intro hm
    simp [isBatchLine, hm] at hb
  unfold observe
  rw [if_neg (by simp [hh])]
  refine ⟨fun hd => ?_, fun hd o ho hr => ?_⟩
  · split
    · exact absurd (by assumption) (hm _ _ _)
    · rw [if_pos (by simpa [hp] using hd)]
  · split
    · exact absurd (by assumption) (hm _ _ _)
    · rw [if_neg (by simpa [hp] using hd), ho]
      simp [hp, hr]

theorem observeRoot_history {kind : Option String} {params : Option (List String)} {ended : Bool}
    {target : String} (hk : kind = some "CHATHISTORY") (ht : params.bind List.head? = some target) :
    h.observeRoot r kind params ended = h.observeReply r target ended := by
  rw [observeRoot, if_neg (by rw [hk]; decide), if_pos hk, ht]

theorem observe_content (hh : h.hangsOffUntracked m = false) (hb : isBatchLine m = false)
    (ht : ∀ p, m.batchTag = some p → h.tracks p = false) :
    h.observe m = h.outstanding.elim (h, .unrelated) fun o => h.observeOutside o m := by
  have hd : m.batchTag.any h.discarding.contains = false := by
    rw [Option.any_eq_false]
    exact fun p hp => by simpa using not_discarding (ht p hp)
  unfold observe
  rw [if_neg (by simp [hh])]
  split
  · rename_i hm
    simp [isBatchLine, hm] at hb
  · rw [if_neg (by simp [hd])]
    cases ho : h.outstanding with
    | none => rfl
    | some o =>
      have hn : m.batchTag.any o.holds = false := by
        rw [Option.any_eq_false]
        exact fun p hp => by simp [not_holds ho (ht p hp)]
      simp [hn]

theorem observe_other (ht : ∀ p, m.batchTag = some p → h.tracks p = false)
    (hc : ∀ c, closedBatch m = some c → h.tracks c = false) (hr : Exchange.rejects m = false)
    (hk : Exchange.batchKind m ≠ some targetsBatch) (hk' : Exchange.batchKind m ≠ some "CHATHISTORY") :
    h.observe m = (h, .unrelated) ∨ h.observe m = (h, .consumed) := by
  cases hh : h.hangsOffUntracked m with
  | true => exact Or.inr (observe_hangsOff hh)
  | false =>
    left
    cases hcl : closedBatch m with
    | some c => rw [observe_close hh hcl, observeClose_other (hc c hcl)]
    | none =>
      cases hop : openedBatch m with
      | some n =>
        obtain ⟨reference, kind, params, hm, he⟩ := observe_open hh hop
        simp only [Exchange.batchKind, hm] at hk hk'
        rw [he, observeOpen, observeNested_none ht, observeRoot_other hk hk']
        split <;> rfl
      | none =>
        cases hb : isBatchLine m with
        | false =>
          rw [observe_content hh hb ht]
          cases ho : h.outstanding with
          | none => rfl
          | some o =>
            have hf : failure m o.channel = none := by
              rw [← Option.isNone_iff_eq_none, ← Option.not_isSome, failure_isSome, hr]; rfl
            simp [observeOutside, hf]
        | true =>
          unfold isBatchLine at hb
          split at hb
          · rename_i hm
            simp only [closedBatch, openedBatch, hm] at hcl hop
            simp [observe, hh, hm, observeBatch, hcl, hop]
          · cases hb

end HistoryRequests

namespace Exchange

open HistoryRequests

variable {s : Sent} {r : String} {children : List String} {m : IrcMessage} {o : Outstanding}

theorem observe_own_batch {h : HistoryRequests} (hd : h.discarding = []) (hu : h.Unopened)
    (ho : h.outstanding = some o) (hop : openedBatch m = some r)
    (hf : Tags.followedBatch r = true) (hc : s.channel = o.channel) (hp : s.page = o.page)
    (hab : about h s m = true) :
    ∃ ended, h.observe m =
      ({ h with outstanding := some { o with reference := some r, ended } }, .consumed) := by
  obtain ⟨reference, kind, params, hm, he⟩ := observe_open hu.hangsOff hop
  have ht : ∀ p, m.batchTag = some p → h.tracks p = false := fun p _ => by
    rw [← Bool.not_eq_true, hu.tracks, hd]; simp
  simp only [about, batchKind, batchTarget, hm, hc, hp] at hab
  rw [he, observeOpen, hf, Bool.not_true, if_neg Bool.false_ne_true, observeNested_none ht]
  dsimp only
  split_ifs at hab with hpt
  · refine ⟨o.ended, ?_⟩
    rw [observeRoot, if_pos (beq_iff_eq.mp hab), ho]
    simp [Option.filter, (hu o ho).1, hpt]
  · obtain ⟨hk, hab⟩ := Bool.and_eq_true_iff.mp hab
    obtain ⟨target, htg, hn⟩ := (Option.any_eq_true _ _).mp hab
    refine ⟨Tags.hasTag m endTag, ?_⟩
    rw [observeRoot_history (beq_iff_eq.mp hk) htg, observeReply, ho]
    simp [Option.filter, (hu o ho).1, hn]

theorem observe_late_batch {h : HistoryRequests} {target : String} (hd : h.discarding = [])
    (hu : h.Unopened) (hop : openedBatch m = some r) (hf : Tags.followedBatch r = true)
    (hk : batchKind m = some "CHATHISTORY") (htg : batchTarget m = some target)
    (hno : (h.outstanding.any fun o => o.reference.isNone && h.names o.channel target) = false)
    (hab : h.abandoned.any (h.names · target) = true) :
    h.observe m = ({ h with
      abandoned := h.abandoned.eraseP (h.names · target), discarding := [r] }, .consumed) := by
  obtain ⟨reference, kind, params, hm, he⟩ := observe_open hu.hangsOff hop
  have ht : ∀ p, m.batchTag = some p → h.tracks p = false := fun p _ => by
    rw [← Bool.not_eq_true, hu.tracks, hd]; simp
  simp only [batchKind, batchTarget, hm] at hk htg
  have hfi : (h.outstanding.filter fun o => o.reference.isNone && h.names o.channel target) = none := by
    cases ho : h.outstanding with
    | none => rfl
    | some o => simpa [ho, Option.filter] using hno
  rw [he, observeOpen, hf, Bool.not_true, if_neg Bool.false_ne_true, observeNested_none ht]
  dsimp only
  rw [observeRoot_history hk htg, observeReply, hfi]
  simp [hab, hd]

/-- What a line inside the answer does to the request it is received by. -/
structure TakesLine (h h' : HistoryRequests) (o : Outstanding) (r : String) (children : List String)
    (what : Observed) : Prop where
  discarding : h'.discarding = []
  tables : ∃ o', h'.outstanding = some o' ∧ o'.reference = some r ∧ o'.nested.Nodup ∧
    o'.nested ⊆ children ∧ (o'.nestedOverflowed = false → children ⊆ o'.nested)
  what : what = .consumed ∨ ∃ text, what = .message ⟨o.channel, o.page, text⟩

theorem observeInReply_takes {h : HistoryRequests} (hd : h.discarding = [])
    (ho : h.outstanding = some o) (href : o.reference = some r) (hnd : o.nested.Nodup)
    (hsub : o.nested ⊆ children) (hcov : o.nestedOverflowed = false → children ⊆ o.nested) :
    TakesLine h (h.observeInReply o m).1 o r children (h.observeInReply o m).2 := by
  have keep : TakesLine h h o r children .consumed :=
    ⟨hd, ⟨o, ho, href, hnd, hsub, hcov⟩, Or.inl rfl⟩
  unfold observeInReply
  split
  · split
    · dsimp only
      split
      · exact ⟨hd, ⟨_, rfl, href, hnd, hsub, hcov⟩, Or.inl rfl⟩
      · exact keep
    · exact keep
  · split
    · split
      · exact ⟨hd, ⟨_, rfl, href, hnd, hsub, hcov⟩, Or.inr ⟨_, rfl⟩⟩
      · exact ⟨hd, ⟨_, rfl, href, hnd, hsub, hcov⟩, Or.inl rfl⟩
    · exact keep

theorem observe_own_line {h : HistoryRequests} {p : String} (hn : (r :: children).Nodup)
    (hd : h.discarding = []) (ho : h.outstanding = some o) (href : o.reference = some r)
    (hnd : o.nested.Nodup) (hsub : o.nested ⊆ children)
    (hcov : o.nestedOverflowed = false → children ⊆ o.nested)
    (hp : m.batchTag = some p) (hmem : p ∈ r :: children)
    (hb : isBatchLine m = true → (∃ c ∈ children, closedBatch m = some c) ∨
      ∃ n ∉ r :: children, openedBatch m = some n ∧ Tags.followedBatch n = true) :
    TakesLine h (h.observe m).1 o r (childrenAfter children m) (h.observe m).2 := by
  have htr (x : String) : h.tracks x = true ↔ r = x ∨ x ∈ o.nested := by
    rw [tracks_iff, hd]
    simp [ho, Outstanding.holds, href]
  have hrn : r ∉ o.nested := fun h => (List.nodup_cons.mp hn).1 (hsub h)
  cases hh : h.hangsOffUntracked m with
  | true =>
    -- The line hangs off a batch nested too deep: the reply overflowed, and nothing changes.
    obtain ⟨o', p', ho', hp', hov, hun⟩ := hangsOffUntracked_iff.mp hh
    obtain rfl : o = o' := Option.some.inj (ho.symm.trans ho')
    rw [observe_hangsOff hh]
    refine ⟨hd, ⟨o, ho, href, hnd, ?_, by simp [hov]⟩, Or.inl rfl⟩
    unfold childrenAfter
    split
    · rename_i c hc
      rw [hc, Option.getD_some, ← Bool.not_eq_true, htr] at hun
      intro x hx
      have hxc : x ≠ c := fun he => hun (Or.inr (he ▸ hx))
      exact (List.mem_erase_of_ne hxc).mpr (hsub hx)
    · exact fun x hx => List.mem_append_left _ (hsub hx)
    · exact hsub
  | false =>
    have tracked (x : String) (hx : x ∈ r :: children)
        (hcl : (closedBatch m).getD p = x) : h.tracks x = true := by
      cases hov : o.nestedOverflowed with
      | false =>
        exact (htr x).mpr ((List.mem_cons.mp hx).imp Eq.symm fun hx => hcov hov hx)
      | true =>
        by_contra ht
        rw [Bool.not_eq_true] at ht
        rw [hangsOffUntracked_iff.mpr ⟨o, p, ho, hp, hov, hcl ▸ ht⟩] at hh
        cases hh
    cases hbl : isBatchLine m with
    | false =>
      obtain ⟨hcl, hop⟩ := content_batches hbl
      have hho : o.holds p = true := by
        have ht := tracked p hmem (by rw [hcl]; rfl)
        rw [htr] at ht
        simpa [Outstanding.holds, href] using ht
      rw [(observe_inside hh hbl hp).2 (by simp [hd]) o ho hho]
      simp only [childrenAfter, hcl, hop]
      exact observeInReply_takes hd ho href hnd hsub hcov
    | true =>
      rcases hb hbl with ⟨c, hc, hcl⟩ | ⟨n, hnew, hop, hfol⟩
      · have hcn : c ∈ o.nested := by
          have ht := tracked c (List.mem_cons_of_mem _ hc) (by rw [hcl]; rfl)
          refine ((htr c).mp ht).resolve_left ?_
          rintro rfl
          exact (List.nodup_cons.mp hn).1 hc
        rw [observe_close hh hcl, observeClose, if_neg (by simp [hd]), ho]
        dsimp only
        rw [if_pos (by simpa using hcn)]
        simp only [childrenAfter, hcl]
        refine ⟨hd, ⟨_, rfl, href, hnd.erase c, ?_, fun hov => ?_⟩, Or.inl rfl⟩
        · intro x hx
          obtain ⟨hxc, hx⟩ := hnd.mem_erase_iff.mp hx
          exact (List.mem_erase_of_ne hxc).mpr (hsub hx)
        · intro x hx
          obtain ⟨hxc, hx⟩ := hn.of_cons.mem_erase_iff.mp hx
          exact (List.mem_erase_of_ne hxc).mpr (hcov hov hx)
      · have hcl := closedBatch_of_opened hop
        have ht := tracked p hmem (by rw [hcl]; rfl)
        obtain ⟨reference, kind, params, hm, he⟩ := observe_open hh hop
        have hho : o.holds p = true := by
          rw [htr] at ht
          simpa [Outstanding.holds, href] using ht
        have hnested : h.observeNested n (some p) =
            some { h with outstanding := some (o.nest n) } := by
          simp [observeNested, hd, ho, Option.filter, hho]
        rw [he, observeOpen, hfol, Bool.not_true, if_neg Bool.false_ne_true, hp, hnested]
        simp only [childrenAfter, hcl, hop]
        refine ⟨hd, ⟨_, rfl, ?_⟩, Or.inl rfl⟩
        have hnn : n ∉ o.nested := fun h => hnew (List.mem_cons_of_mem _ (hsub h))
        unfold Outstanding.nest
        split_ifs
        · refine ⟨href, hnd.append (List.nodup_singleton n) (List.disjoint_singleton.mpr hnn), ?_, ?_⟩
          · exact fun x hx => List.mem_append.mpr ((List.mem_append.mp hx).imp_left (hsub ·))
          · intro hov x hx
            exact List.mem_append.mpr ((List.mem_append.mp hx).imp_left (hcov hov ·))
        · exact ⟨href, hnd, fun x hx => List.mem_append_left _ (hsub hx), by simp⟩

theorem observe_late_line {h : HistoryRequests} {p : String} (hn : (r :: children).Nodup)
    (hu : h.Unopened) (hd : h.discarding.Perm (r :: children)) (hp : m.batchTag = some p)
    (hmem : p ∈ r :: children)
    (hb : isBatchLine m = true → (∃ c ∈ children, closedBatch m = some c) ∨
      ∃ n ∉ r :: children, openedBatch m = some n ∧ Tags.followedBatch n = true ∧
        h.discarding.length < maxNested + 1) :
    (h.observe m).2 = .consumed ∧ (h.observe m).1.Unopened ∧
      (h.observe m).1.discarding.Perm (r :: childrenAfter children m) := by
  have hpd : h.discarding.contains p = true := by simpa using hd.mem_iff.mpr hmem
  cases hbl : isBatchLine m with
  | false =>
    obtain ⟨hcl, hop⟩ := content_batches hbl
    rw [(observe_inside hu.hangsOff hbl hp).1 (by simpa using hpd)]
    simp only [childrenAfter, hcl, hop]
    exact ⟨trivial, hu, hd⟩
  | true =>
    rcases hb hbl with ⟨c, hc, hcl⟩ | ⟨n, hnew, hop, hfol, hroom⟩
    · have hcr : c ≠ r := fun he => (List.nodup_cons.mp hn).1 (he ▸ hc)
      have hcd : h.discarding.contains c = true := by
        simpa using hd.mem_iff.mpr (List.mem_cons_of_mem _ hc)
      rw [observe_close hu.hangsOff hcl, observeClose, if_pos hcd]
      refine ⟨rfl, hu, ?_⟩
      simp only [childrenAfter, hcl]
      have he := hd.erase c
      rwa [List.erase_cons_tail (by simpa using hcr.symm)] at he
    · obtain ⟨reference, kind, params, hm, he⟩ := observe_open hu.hangsOff hop
      have hnested : h.observeNested n (some p) =
          some { h with discarding := h.discarding ++ [n] } := by
        simp only [observeNested, Option.bind_some, hpd, if_true, hroom]
      rw [he, observeOpen, hfol, Bool.not_true, if_neg Bool.false_ne_true, hp, hnested]
      refine ⟨rfl, hu, ?_⟩
      simp only [childrenAfter, closedBatch_of_opened hop, hop]
      exact hd.append_right [n]

end Exchange

end CayenChat
