import CayenChat.Lib.Machine
import CayenChat.History.Answer

/-! # Answers reach their own request

While an answer is received, its batches are in the tables of its own request,
or in the table of swallowed batches when the request was given up. Between
answers both are empty, so that the next answer finds only its own request.
-/

namespace CayenChat

namespace Exchange

open HistoryRequests

variable {w : Exchange} {s : Sent} {r : String} {children : List String} {m : IrcMessage}
  {i : ExchangeInput} {o : Outstanding}

/-- The answer is received by its own request. -/
structure OwnAnswer (w : Exchange) (s : Sent) (r : String) (children : List String) : Prop where
  current : w.current = some s.serial
  discarding : w.history.discarding = []
  tables : ∃ o, w.history.outstanding = some o ∧ o.reference = some r ∧ o.nested.Nodup ∧
    o.nested ⊆ children ∧ (o.nestedOverflowed = false → children ⊆ o.nested)

/-- The answer is swallowed. -/
structure LateAnswer (w : Exchange) (s : Sent) (r : String) (children : List String) : Prop where
  current : w.current ≠ some s.serial
  unopened : w.history.Unopened
  discarding : w.history.discarding.Perm (r :: children)

/-- Commands have serial numbers of their own, and the outstanding request is the last one sent. -/
structure Serials (w : Exchange) : Prop where
  nodup : (w.unanswered.map Sent.serial).Nodup
  fresh : ∀ s ∈ w.unanswered, s.serial < w.sent
  last : ∀ o, w.history.outstanding = some o → ∃ n init, w.current = some n ∧
    w.unanswered = init ++ [⟨n, o.channel, o.page⟩]
  idle : w.history.outstanding = none → w.current = none

/-- The tables hold the open batches of the answer being received, and nothing else. -/
structure Receiving (w : Exchange) : Prop where
  between : w.answering = none → w.history.discarding = [] ∧ w.history.Unopened
  during : ∀ r children, w.answering = some (r, children) → (r :: children).Nodup ∧
    ∃ s, w.head = some s ∧ (OwnAnswer w s r children ∨ LateAnswer w s r children)

theorem handedOut_cons {h : HistoryRequests} {c : HistoryCall} {channel : String} {page : Page}
    {rest : List (String × Page)} (hn : h.handedOut c = (channel, page) :: rest) :
    h.outstanding = none ∧ ∃ o, (h.next c).outstanding = some o ∧ o.channel = channel ∧
      o.page = page ∧ (h.next c).Unopened ∧ (h.next c).discarding = h.discarding := by
  cases c with
  | nextRequest now =>
    unfold handedOut nextRequest at hn
    unfold HistoryRequests.next nextRequest
    cases ho : h.outstanding with
    | some o => simp [ho] at hn
    | none =>
      cases hq : h.queue with
      | nil => simp [ho, hq] at hn
      | cons q queue =>
        simp only [ho, hq, Option.toList_some, List.map_cons, List.map_nil, List.cons.injEq,
          Prod.mk.injEq] at hn
        refine ⟨rfl, _, rfl, hn.1.1, hn.1.2, fun o ho => ?_, rfl⟩
        obtain rfl := Option.some.inj ho
        exact ⟨rfl, rfl, rfl⟩
  | _ => cases hn

theorem nextRequest_nil {h : HistoryRequests} {now : Instant}
    (hn : h.handedOut (.nextRequest now) = []) : (h.nextRequest now).1 = h := by
  unfold handedOut nextRequest at hn
  unfold nextRequest
  cases ho : h.outstanding with
  | some o => rfl
  | none =>
    cases hq : h.queue with
    | nil => rfl
    | cons q queue => simp [ho, hq] at hn

theorem become_become {h h' : HistoryRequests} (hs : SameTables h h') :
    (w.become h).become h' = w.become h' := by
  unfold become
  cases ho : h'.outstanding <;> simp [← hs.outstanding, ho]

theorem becomes_request {h h' : HistoryRequests} {ended : List (String × Page)} {o' : Outstanding}
    (hb : h.beingAnswered = ended ++ h'.beingAnswered) (ho : h'.outstanding = some o') :
    ∃ o, h.outstanding = some o ∧ o.request = o'.request := by
  unfold beingAnswered at hb
  rw [ho] at hb
  cases h₁ : h.outstanding with
  | none => simp [h₁] at hb
  | some o =>
    refine ⟨o, rfl, ?_⟩
    rw [h₁] at hb
    cases ended with
    | nil => simpa using hb
    | cons e es => simp at hb

namespace Serials

theorem become {h' : HistoryRequests} {ended : List (String × Page)} (hw : Serials w)
    (hb : w.history.beingAnswered = ended ++ h'.beingAnswered) : Serials (w.become h') where
  nodup := hw.nodup
  fresh := hw.fresh
  last o' ho' := by
    obtain ⟨o, ho, hr⟩ := becomes_request hb ho'
    obtain ⟨n, init, hc, hu⟩ := hw.last o ho
    have ho' : h'.outstanding = some o' := ho'
    refine ⟨n, init, by simp [Exchange.become, ho', hc], ?_⟩
    rw [Outstanding.request, Outstanding.request, Prod.mk.injEq] at hr
    rw [← hr.1, ← hr.2]
    exact hu
  idle ho := by
    have ho : h'.outstanding = none := ho
    simp [Exchange.become, ho]

theorem tail (hw : Serials w) (hs : w.head = some s)
    (ho : w.history.outstanding.isSome → w.current ≠ some s.serial) :
    Serials { w with unanswered := w.unanswered.tail } where
  nodup := by rw [List.map_tail]; exact hw.nodup.tail
  fresh x hx := hw.fresh x (List.mem_of_mem_tail hx)
  last o h := by
    obtain ⟨n, init, hc, hu⟩ := hw.last o h
    cases init with
    | nil =>
      rw [head, hu] at hs
      obtain rfl := Option.some.inj hs
      exact absurd hc (ho (by rw [h]; rfl))
    | cons x init => exact ⟨n, init, hc, by rw [hu]; rfl⟩
  idle := hw.idle

theorem own (hw : Serials w) (hs : s ∈ w.unanswered) (hc : w.current = some s.serial) :
    ∃ o, w.history.outstanding = some o ∧ s.channel = o.channel ∧ s.page = o.page := by
  cases ho : w.history.outstanding with
  | none => rw [hw.idle ho] at hc; cases hc
  | some o =>
    obtain ⟨n, init, hn, hu⟩ := hw.last o ho
    obtain rfl : n = s.serial := Option.some.inj (hn.symm.trans hc)
    have hl : (⟨s.serial, o.channel, o.page⟩ : Sent) ∈ w.unanswered := by rw [hu]; simp
    have he := List.inj_on_of_nodup_map hw.nodup hs hl rfl
    exact ⟨o, rfl, by rw [he], by rw [he]⟩

theorem call (hw : Serials w) (c : HistoryCall) : Serials (w.next (.call c)) := by
  have hb := w.history.handedOut_balance c
  unfold Exchange.next
  dsimp only
  split
  · rename_i hn
    rw [hn, List.append_nil] at hb
    exact hw.become hb
  · rename_i channel page rest hn
    obtain ⟨ho, o, ho', rfl, rfl, -⟩ := handedOut_cons hn
    refine ⟨?_, ?_, ?_, ?_⟩
    · rw [List.map_append]
      refine hw.nodup.append (List.nodup_singleton _) (List.disjoint_singleton.mpr fun hn => ?_)
      obtain ⟨x, hx, hx'⟩ := List.mem_map.mp hn
      exact absurd (hw.fresh x hx) (Nat.not_lt.mpr hx'.ge)
    · intro x hx
      rcases List.mem_append.mp hx with hx | hx
      · exact Nat.lt_succ_of_lt (hw.fresh x hx)
      · rw [List.mem_singleton.mp hx]; exact Nat.lt_succ_self _
    · intro o₁ ho₁
      obtain rfl : o = o₁ := Option.some.inj (ho'.symm.trans ho₁)
      exact ⟨w.sent, w.unanswered, rfl, rfl⟩
    · intro hn
      rw [ho'] at hn
      cases hn

end Serials

namespace Receiving

theorem become {h' : HistoryRequests} (hw : Receiving w) (hs : SameTables w.history h') :
    Receiving (w.become h') where
  between ha := by
    obtain ⟨hd, hu⟩ := hw.between ha
    exact ⟨hs.discarding.trans hd, hu.of_same hs⟩
  during r children ha := by
    obtain ⟨hn, s, hh, hr | hr⟩ := hw.during r children ha
    · obtain ⟨o, ho, ht⟩ := hr.tables
      refine ⟨hn, s, hh, Or.inl ⟨?_, hs.discarding.trans hr.discarding, o, hs.outstanding.trans ho, ht⟩⟩
      simp [Exchange.become, hs.outstanding, ho, hr.current]
    · refine ⟨hn, s, hh, Or.inr ⟨?_, hr.unopened.of_same hs, ?_⟩⟩
      · have hc := hr.current
        unfold Exchange.become
        dsimp only
        split_ifs
        · exact hc
        · simp
      · rw [Exchange.become, hs.discarding]
        exact hr.discarding

theorem handOut {c : HistoryCall} {channel : String} {page : Page} {rest : List (String × Page)}
    (hw : Receiving w) (hf : Serials w) (hn : w.history.handedOut c = (channel, page) :: rest) :
    Receiving { w with
      history := w.history.next c
      sent := w.sent + 1
      current := some w.sent
      unanswered := w.unanswered ++ [⟨w.sent, channel, page⟩] } := by
  obtain ⟨ho, o, ho', -, -, hu, hd⟩ := handedOut_cons hn
  refine ⟨fun ha => ⟨hd.trans (hw.between ha).1, hu⟩, fun r children ha => ?_⟩
  obtain ⟨hnd, s, hh, hr | hr⟩ := hw.during r children ha
  · obtain ⟨o, ho₁, -⟩ := hr.tables
    rw [ho] at ho₁
    cases ho₁
  · have hm : s ∈ w.unanswered := List.mem_of_mem_head? hh
    refine ⟨hnd, s, ?_, Or.inr ⟨?_, hu, hd ▸ hr.discarding⟩⟩
    · rw [head, List.head?_append, show w.unanswered.head? = some s from hh]
      rfl
    · exact fun he => absurd (hf.fresh s hm) (Nat.not_lt.mpr (Option.some.inj he).le)

theorem tick {now : Instant} (hw : Receiving w) (ha : w.Apart (.call (.tick now))) :
    Receiving (w.become (w.history.tick now).1) := by
  unfold HistoryRequests.tick
  cases ho : w.history.outstanding with
  | none => exact hw.become SameTables.refl
  | some o =>
    dsimp only
    split_ifs with ht
    · exact hw.become SameTables.refl
    · rw [← become_become (SameTables.fallBack _ _)]
      refine Receiving.become ?_ (SameTables.fallBack _ _)
      have hg : (w.history.giveUp o).outstanding = none := by unfold giveUp; split <;> rfl
      have hc : (w.become (w.history.giveUp o)).current = none := by simp [Exchange.become, hg]
      have hu : (w.become (w.history.giveUp o)).history.Unopened := unopened_none hg
      refine ⟨fun hr => ⟨?_, hu⟩, fun r children hr => ?_⟩
      · obtain ⟨hd, hu⟩ := hw.between hr
        simp [Exchange.become, giveUp, (hu o ho).1, hd]
      · obtain ⟨hn, s, hh, hr | hr⟩ := hw.during r children hr
        · obtain ⟨o', ho', href, hnd, hsub, hcov⟩ := hr.tables
          obtain rfl : o = o' := Option.some.inj (ho.symm.trans ho')
          have hno : o.nestedOverflowed = false := by
            have ha : (w.history.outstanding.any fun o => decide (o.sent + responseTimeout ≤ now) &&
                o.reference.isSome && o.nestedOverflowed) = false := ha
            simpa [ho, href, Nat.not_lt.mp ht] using ha
          refine ⟨hn, s, hh, Or.inr ⟨by rw [hc]; simp, hu, ?_⟩⟩
          have hp : o.nested.Perm children := (List.perm_ext_iff_of_nodup hnd hn.of_cons).mpr
            fun x => ⟨fun hx => hsub hx, fun hx => hcov hno hx⟩
          simp [Exchange.become, giveUp, href, hr.discarding, hp]
        · refine ⟨hn, s, hh, Or.inr ⟨by rw [hc]; simp, hu, ?_⟩⟩
          simpa [Exchange.become, giveUp, (hr.unopened o ho).1] using hr.discarding

theorem call {c : HistoryCall} (hw : Receiving w) (hf : Serials w) (hs : w.Served (.call c))
    (ha : w.Apart (.call c)) : Receiving (w.next (.call c)) := by
  unfold Exchange.next
  dsimp only
  split
  · rename_i hn
    cases c with
    | observe m => cases hs
    | tick now => exact hw.tick ha
    | reset =>
      refine ⟨fun _ => ⟨rfl, unopened_none rfl⟩, fun r children hr => ?_⟩
      rw [Exchange.become, show w.answering = none from ha] at hr
      cases hr
    | nextRequest now =>
      refine hw.become ?_
      rw [HistoryRequests.next, nextRequest_nil hn]
      exact SameTables.refl
    | _ => exact hw.become (SameTables.next w.history (by simp) (by simp) (by simp) (by simp))
  · rename_i hn
    exact hw.handOut hf hn

end Receiving

theorem Serials.line (hw : Serials w) (m : IrcMessage) : Serials (w.line m) :=
  hw.become (Settles.observe w.history m).outstanding

theorem Receiving.begins (hw : Receiving w) (hf : Serials w) (hs : w.Served (.begins m))
    (ha : w.Apart (.begins m)) : Receiving (w.next (.begins m)) ∧ w.Attributed (.begins m) := by
  obtain ⟨hans, hop, hab⟩ := hs
  obtain ⟨r, hop⟩ := Option.isSome_iff_exists.mp hop
  obtain ⟨s, hh, hab⟩ := (Option.any_eq_true _ _).mp hab
  obtain ⟨hd, hu⟩ := hw.between hans
  obtain ⟨hfol, hlate⟩ := ha
  rw [hop, Option.any_some] at hfol
  have hnext : w.next (.begins m) = { w.line m with answering := some (r, []) } := by
    simp [Exchange.next, hop]
  cases hg : w.givenUp s with
  | false =>
    have hc : w.current = some s.serial := by simpa [givenUp] using hg
    obtain ⟨o, ho, hch, hpg⟩ := hf.own (List.mem_of_mem_head? hh) hc
    obtain ⟨ended, he⟩ := observe_own_batch hd hu ho hop hfol hch hpg hab
    refine ⟨?_, fun s' _ => by rw [he]; trivial⟩
    rw [hnext]
    refine ⟨by simp, fun r' children hr => ?_⟩
    obtain ⟨rfl, rfl⟩ := Prod.mk.inj (Option.some.inj hr)
    refine ⟨by simp, s, hh, Or.inl ⟨?_, ?_, ?_⟩⟩
    · simp [Exchange.line, Exchange.become, he, hc]
    · simp [Exchange.line, Exchange.become, he, hd]
    · simp [Exchange.line, Exchange.become, he, hu o ho]
  | true =>
    obtain ⟨hpt, hlate⟩ := hlate (by rw [hh, Option.any_some, hg])
    obtain ⟨target, htg, hlate⟩ := (Option.any_eq_true _ _).mp hlate
    rw [Bool.and_eq_true, Bool.not_eq_true'] at hlate
    rw [hh, Option.any_some] at hpt
    have hk : batchKind m = some "CHATHISTORY" := by
      simp only [about, hpt, Bool.false_eq_true, if_false, Bool.and_eq_true, beq_iff_eq] at hab
      exact hab.1
    have he := observe_late_batch hd hu hop hfol hk htg hlate.1 hlate.2
    refine ⟨?_, fun s' _ => by rw [he]; trivial⟩
    rw [hnext]
    refine ⟨by simp, fun r' children hr => ?_⟩
    obtain ⟨rfl, rfl⟩ := Prod.mk.inj (Option.some.inj hr)
    have hc : w.current ≠ some s.serial := by simpa [givenUp] using hg
    refine ⟨by simp, s, hh, Or.inr ⟨?_, ?_, ?_⟩⟩
    · simp only [Exchange.line, Exchange.become]
      split_ifs
      · exact hc
      · simp
    · simp only [Exchange.line, Exchange.become, he]
      exact hu
    · simp [Exchange.line, Exchange.become, he]

theorem childrenAfter_nodup (hn : (r :: children).Nodup)
    (hb : isBatchLine m = true → (∃ c ∈ children, closedBatch m = some c) ∨
      ∃ n ∉ r :: children, openedBatch m = some n) : (r :: childrenAfter children m).Nodup := by
  obtain ⟨hr, hn'⟩ := List.nodup_cons.mp hn
  cases hbl : isBatchLine m with
  | false =>
    obtain ⟨hcl, hop⟩ := content_batches hbl
    simpa only [childrenAfter, hcl, hop] using hn
  | true =>
    rcases hb hbl with ⟨c, hc, hcl⟩ | ⟨n, hnew, hop⟩
    · simp only [childrenAfter, hcl]
      exact List.nodup_cons.mpr ⟨fun h => hr (List.mem_of_mem_erase h), hn'.erase c⟩
    · simp only [childrenAfter, closedBatch_of_opened hop, hop]
      rw [← List.cons_append]
      exact hn.append (List.nodup_singleton n) (List.disjoint_singleton.mpr hnew)

theorem line_current (hc : (w.history.observe m).1.outstanding.isSome) :
    (w.line m).current = w.current := by
  simp [Exchange.line, Exchange.become, hc]

theorem line_current_ne (hc : w.current ≠ some s.serial) : (w.line m).current ≠ some s.serial := by
  simp only [Exchange.line, Exchange.become]
  split_ifs
  · exact hc
  · simp

namespace Receiving

theorem answer (hw : Receiving w) (hs : w.openBatches ≠ []) : ∃ r children s,
    w.answering = some (r, children) ∧ w.openBatches = r :: children ∧ w.head = some s ∧
      (r :: children).Nodup ∧ (OwnAnswer w s r children ∨ LateAnswer w s r children) := by
  cases ha : w.answering with
  | none => simp [openBatches, ha] at hs
  | some a =>
    obtain ⟨r, children⟩ := a
    obtain ⟨hn, s, hh, ht⟩ := hw.during r children ha
    exact ⟨r, children, s, rfl, by simp [openBatches, ha], hh, hn, ht⟩

theorem inside (hw : Receiving w) (hf : Serials w) (hs : w.Served (.inside m))
    (ha : w.Apart (.inside m)) : Receiving (w.next (.inside m)) ∧ w.Attributed (.inside m) := by
  obtain ⟨hp, hb⟩ := hs
  obtain ⟨p, hp, hmem⟩ := (Option.any_eq_true _ _).mp hp
  have hne : w.openBatches ≠ [] := by
    rintro he
    rw [he] at hmem
    cases hmem
  obtain ⟨r, children, s, hans, hopen, hh, hn, ht⟩ := hw.answer hne
  rw [hopen] at hmem hb
  have hmem : p ∈ r :: children := by simpa using hmem
  have hnext : w.next (.inside m) =
      { w.line m with answering := some (r, childrenAfter children m) } := by
    simp [Exchange.next, hans]
  have hb' : isBatchLine m = true → (∃ c ∈ children, closedBatch m = some c) ∨
      ∃ n ∉ r :: children, openedBatch m = some n := by
    intro hbl
    refine (hb hbl).imp (fun h => ?_) fun h => ?_
    · obtain ⟨c, hcl, hc⟩ := (Option.any_eq_true _ _).mp h
      exact ⟨c, by simpa using hc, hcl⟩
    · obtain ⟨n, hop, hnew⟩ := (Option.any_eq_true _ _).mp h
      exact ⟨n, by simpa using hnew, hop⟩
  have hnd : (r :: childrenAfter children m).Nodup := childrenAfter_nodup hn hb'
  rcases ht with ht | ht
  · obtain ⟨o, ho, href, hnn, hsub, hcov⟩ := ht.tables
    have hl : TakesLine w.history (w.history.observe m).1 o r (childrenAfter children m)
        (w.history.observe m).2 := by
      refine observe_own_line hn ht.discarding ho href hnn hsub hcov hp hmem fun hbl => ?_
      refine (hb' hbl).imp_right fun ⟨n, hnew, hop⟩ => ⟨n, hnew, hop, ?_⟩
      simpa [hop] using (ha (by rw [hop]; rfl)).1
    obtain ⟨o', ho', htab⟩ := hl.tables
    rw [hnext]
    refine ⟨⟨by simp, fun r' children' hr => ?_⟩, fun s' hs' => ?_⟩
    · obtain ⟨rfl, rfl⟩ := Prod.mk.inj (Option.some.inj hr)
      refine ⟨hnd, s, hh, Or.inl ⟨?_, hl.discarding, o', ho', htab⟩⟩
      rw [← ht.current]
      exact line_current (by rw [ho']; rfl)
    · obtain rfl : s = s' := Option.some.inj (hh.symm.trans hs')
      obtain ⟨o₁, ho₁, hch, hpg⟩ := hf.own (List.mem_of_mem_head? hh) ht.current
      obtain rfl : o = o₁ := Option.some.inj (ho.symm.trans ho₁)
      rcases hl.what with he | ⟨text, he⟩
      · rw [he]; trivial
      · rw [he]
        exact ⟨by simp [givenUp, ht.current], hch.symm, hpg.symm⟩
  · have hl := observe_late_line hn ht.unopened ht.discarding hp hmem fun hbl => by
      refine (hb' hbl).imp_right fun ⟨n, hnew, hop⟩ => ⟨n, hnew, hop, ?_⟩
      obtain ⟨hfol, hroom⟩ := ha (by rw [hop]; rfl)
      exact ⟨by simpa [hop] using hfol, hroom (by simp [hh, givenUp, ht.current])⟩
    rw [hnext]
    refine ⟨⟨by simp, fun r' children' hr => ?_⟩, fun s' _ => by rw [hl.1]; trivial⟩
    obtain ⟨rfl, rfl⟩ := Prod.mk.inj (Option.some.inj hr)
    exact ⟨hnd, s, hh, Or.inr ⟨line_current_ne ht.current, hl.2.1, hl.2.2⟩⟩

theorem ends (hw : Receiving w) (hf : Serials w) (hs : w.Served (.ends m)) :
    Receiving (w.next (.ends m)) ∧ Serials (w.next (.ends m)) ∧ w.Attributed (.ends m) := by
  obtain ⟨r, hcl, hopen⟩ := Option.map_eq_some_iff.mp (show _ = _ from hs)
  obtain ⟨r', children, s, hans, hopen', hh, hn, ht⟩ := hw.answer (by rw [← hopen]; simp)
  rw [← hopen] at hopen'
  obtain ⟨rfl, rfl⟩ := List.cons.inj hopen'
  have hnext : w.next (.ends m) =
      { w.line m with unanswered := w.unanswered.tail, answering := none } := rfl
  rcases ht with ht | ht
  · obtain ⟨o, ho, href, -, hsub, -⟩ := ht.tables
    have hnil : o.nested = [] := List.subset_nil.mp hsub
    have htr : w.history.tracks r = true :=
      tracks_iff.mpr (Or.inr ⟨o, ho, by simp [Outstanding.holds, href]⟩)
    have hh₀ : w.history.hangsOffUntracked m = false := by
      by_contra hh₁
      obtain ⟨_, _, -, -, -, hun⟩ := hangsOffUntracked_iff.mp (Bool.not_eq_false _ ▸ hh₁)
      rw [hcl, Option.getD_some, htr] at hun
      cases hun
    have he : w.history.observe m =
        ((w.history.finish o).1, .finished (w.history.finish o).2) := by
      rw [observe_close hh₀ hcl, observeClose, if_neg (by simp [ht.discarding]), ho]
      simp [hnil, href]
    have hs := SameTables.finish w.history o
    have hnone : (w.history.observe m).1.outstanding = none := by rw [he]; exact hs.outstanding
    rw [hnext]
    refine ⟨⟨fun _ => ⟨?_, unopened_none hnone⟩, by simp⟩, ?_, fun s' hs' => ?_⟩
    · rw [Exchange.line, Exchange.become, he]
      exact hs.discarding.trans ht.discarding
    · have hl := (hf.line m).tail (s := s) hh fun h => by
        rw [show (w.line m).history.outstanding = none from hnone] at h
        cases h
      exact ⟨hl.nodup, hl.fresh, hl.last, hl.idle⟩
    · obtain rfl : s = s' := Option.some.inj (hh.symm.trans hs')
      obtain ⟨o₁, ho₁, hch, hpg⟩ := hf.own (List.mem_of_mem_head? hh) ht.current
      obtain rfl : o = o₁ := Option.some.inj (ho.symm.trans ho₁)
      rw [he]
      exact ⟨by simp [givenUp, ht.current], hch.symm, hpg.symm⟩
  · have hd : w.history.discarding = [r] := List.perm_singleton.mp ht.discarding
    have he : w.history.observe m = ({ w.history with discarding := [] }, .consumed) := by
      rw [observe_close ht.unopened.hangsOff hcl, observeClose, hd]
      simp
    rw [hnext]
    refine ⟨⟨fun _ => ?_, by simp⟩, ?_, fun s' _ => by rw [he]; trivial⟩
    · rw [Exchange.line, Exchange.become, he]
      exact ⟨rfl, ht.unopened⟩
    · have hl := (hf.line m).tail (s := s) hh fun _ => line_current_ne ht.current
      exact ⟨hl.nodup, hl.fresh, hl.last, hl.idle⟩

theorem refuses (hw : Receiving w) (hf : Serials w) (hs : w.Served (.refuses m))
    (ha : w.Apart (.refuses m)) : Receiving (w.next (.refuses m)) ∧
      Serials (w.next (.refuses m)) ∧ w.Attributed (.refuses m) := by
  obtain ⟨hans, hhd, hrej⟩ := hs
  obtain ⟨s, hh⟩ := Option.isSome_iff_exists.mp hhd
  obtain ⟨hd, hu⟩ := hw.between hans
  have hc : w.current = some s.serial := by
    have ha : w.head.any w.givenUp = false := ha
    simpa [hh, givenUp] using ha
  obtain ⟨o, ho, hch, hpg⟩ := hf.own (List.mem_of_mem_head? hh) hc
  have hbl : isBatchLine m = false := by
    unfold rejects failure at hrej
    unfold isBatchLine
    split at hrej <;> simp_all
  have hf₁ : (failure m o.channel).isSome := by rw [failure_isSome, hrej]
  obtain ⟨note, hn⟩ := Option.isSome_iff_exists.mp hf₁
  have ht : ∀ p, m.batchTag = some p → w.history.tracks p = false := fun p _ => by
    rw [← Bool.not_eq_true, hu.tracks, hd]; simp
  obtain ⟨f, hreq, he⟩ : ∃ f : Finished, (f.channel = o.channel ∧ f.page = o.page) ∧
      w.history.observe m = ({ w.history with outstanding := none }.fallBack f, .finished f) := by
    rw [observe_content hu.hangsOff hbl ht, ho, Option.elim_some, observeOutside,
      (hu o ho).1, Option.isNone_none, if_pos rfl, hn]
    exact ⟨_, ⟨rfl, rfl⟩, rfl⟩
  have hsame := SameTables.fallBack { w.history with outstanding := none } f
  have hnone : (w.history.observe m).1.outstanding = none := by rw [he]; exact hsame.outstanding
  refine ⟨⟨fun _ => ⟨?_, unopened_none hnone⟩, fun r children hr => ?_⟩, ?_, fun s' hs' => ?_⟩
  · simp only [Exchange.next, Exchange.line, Exchange.become, he]
    exact hsame.discarding.trans hd
  · rw [Exchange.next, Exchange.line, Exchange.become, hans] at hr
    cases hr
  · exact (hf.line m).tail (s := s) hh fun h => by
      rw [show (w.line m).history.outstanding = none from hnone] at h
      cases h
  · obtain rfl : s = s' := Option.some.inj (hh.symm.trans hs')
    rw [he]
    exact ⟨by simp [givenUp, hc], hreq.1.trans hch.symm, hreq.2.trans hpg.symm⟩

theorem tracks_open (hw : Receiving w) {x : String} (hx : w.history.tracks x = true) :
    x ∈ w.openBatches := by
  cases ha : w.answering with
  | none =>
    obtain ⟨hd, hu⟩ := hw.between ha
    rw [hu.tracks, hd] at hx
    cases hx
  | some a =>
    obtain ⟨-, s, -, ht | ht⟩ := hw.during a.1 a.2 ha
    · obtain ⟨o, ho, href, -, hsub, -⟩ := ht.tables
      rw [tracks_iff, ht.discarding] at hx
      simp only [openBatches, ha]
      rcases hx with hx | ⟨o', ho', hx⟩
      · cases hx
      · obtain rfl : o = o' := Option.some.inj (ho.symm.trans ho')
        have hx : a.1 = x ∨ x ∈ o.nested := by simpa [Outstanding.holds, href] using hx
        exact List.mem_cons.mpr (hx.imp Eq.symm (hsub ·))
    · rw [ht.unopened.tracks] at hx
      simp only [openBatches, ha]
      exact ht.discarding.mem_iff.mp hx

theorem other (hw : Receiving w) (hs : w.Served (.other m)) :
    Receiving (w.next (.other m)) ∧ w.Attributed (.other m) := by
  obtain ⟨ht, hr, hc, hk, hk'⟩ := hs
  have htr (x : String) (hx : w.openBatches.contains x = false) : w.history.tracks x = false := by
    rw [← Bool.not_eq_true]
    intro h
    rw [List.contains_iff_mem.mpr (hw.tracks_open h)] at hx
    cases hx
  have he := observe_other (h := w.history) (m := m)
    (fun p hp => htr p (by simpa [hp] using ht)) (fun c hcl => htr c (by simpa [hcl] using hc)) hr hk hk'
  have hsame : SameTables w.history (w.history.observe m).1 := by
    rcases he with he | he <;> rw [he] <;> exact SameTables.refl
  exact ⟨hw.become hsame, by rcases he with he | he <;> simp [Attributed, he]⟩

end Receiving

/-- The state of every run: what the tables hold and which command the outstanding request sent. -/
structure InOrder (w : Exchange) : Prop where
  receiving : Receiving w
  serials : Serials w

theorem InOrder.start (resume : List HistoryResume) (wire : Option Encoding) :
    InOrder (start resume wire) where
  receiving := ⟨fun _ => ⟨rfl, unopened_none rfl⟩, fun _ _ h => by cases h⟩
  serials := ⟨List.nodup_nil, fun s h => (by cases h), fun o h => (by cases h), fun _ => rfl⟩

theorem InOrder.next (hw : InOrder w) (hs : w.Served i) (ha : w.Apart i) :
    InOrder (w.next i) ∧ w.Attributed i := by
  obtain ⟨hr, hf⟩ := hw
  cases i with
  | call c => exact ⟨⟨hr.call hf hs ha, hf.call c⟩, trivial⟩
  | begins m =>
    obtain ⟨hr', hat⟩ := hr.begins hf hs ha
    have hl := hf.line m
    exact ⟨⟨hr', ⟨hl.nodup, hl.fresh, hl.last, hl.idle⟩⟩, hat⟩
  | inside m =>
    obtain ⟨hr', hat⟩ := hr.inside hf hs ha
    have hl := hf.line m
    exact ⟨⟨hr', ⟨hl.nodup, hl.fresh, hl.last, hl.idle⟩⟩, hat⟩
  | ends m =>
    obtain ⟨hr', hl, hat⟩ := hr.ends hf hs
    exact ⟨⟨hr', hl⟩, hat⟩
  | refuses m =>
    obtain ⟨hr', hl, hat⟩ := hr.refuses hf hs ha
    exact ⟨⟨hr', hl⟩, hat⟩
  | other m =>
    obtain ⟨hr', hat⟩ := hr.other hs
    exact ⟨⟨hr', hf.line m⟩, hat⟩

end Exchange

open Exchange

/-- Along a run that keeps late answers apart, every line of an answer is attributed to the command
that is being answered, and the answer to a command that was given up is swallowed. -/
theorem answers_attributed (resume : List HistoryResume) (wire : Option Encoding)
    (inputs : List ExchangeInput)
    (hs : Machine.Along Served next (start resume wire) inputs)
    (ha : Machine.Along Apart next (start resume wire) inputs) :
    Machine.Along Attributed next (start resume wire) inputs :=
  (hs.and ha).of_invariant InOrder (fun _ _ hw hc => (hw.next hc.1 hc.2).1)
    (fun _ _ hw hc => (hw.next hc.1 hc.2).2) (InOrder.start resume wire)

namespace Exchange

def lineIn (batch : Option String) (command : IrcCommand) : IrcMessage :=
  { tags := some (batch.toList.map fun b => ⟨"batch", some b⟩), command }

def resumed : List HistoryResume := [⟨"#a", { msgid := some "m1" }⟩]

def timedOut : List ExchangeInput :=
  [.call (.enqueue "#a"), .call (.nextRequest 0), .call (.tick 30000)]

def answerOf (target : String) : List ExchangeInput :=
  [.begins (lineIn none (.batch "+r" (some (.custom "CHATHISTORY")) (some [target]))),
    .inside (lineIn (some "r") (.privmsg target "hi")), .ends (lineIn none (.batch "-r" none none))]

end Exchange

/-- The late answer to a resumed request fills the request for the latest lines. -/
theorem late_answer_fills_next : Machine.Along Served next (start resumed none)
      (timedOut ++ [.call (.nextRequest 30000)] ++ answerOf "#a") ∧
    ¬ Machine.Along Attributed next (start resumed none)
      (timedOut ++ [.call (.nextRequest 30000)] ++ answerOf "#a") := by
  decide +kernel

theorem late_answer_swallowed : Machine.Along Attributed next (start resumed none)
    (timedOut ++ answerOf "#a" ++ [.call (.nextRequest 60000)] ++ answerOf "#a") :=
  answers_attributed resumed none _ (by decide +kernel) (by decide +kernel)

end CayenChat
