import CayenChat.Cap.Coherence
import CayenChat.Lib.Machine

/-! # Capabilities that need others

What needs batch is never enabled nor requested without it. Labeled responses
are requested with message tags only, but outlive their withdrawal.
-/

namespace CayenChat

namespace Capability

def needs (name : String) : List String :=
  (if needsBatch name then [batch] else []) ++ if name = labeledResponse then [messageTags] else []

theorem mem_needs {name need : String} : need ∈ needs name ↔
    need = batch ∧ needsBatch name = true ∨ need = messageTags ∧ name = labeledResponse := by
  unfold needs
  split_ifs <;> simp_all

end Capability

open Capability

namespace CapNegotiation

def NeedsMet (n : CapNegotiation) : Prop :=
  ∀ name ∈ n.enabled, ∀ need ∈ needs name, need ∈ n.enabled

/-- The states in which the tokens of an acknowledgement make the client look for something to
request. -/
def ackMoments (c : Crypto) (random : Option (List UInt8)) :
    List String → CapNegotiation → List CapNegotiation
  | [], _ => []
  | token :: tokens, n =>
    match n.acknowledgeToken c random token with
    | .ok (n', _) =>
      (if token ∈ n.pending ∧ (token = batch ∨ token = messageTags) then [n.grant token] else []) ++
        ackMoments c random tokens n'
    | .error _ => []

/-- The states in which a CAP reply makes the client look for something to request. -/
def replyMoments (c : Crypto) (random : Option (List UInt8)) (n : CapNegotiation)
    (subcommand : String) (continued : Bool) (list : String) : List CapNegotiation :=
  if subcommand = "LS" ∧ n.phase = .listing then
    if continued then [] else [n.rememberOffers list]
  else if subcommand = "ACK" then
    if continued then []
    else ackMoments c random (n.appendAck list).ackLines { n with ackLines := [] }
  else if subcommand = "NEW" ∧ n.phase ≠ .listing then [n.rememberOffers list]
  else []

/-- The extensions a call makes the client request, each with what is enabled at that moment. -/
def asks (c : Crypto) (n : CapNegotiation) : CapCall → List (String × Finset String)
  | .line m random =>
    if n.phase = .inactive then []
    else ((capReply m.command).elim [] fun r => n.replyMoments c random r.1 r.2.1 r.2.2).flatMap
      fun k => k.wanting.map (·, k.enabled)
  | _ => []

def dependentRequests (send : List IrcCommand) : List IrcCommand :=
  send.filter fun cmd => decide (cmd ∈ batched.map request)

def AsksMet (c : Crypto) (n : CapNegotiation) (call : CapCall) : Prop :=
  (∀ n' step, n.call c call = .ok (n', step) →
    dependentRequests step.send =
      dependentRequests ((n.asks c call).map fun ask => request ask.1)) ∧
  ∀ ask ∈ n.asks c call, ∀ need ∈ needs ask.1, need ∈ ask.2

def WithdrawKeepsTags (n : CapNegotiation) (names : List String) : Prop :=
  messageTags ∈ names ∧ labeledResponse ∈ n.enabled → labeledResponse ∈ names ∨ batch ∈ names

instance (n : CapNegotiation) (names : List String) : Decidable (n.WithdrawKeepsTags names) :=
  inferInstanceAs (Decidable (_ → _))

/-- The tokens of an acknowledgement keep or enable message tags, or take labeled responses or
batch away, where they leave or make labeled responses enabled. -/
def AcknowledgeKeepsTags (n : CapNegotiation) (tokens : List String) : Prop :=
  labeledResponse ∈ n.enabled ∨ labeledResponse ∈ tokens →
    (messageTags ∈ n.enabled ∨ messageTags ∈ n.pending ∧ messageTags ∈ tokens) ∧
        "-" ++ messageTags ∉ tokens ∨
      "-" ++ labeledResponse ∈ tokens ∧ labeledResponse ∉ tokens ∨
      "-" ++ batch ∈ tokens ∧ batch ∉ tokens

instance (n : CapNegotiation) (tokens : List String) : Decidable (n.AcknowledgeKeepsTags tokens) :=
  inferInstanceAs (Decidable (_ → _))

def KeepsTags (n : CapNegotiation) (r : String × Bool × String) : Prop :=
  (r.1 = "DEL" → n.WithdrawKeepsTags (splitWhitespace r.2.2)) ∧
  (r.1 = "ACK" ∧ r.2.1 = false → n.AcknowledgeKeepsTags (n.appendAck r.2.2).ackLines)

instance (n : CapNegotiation) (r : String × Bool × String) : Decidable (n.KeepsTags r) :=
  inferInstanceAs (Decidable (_ ∧ _))

def TagsKept (n : CapNegotiation) : CapCall → Prop
  | .line m _ => ∀ r ∈ capReply m.command, n.KeepsTags r
  | _ => True

instance (n : CapNegotiation) : (call : CapCall) → Decidable (n.TagsKept call)
  | .line m _ => inferInstanceAs (Decidable (∀ r ∈ capReply m.command, n.KeepsTags r))
  | .derived _ => isTrue trivial
  | .registered => isTrue trivial

section Requests

variable {c : Crypto} {random : Option (List UInt8)} {n n' : CapNegotiation} {step : CapStep}
  {m : IrcMessage} {tokens : List String}

theorem asks_met (call : CapCall) : ∀ ask ∈ n.asks c call, ∀ need ∈ needs ask.1, need ∈ ask.2 := by
  intro ask ha need hn
  cases call with
  | line m random =>
    unfold asks at ha
    split_ifs at ha
    · cases ha
    · obtain ⟨k, -, hk⟩ := List.mem_flatMap.mp ha
      obtain ⟨name, hname, rfl⟩ := List.mem_map.mp hk
      obtain ⟨-, -, -, hbatch, htags, -⟩ := requestable_iff.mp (mem_wanting.mp hname).2
      rcases mem_needs.mp hn with ⟨rfl, hb⟩ | ⟨rfl, hl⟩
      · exact hbatch hb
      · exact htags hl
  | derived => cases ha
  | registered => cases ha

@[simp] theorem dependentRequests_append (a b : List IrcCommand) :
    dependentRequests (a ++ b) = dependentRequests a ++ dependentRequests b :=
  List.filter_append ..

theorem dependentRequests_authenticates {send : List IrcCommand}
    (h : SaslHandshake.Authenticates send) : dependentRequests send = [] := by
  refine List.filter_eq_nil_iff.mpr fun cmd hc => ?_
  obtain ⟨data, rfl⟩ := h cmd hc
  simp [request]

theorem dependentRequests_settle (n : CapNegotiation) :
    dependentRequests n.settle.2.send = [] := by
  have hend : dependentRequests [capEnd] = [] := by decide
  have he : dependentRequests n.enforceDependencies.2.send = [] := by
    by_cases hb : batch ∈ n.enabled
    · rw [enforceDependencies_on hb]
      rfl
    · rw [(enforceDependencies_off hb).2]
      refine List.filter_eq_nil_iff.mpr fun cmd hc => ?_
      obtain ⟨name, -, rfl⟩ := List.mem_map.mp hc
      have hs : stripFirst '-' ("-" ++ name) = some name := stripFirst_append '-' name
      have : ∀ x ∈ batched, stripFirst '-' x = none := by decide
      simp only [List.mem_map, request_inj, exists_eq_right, decide_eq_true_eq]
      intro hm
      rw [this _ hm] at hs
      cases hs
  rcases n.settle_cases with ⟨-, h, -⟩ | ⟨-, h, -⟩ <;> simp [h, he, hend]

theorem acknowledge_asks (h : n.Coherent) (ha : acknowledge c random tokens n = .ok (n', step)) :
    dependentRequests step.send =
      dependentRequests ((ackMoments c random tokens n).flatMap fun k => k.wanting.map request) := by
  induction tokens generalizing n step with
  | nil => cases ha; rfl
  | cons token tokens ih =>
    obtain ⟨k, s, t, h₁, h₂, rfl⟩ := acknowledge_cons ha
    have ht := acknowledgeToken_ok h₁
    rw [CapStep.send_append, dependentRequests_append, ih (h.token ht) h₂, ackMoments, h₁,
      List.flatMap_append, dependentRequests_append]
    congr 1
    cases ht with
    | disabled name hname _ hs =>
      have hne : ¬(token = batch ∨ token = messageTags) := by
        rintro (rfl | rfl) <;> cases hname
      rw [hs, if_neg fun h => hne h.2]
      rfl
    | ignored hname hp _ hs =>
      rw [hs, if_neg fun h => hp h.1]
      rfl
    | granted hname hp ht _ _ _ hs =>
      rw [if_neg fun h => not_or.mpr ht h.2, dependentRequests_authenticates hs]
      rfl
    | opened hname hp ht _ hs =>
      rw [if_pos ⟨hp, ht⟩, hs, (h.grant hp).requestOptional_eq, List.flatMap_singleton]

theorem asks_complete (h : n.Coherent) {call : CapCall} (hc : n.call c call = .ok (n', step)) :
    dependentRequests step.send =
      dependentRequests ((n.asks c call).map fun ask => request ask.1) := by
  cases call with
  | derived d =>
    obtain ⟨-, s, -, -, hs⟩ := derived_ok hc
    rw [dependentRequests_authenticates hs]
    rfl
  | registered =>
    have hc : n.registered.map (fun n => (n, ({} : CapStep))) = .ok (n', step) := hc
    cases hr : n.registered with
    | error e => rw [hr] at hc; cases hc
    | ok k => rw [hr] at hc; cases hc; rfl
  | line m random =>
    have hc : n.observe c random m = .ok (n', step) := hc
    by_cases hp : n.phase = .inactive
    · rw [observe_inactive hp, Except.ok.injEq, Prod.mk.injEq] at hc
      rw [asks, if_pos hp, ← hc.2]
      rfl
    · obtain ⟨k, s, hl, -, rfl⟩ := observe_eq_ok hp hc
      have hl := line_ok hl
      rw [CapStep.send_append, dependentRequests_append, dependentRequests_settle,
        List.append_nil, asks, if_neg hp, List.map_flatMap]
      simp only [List.map_map, Function.comp_def]
      cases hl with
      | idle hm =>
        cases hr : capReply m.command with
        | none => rfl
        | some r =>
          rw [hr, Option.all_some, decide_eq_true_eq] at hm
          obtain ⟨hne, hls⟩ := hm
          simp only [List.mem_cons, List.not_mem_nil, or_false, not_or] at hne
          simp [replyMoments, hls, hne]
      | @heard subcommand list continued hm hs hp =>
        rw [hm]
        rcases hs with ⟨rfl, rfl⟩ | rfl <;> simp [replyMoments, hp]
      | @listed list hm hp _ _ hr =>
        obtain ⟨o, ho, -⟩ := n.rememberOffers_eq list
        obtain ⟨first, hf, -, hsend⟩ := (h.rememberOffers list).requestAfterListing_ok
          (by rw [ho]; exact hp) hr
        have hfirst : dependentRequests (first.map request) = [] := by
          rcases hf with rfl | ⟨rfl, -⟩
          · rfl
          · decide
        simp [hsend, hm, replyMoments, hp, hfirst]
      | partly hm =>
        simp [hm, replyMoments]
      | @acknowledged list hm _ _ hr =>
        rw [acknowledge_asks (h.mono (List.Sublist.refl _) (Finset.Subset.refl _)) hr]
        simp [hm, replyMoments]
      | declined hm hr =>
        simp [hm, replyMoments, (decline_ok hr).2]
      | @offered list _ hm hp =>
        simp [hm, replyMoments, hp, (h.rememberOffers list).requestOptional_eq]
      | withdrawn hm =>
        simp [hm, replyMoments, withdraw_send]
      | authenticated hm hs ho =>
        rw [hm, CapStep.send_ofOut, dependentRequests_authenticates (SaslHandshake.observe_ok ho).2]
        rfl

end Requests

section Enabled

variable {c : Crypto} {random : Option (List UInt8)} {n n' : CapNegotiation} {step : CapStep}
  {m : IrcMessage} {tokens : List String} {token name : String}

theorem TokenEffect.mem_enabled (h : n.Coherent) (ht : TokenEffect n token n' step) :
    name ∈ n'.enabled ↔
      name ∈ n.enabled ∧ token ≠ "-" ++ name ∨ name = token ∧ name ∈ n.pending := by
  cases ht with
  | disabled x hx =>
    rw [stripFirst_dash] at hx
    subst hx
    have hp : name = "-" ++ x → name ∉ n.pending := fun e hn => by
      have := (h.plain hn).1
      rw [stripFirst_dash.mpr e] at this
      cases this
    have he : "-" ++ x = "-" ++ name ↔ x = name := by
      rw [← String.toList_inj, String.toList_append, String.toList_append, List.append_cancel_left_eq,
        String.toList_inj]
    simp only [Finset.mem_erase, ne_eq, he]
    grind
  | ignored hx hp =>
    have hne : token ≠ "-" ++ name := fun e => by rw [stripFirst_dash.mpr e] at hx; cases hx
    grind
  | granted hx hp =>
    have hne : token ≠ "-" ++ name := fun e => by rw [stripFirst_dash.mpr e] at hx; cases hx
    simp only [grant, Finset.mem_insert]
    grind
  | opened hx hp =>
    have hne : token ≠ "-" ++ name := fun e => by rw [stripFirst_dash.mpr e] at hx; cases hx
    rw [(h.grant hp).requestOptional_eq]
    simp only [grant, Finset.mem_insert]
    grind

theorem TokenEffect.mem_pending (h : n.Coherent) (ht : TokenEffect n token n' step)
    (hn : name ∈ n.pending) (hne : name ≠ token) : name ∈ n'.pending := by
  cases ht with
  | disabled => exact hn
  | ignored => exact hn
  | granted => exact (List.mem_erase_of_ne hne).mpr hn
  | opened _ hp =>
    rw [(h.grant hp).requestOptional_eq]
    exact List.mem_append_left _ ((List.mem_erase_of_ne hne).mpr hn)

theorem mem_of_acknowledge (h : n.Coherent)
    (ha : acknowledge c random tokens n = .ok (n', step)) (hn : name ∈ n'.enabled) :
    name ∈ n.enabled ∨ name ∈ tokens := by
  induction tokens generalizing n step with
  | nil => cases ha; exact .inl hn
  | cons token tokens ih =>
    obtain ⟨k, s, t, h₁, h₂, -⟩ := acknowledge_cons ha
    have ht := acknowledgeToken_ok h₁
    rcases ih (h.token ht) h₂ with hk | hk
    · rcases (ht.mem_enabled h).mp hk with ⟨hk, -⟩ | ⟨rfl, -⟩
      · exact .inl hk
      · exact .inr (by simp)
    · exact .inr (by simp [hk])

theorem acknowledge_mem (h : n.Coherent)
    (ha : acknowledge c random tokens n = .ok (n', step)) (hd : "-" ++ name ∉ tokens)
    (hn : name ∈ n.enabled ∨ name ∈ n.pending ∧ name ∈ tokens) : name ∈ n'.enabled := by
  induction tokens generalizing n step with
  | nil =>
    cases ha
    exact hn.resolve_right fun h => by cases h.2
  | cons token tokens ih =>
    obtain ⟨k, s, t, h₁, h₂, -⟩ := acknowledge_cons ha
    have ht := acknowledgeToken_ok h₁
    rw [List.mem_cons, not_or] at hd
    refine ih (h.token ht) h₂ hd.2 ?_
    rcases hn with hn | ⟨hp, hn⟩
    · exact .inl ((ht.mem_enabled h).mpr (.inl ⟨hn, Ne.symm hd.1⟩))
    · by_cases he : name = token
      · exact .inl ((ht.mem_enabled h).mpr (.inr ⟨he, hp⟩))
      · exact .inr ⟨ht.mem_pending h hp he, (List.mem_cons.mp hn).resolve_left he⟩

theorem acknowledge_not_mem (h : n.Coherent)
    (ha : acknowledge c random tokens n = .ok (n', step)) (ht : name ∉ tokens)
    (hd : name ∉ n.enabled ∨ "-" ++ name ∈ tokens) : name ∉ n'.enabled := by
  induction tokens generalizing n step with
  | nil =>
    cases ha
    exact hd.resolve_right (by simp)
  | cons token tokens ih =>
    obtain ⟨k, s, t, h₁, h₂, -⟩ := acknowledge_cons ha
    have he := acknowledgeToken_ok h₁
    rw [List.mem_cons, not_or] at ht
    refine ih (h.token he) h₂ ht.2 ?_
    rw [he.mem_enabled h]
    grind

theorem mem_settle_enabled : name ∈ n.settle.1.enabled ↔
    name ∈ n.enabled ∧ (needsBatch name = true → batch ∈ n.enabled) := by
  have he : name ∈ n.enforceDependencies.1.enabled ↔
      name ∈ n.enabled ∧ (needsBatch name = true → batch ∈ n.enabled) := by
    by_cases hb : batch ∈ n.enabled
    · rw [enforceDependencies_on hb]
      simp [hb]
    · rw [(enforceDependencies_off hb).1, Finset.mem_filter, mem_batched]
      simp [hb]
  rcases n.settle_cases with ⟨h, -⟩ | ⟨h, -⟩ <;> rw [h] <;> exact he

def TagsMet (n : CapNegotiation) : Prop :=
  labeledResponse ∈ n.enabled → messageTags ∈ n.enabled

theorem TagsMet.settle (h : labeledResponse ∈ n.enabled → batch ∈ n.enabled →
    messageTags ∈ n.enabled) : n.settle.1.TagsMet := by
  intro hl
  obtain ⟨hl, hb⟩ := mem_settle_enabled.mp hl
  exact mem_settle_enabled.mpr ⟨h hl (hb (by decide)), by simp [show needsBatch messageTags = false from rfl]⟩

theorem TagsMet.observe (h : n.Coherent) (ht : n.TagsMet)
    (hk : n.TagsKept (.line m random)) (ho : n.observe c random m = .ok (n', step)) :
    n'.TagsMet := by
  by_cases hp : n.phase = .inactive
  · rw [observe_inactive hp, Except.ok.injEq, Prod.mk.injEq] at ho
    exact ho.1 ▸ ht
  · obtain ⟨k, s, hl, rfl, -⟩ := observe_eq_ok hp ho
    have hl := line_ok hl
    have same (he : k.enabled = n.enabled) : k.settle.1.TagsMet :=
      .settle fun hl _ => he ▸ ht (he ▸ hl)
    cases hl with
    | idle => exact same rfl
    | @heard _ list =>
      obtain ⟨o, hoffer, -⟩ := n.rememberOffers_eq list
      exact same (by rw [hoffer])
    | @listed list _ hp _ _ hr =>
      obtain ⟨o, hoffer, -⟩ := n.rememberOffers_eq list
      obtain ⟨first, -, rfl, -⟩ := (h.rememberOffers list).requestAfterListing_ok
        (by rw [hoffer]; exact hp) hr
      exact same (by rw [hoffer])
    | partly => exact same (by rw [appendAck_eq])
    | @acknowledged list hm _ _ hr =>
      have hc : Coherent { n with ackLines := [] } :=
        h.mono (List.Sublist.refl _) (Finset.Subset.refl _)
      refine .settle fun hl hb => ?_
      have hkeep : n.AcknowledgeKeepsTags (n.appendAck list).ackLines := (hk _ hm).2 ⟨rfl, rfl⟩
      rcases hkeep (mem_of_acknowledge (n := { n with ackLines := [] }) hc hr hl) with ⟨hon, hoff⟩ | ⟨hd, hn⟩ | ⟨hd, hn⟩
      · exact acknowledge_mem hc hr hoff hon
      · exact absurd hl (acknowledge_not_mem hc hr hn (.inr hd))
      · exact absurd hb (acknowledge_not_mem hc hr hn (.inr hd))
    | declined _ hr => exact same (by rw [(decline_ok hr).1])
    | @offered list =>
      obtain ⟨o, hoffer, -⟩ := n.rememberOffers_eq list
      exact same (by rw [(h.rememberOffers list).requestOptional_eq, hoffer])
    | @withdrawn list _ hm =>
      have hkeep : n.WithdrawKeepsTags (splitWhitespace list) := (hk _ hm).1 rfl
      unfold WithdrawKeepsTags at hkeep
      generalize splitWhitespace list = names at *
      refine .settle fun hl hb => ?_
      rw [withdraw_eq, Finset.mem_filter] at hl hb ⊢
      refine ⟨ht hl.1, fun hmt => ?_⟩
      exact (hkeep ⟨hmt, hl.1⟩).elim hl.2 hb.2
    | authenticated => exact same rfl

end Enabled

theorem needsMet_iff {n : CapNegotiation} (hg : n.Grounded) : n.NeedsMet ↔ n.TagsMet := by
  constructor
  · exact fun h hl => h _ hl _ (mem_needs.mpr (.inr ⟨rfl, rfl⟩))
  · intro h name hn need hneed
    rcases mem_needs.mp hneed with ⟨rfl, hb⟩ | ⟨rfl, rfl⟩
    · by_contra hbatch
      exact (hg hbatch name hb).1 hn
    · exact h hn

def next (c : Crypto) (n : CapNegotiation) (call : CapCall) : Except Refusal CapNegotiation :=
  (n.call c call).map Prod.fst

theorem next_ok {c : Crypto} {n n' : CapNegotiation} {call : CapCall}
    (h : n.next c call = .ok n') : ∃ step, n.call c call = .ok (n', step) := by
  unfold next at h
  cases hc : n.call c call with
  | error e => rw [hc] at h; cases h
  | ok r =>
    rw [hc] at h
    cases h
    exact ⟨r.2, rfl⟩

def CallMet (c : Crypto) (n : CapNegotiation) (call : CapCall) : Prop :=
  n.NeedsMet ∧ (∀ n', n.next c call = .ok n' → n'.NeedsMet) ∧ n.AsksMet c call

end CapNegotiation

open CapNegotiation Machine

/-- In every run whose withdrawals keep message tags under labeled responses, every capability is
enabled and requested with what it needs only. -/
theorem dependencies_met (c : Crypto) (options : Ircv3Options)
    (credentials : Option SaslCredentials) (utf8 : Bool) (calls : List CapCall)
    (h : Along (BeforeRefusal TagsKept) (attempt (next c))
      (.ok (started options credentials utf8)) calls) :
    Along (BeforeRefusal (CallMet c)) (attempt (next c))
      (.ok (started options credentials utf8)) calls := by
  have hstep : ∀ (n : CapNegotiation) (call : CapCall) (n' : CapNegotiation), n.Coherent ∧ n.Grounded ∧ n.TagsMet → n.TagsKept call →
      n.next c call = .ok n' → n'.Coherent ∧ n'.Grounded ∧ n'.TagsMet := by
    intro n call n' ⟨hc, hg, ht⟩ hk hn
    obtain ⟨step, hs⟩ := next_ok hn
    obtain ⟨hc', hg'⟩ := hc.call hg hs
    refine ⟨hc', hg', ?_⟩
    cases call with
    | line m random => exact ht.observe hc hk hs
    | derived d =>
      obtain ⟨-, s, rfl, -⟩ := derived_ok hs
      exact ht
    | registered =>
      have hs : n.registered.map (fun n => (n, ({} : CapStep))) = .ok (n', step) := hs
      cases hr : n.registered with
      | error e => rw [hr] at hs; cases hs
      | ok k =>
        rw [hr] at hs
        cases hs
        obtain ⟨-, rfl⟩ := registered_ok hr
        exact ht
  refine attempt_along (fun n => n.Coherent ∧ n.Grounded ∧ n.TagsMet) hstep
    (fun n call hn hk => ⟨(needsMet_iff hn.2.1).mpr hn.2.2, fun n' hs => ?_, ?_⟩) ?_ h
  · have := hstep n call n' hn hk hs
    exact (needsMet_iff this.2.1).mpr this.2.2
  · exact ⟨fun n' step hs => asks_complete hn.1 hs, asks_met call⟩
  · obtain ⟨hc, hg⟩ := started_coherent options credentials utf8
    refine ⟨hc, hg, ?_⟩
    unfold started start
    split <;> simp [TagsMet, new]

def serverLine (subcommand : CapSubCommand) (list : String) : CapCall :=
  .line { command := .cap (some "*") subcommand (some list) none } none

def labeledGranted : List CapCall :=
  [serverLine .ls "message-tags batch labeled-response draft/chathistory",
    serverLine .ack "message-tags", serverLine .ack "batch", serverLine .ack "labeled-response"]

/-- A withdrawal of message tags with batch takes labeled responses along. -/
theorem withdrawal_with_batch : Along (BeforeRefusal (CallMet noCrypto)) (attempt (next noCrypto))
    (.ok (started { confirmedSending := true } none true))
    (labeledGranted ++ [serverLine .del "batch message-tags", serverLine .new "batch"]) :=
  dependencies_met noCrypto { confirmedSending := true } none true _ (by decide +kernel)

/-- A withdrawal of message tags alone leaves labeled responses enabled without them. -/
theorem labeled_outlives_tags : ∃ n, exec (attempt (next noCrypto))
      (.ok (started { confirmedSending := true } none true))
      (labeledGranted ++ [serverLine .del "message-tags"]) = .ok n ∧
    labeledResponse ∈ n.enabled ∧ messageTags ∉ n.enabled ∧ ¬ n.NeedsMet := by
  have hrun : (exec (attempt (next noCrypto))
      (.ok (started { confirmedSending := true } none true))
      (labeledGranted ++ [serverLine .del "message-tags"])).toOption.any
      (fun n => decide (labeledResponse ∈ n.enabled ∧ messageTags ∉ n.enabled)) = true := by
    decide +kernel
  cases h : exec (attempt (next noCrypto)) (.ok (started { confirmedSending := true } none true))
      (labeledGranted ++ [serverLine .del "message-tags"]) with
  | error e => rw [h] at hrun; cases hrun
  | ok n =>
    rw [h] at hrun
    obtain ⟨hl, hm⟩ := of_decide_eq_true hrun
    exact ⟨n, rfl, hl, hm, fun hn => hm (hn _ hl _ (by decide))⟩

end CayenChat
