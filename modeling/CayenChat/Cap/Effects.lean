import CayenChat.Cap.Negotiation

/-! # What a line does to a negotiation

The effect of each operation on the requests and on what is enabled, and one
inversion for a line. Names are drawn from a fixed list of extensions.
-/

namespace CayenChat

namespace Capability

def extensions : List String :=
  [messageTags, serverTime, batch, metadata, echoMessage, labeledResponse, accountNotify,
    extendedJoin, chathistory, accountTag, setname]

def batched : List String := [metadata, chathistory, labeledResponse]

theorem mem_batched {name : String} : name ∈ batched ↔ needsBatch name = true := by
  simp [batched, needsBatch, or_assoc]

theorem batched_nodup : batched.Nodup := by decide

theorem extensions_nodup : extensions.Nodup := by decide

def Plain (name : String) : Prop :=
  stripFirst '-' name = none ∧ splitOnce '=' name = none ∧ name ≠ "" ∧
    name.toList.all (!isWhitespace ·) = true

instance (name : String) : Decidable (Plain name) := by unfold Plain; infer_instance

theorem plain_sasl : Plain sasl := by decide

theorem plain_extension {name : String} (h : name ∈ extensions) : Plain name := by
  have : ∀ name ∈ extensions, Plain name := by decide +kernel
  exact this name h

theorem sasl_not_extension : sasl ∉ extensions := by decide

end Capability

open Capability

theorem stripFirst_dash {token name : String} :
    stripFirst '-' token = some name ↔ token = "-" ++ name := by
  rw [stripFirst_eq_some, ← String.toList_inj, String.toList_append]
  rfl

@[simp] theorem request_inj {a b : String} : request a = request b ↔ a = b := by simp [request]

namespace CapNegotiation

variable {c : Crypto} {random : Option (List UInt8)} {n n' : CapNegotiation} {step : CapStep}
  {m : IrcMessage}

/-! ## Requests -/

theorem requestable_pending {name x : String} (h : x ≠ name) :
    ({ n with pending := n.pending ++ [name] } : CapNegotiation).requestable x =
      n.requestable x := by
  simp [requestable, h]

theorem requestEach_eq {names : List String} (hn : names.Nodup) :
    requestEach names n = ({ n with pending := n.pending ++ names.filter n.requestable },
      { send := (names.filter n.requestable).map request }) := by
  induction names generalizing n with
  | nil => simp [requestEach]
  | cons name names ih =>
    rw [List.nodup_cons] at hn
    unfold requestEach
    split
    · rename_i hr
      have hf : names.filter (requestable { n with pending := n.pending ++ [name] }) =
          names.filter n.requestable :=
        List.filter_congr fun x hx => requestable_pending fun h => hn.1 (h ▸ hx)
      simp only [ih hn.2, hf, List.filter_cons_of_pos hr, List.append_assoc, List.cons_append,
        List.nil_append, List.map_cons]
      rfl
    · rename_i hr
      rw [ih hn.2, List.filter_cons_of_neg hr]

def wanting (n : CapNegotiation) : List String := n.optional.filter n.requestable

theorem mem_wanting {name : String} :
    name ∈ n.wanting ↔ name ∈ n.optional ∧ n.requestable name = true := by
  rw [wanting, List.mem_filter]

theorem requestOptional_eq (hn : n.optional.Nodup) :
    n.requestOptional = ({ n with pending := n.pending ++ n.wanting },
      { send := n.wanting.map request }) := requestEach_eq hn

theorem requestable_iff {name : String} : n.requestable name = true ↔
    name ∈ n.offered ∧ name ∉ n.enabled ∧ name ∉ n.pending ∧
      (needsBatch name = true → batch ∈ n.enabled) ∧
      (name = labeledResponse → messageTags ∈ n.enabled) ∧
      (name ∈ n.explicit ∨ ∃ d ∈ dependents name, d ∈ n.optional ∧ d ∈ n.offered) := by
  simp only [requestable, Bool.and_eq_true, Bool.or_eq_true, decide_eq_true_eq, bne_iff_ne,
    Bool.not_eq_true', List.any_eq_true, and_assoc, ← Bool.not_eq_true, ne_eq, imp_iff_not_or]

/-! ## Withdrawals -/

theorem withdraw_eq (names : List String) : (withdraw names n).1 = { n with
    offered := names.foldl (fun o name => o.erase name) n.offered
    pending := n.pending.filter fun name => decide (name ∉ names)
    enabled := n.enabled.filter fun name => name ∉ names } := by
  induction names generalizing n with
  | nil => simp [withdraw]
  | cons name names ih =>
    simp only [withdraw, ih, List.foldl_cons, List.filter_filter, CapNegotiation.mk.injEq, true_and,
      and_true]
    refine ⟨?_, List.filter_congr fun x _ => by grind⟩
    ext x
    simp [and_assoc, and_left_comm]

theorem withdraw_send (names : List String) : (withdraw names n).2.send = [] := by
  induction names generalizing n with
  | nil => rfl
  | cons name names ih =>
    simp only [withdraw, CapStep.send_append, ih, List.append_nil]
    split <;> rfl

theorem mem_foldl_erase {names : List String} {o : AList fun _ : String => Option String}
    {name : String} :
    name ∈ names.foldl (fun o name => o.erase name) o ↔ name ∈ o ∧ name ∉ names := by
  induction names generalizing o with
  | nil => simp
  | cons x names ih => simp [ih, AList.mem_erase, and_comm, and_left_comm, and_assoc]

theorem decline_ok {names : List String} (h : decline names n = .ok (n', step)) :
    n' = { n with pending := n.pending.diff names } ∧ step.send = [] := by
  induction names generalizing n n' step with
  | nil => cases h; exact ⟨rfl, rfl⟩
  | cons name names ih =>
    unfold decline at h
    split at h
    · split at h
      · cases h
      · cases hd : decline names { n with pending := n.pending.erase name } with
        | error e => rw [hd] at h; cases h
        | ok r =>
          rw [hd] at h
          cases h
          obtain ⟨h₁, h₂⟩ := ih hd
          exact ⟨by rw [h₁]; simp, by simp [h₂]⟩
    · rename_i hp
      obtain ⟨h₁, h₂⟩ := ih h
      exact ⟨by rw [h₁, List.diff_cons, List.erase_of_not_mem hp], h₂⟩

/-! ## Dependencies -/

theorem dropEach_eq (names : List String) : (dropEach names n).1 = { n with
    pending := n.pending.filter fun name => decide (name ∉ names)
    enabled := n.enabled.filter fun name => name ∉ names } := by
  induction names generalizing n with
  | nil => simp [dropEach]
  | cons name names ih =>
    unfold dropEach
    split
    · simp only [ih, List.filter_filter, CapNegotiation.mk.injEq, true_and, and_true]
      refine ⟨?_, List.filter_congr fun x _ => by grind⟩
      ext x
      simp [and_assoc, and_left_comm]
    · rename_i h
      rw [not_or] at h
      simp only [ih, CapNegotiation.mk.injEq, true_and, and_true]
      refine ⟨?_, List.filter_congr fun x hx => ?_⟩
      · ext x
        simp only [Finset.mem_filter, List.mem_cons, not_or]
        exact and_congr_right fun hx => (and_iff_right fun e : x = name => h.1 (e ▸ hx)).symm
      · simp [show x ≠ name from fun e => h.2 (e ▸ hx)]

def orphans (n : CapNegotiation) : List String :=
  batched.filter fun name => decide (name ∈ n.enabled ∨ name ∈ n.pending)

theorem mem_orphans {name : String} :
    name ∈ n.orphans ↔ needsBatch name = true ∧ (name ∈ n.enabled ∨ name ∈ n.pending) := by
  rw [orphans, List.mem_filter, mem_batched, decide_eq_true_eq]

theorem dropEach_send {names : List String} (hn : names.Nodup) : (dropEach names n).2.send =
    (names.filter fun name => decide (name ∈ n.enabled ∨ name ∈ n.pending)).map
      fun name => request ("-" ++ name) := by
  induction names generalizing n with
  | nil => rfl
  | cons name names ih =>
    rw [List.nodup_cons] at hn
    unfold dropEach
    split
    · rename_i h
      have hf : names.filter (fun x => decide (x ∈ n.enabled.erase name ∨
            x ∈ n.pending.filter (· != name))) =
          names.filter fun x => decide (x ∈ n.enabled ∨ x ∈ n.pending) := by
        refine List.filter_congr fun x hx => ?_
        have hne : x ≠ name := fun e => hn.1 (e ▸ hx)
        simp [hne]
      rw [List.filter_cons_of_pos (by simpa using h), List.map_cons, ← hf]
      simp only [CapStep.send_append, ih hn.2, List.cons_append, List.nil_append]
    · rename_i h
      rw [ih hn.2, List.filter_cons_of_neg (by simpa using h)]

theorem enforceDependencies_on (h : batch ∈ n.enabled) : n.enforceDependencies = (n, {}) :=
  if_pos h

theorem enforceDependencies_off (h : batch ∉ n.enabled) :
    n.enforceDependencies.1 = { n with
      pending := n.pending.filter fun name => decide (name ∉ batched)
      enabled := n.enabled.filter fun name => name ∉ batched } ∧
    n.enforceDependencies.2.send = n.orphans.map fun name => request ("-" ++ name) := by
  rw [enforceDependencies, if_neg h]
  exact ⟨dropEach_eq _, dropEach_send batched_nodup⟩

/-! ## Acknowledgements -/

/-- What one acknowledged token does. -/
inductive TokenEffect (n : CapNegotiation) (token : String) : CapNegotiation → CapStep → Prop
  | disabled (name : String) (h : stripFirst '-' token = some name) (step : CapStep)
      (hs : step.send = []) : TokenEffect n token { n with enabled := n.enabled.erase name } step
  | ignored (h : stripFirst '-' token = none) (hp : token ∉ n.pending) (step : CapStep)
      (hs : step.send = []) : TokenEffect n token n step
  | granted (h : stripFirst '-' token = none) (hp : token ∈ n.pending)
      (ht : token ≠ batch ∧ token ≠ messageTags) (handshake : Option SaslHandshake)
      (hd : handshake = n.sasl ∨
        n.sasl.isSome ∧ ∃ s, handshake = some s ∧ s.phase ≠ .complete)
      (step : CapStep) (hs : SaslHandshake.Authenticates step.send) :
      TokenEffect n token { n.grant token with sasl := handshake } step
  | opened (h : stripFirst '-' token = none) (hp : token ∈ n.pending)
      (ht : token = batch ∨ token = messageTags) (step : CapStep)
      (hs : step.send = (n.grant token).requestOptional.2.send) :
      TokenEffect n token (n.grant token).requestOptional.1 step

theorem acknowledgeToken_ok {token : String}
    (h : n.acknowledgeToken c random token = .ok (n', step)) : TokenEffect n token n' step := by
  unfold acknowledgeToken at h
  split at h
  · rename_i name hname
    cases h
    exact .disabled name hname _ rfl
  · rename_i hname
    split at h
    · rename_i hp
      dsimp only at h
      split at h
      · rename_i ht
        have hne : token ≠ batch ∧ token ≠ messageTags := by subst ht; decide
        split at h
        · rename_i handshake hsasl
          cases hst : handshake.start c random with
          | error e => rw [hst] at h; cases h
          | ok r =>
            rw [hst] at h
            cases h
            obtain ⟨hphase, hsend⟩ := SaslHandshake.start_ok hst
            exact .granted hname hp hne _
              (.inr ⟨by rw [show n.sasl = _ from hsasl]; rfl, _, rfl, by rw [hphase]; simp⟩) _ hsend
        · cases h
          exact .granted hname hp hne n.sasl (.inl rfl) _ SaslHandshake.authenticates_nil
      · split at h
        · rename_i ht
          cases h
          exact .opened hname hp ht _ rfl
        · rename_i ht
          cases h
          exact .granted hname hp (not_or.mp ht) n.sasl (.inl rfl) _ SaslHandshake.authenticates_nil
    · rename_i hp
      cases h
      exact .ignored hname hp _ rfl

theorem acknowledge_cons {token : String} {tokens : List String}
    (h : acknowledge c random (token :: tokens) n = .ok (n', step)) :
    ∃ k s t, n.acknowledgeToken c random token = .ok (k, s) ∧
      acknowledge c random tokens k = .ok (n', t) ∧ step = s ++ t := by
  unfold acknowledge at h
  cases h₁ : n.acknowledgeToken c random token with
  | error e => rw [h₁] at h; cases h
  | ok r =>
    rw [h₁] at h
    cases h₂ : acknowledge c random tokens r.1 with
    | error e => simp only [bind, Except.bind, h₂] at h; cases h
    | ok q =>
      simp only [bind, Except.bind, h₂] at h
      cases h
      exact ⟨_, _, _, rfl, h₂, rfl⟩

/-! ## Parts of an acknowledgement -/

def keepEach (p : String → Bool) (kept tokens : List String) : List String :=
  tokens.foldl (fun kept token =>
    if p token && decide (token ∉ kept) then kept ++ [token] else kept) kept

theorem mem_keepEach {p : String → Bool} {kept tokens : List String} {token : String} :
    token ∈ keepEach p kept tokens ↔ token ∈ kept ∨ token ∈ tokens ∧ p token = true := by
  induction tokens generalizing kept with
  | nil => simp [keepEach]
  | cons x tokens ih =>
    rw [keepEach, List.foldl_cons, ← keepEach, ih]
    grind

theorem filter_keepEach {p q : String → Bool} {kept tokens : List String} :
    (keepEach p kept tokens).filter q =
      keepEach (fun token => p token && q token) (kept.filter q) tokens := by
  induction tokens generalizing kept with
  | nil => rfl
  | cons x tokens ih =>
    rw [keepEach, List.foldl_cons, ← keepEach, ih, keepEach, keepEach, List.foldl_cons]
    congr 1
    by_cases hq : q x = true <;> by_cases hp : p x = true <;> by_cases hk : x ∈ kept <;>
      simp [hq, hp, hk, List.filter_append]

theorem appendAck_eq (list : String) : n.appendAck list =
    { n with ackLines := keepEach n.relevant n.ackLines (splitWhitespace list) } := by
  unfold appendAck
  generalize splitWhitespace list = tokens
  induction tokens generalizing n with
  | nil => rfl
  | cons x tokens ih =>
    rw [List.foldl_cons, keepEach, List.foldl_cons, ← keepEach]
    split
    · exact ih
    · exact ih

/-! ## Offers -/

def offerName (token : String) : String := ((splitOnce '=' token).map Prod.fst).getD token

theorem rememberOffer_eq (token : String) : ∃ offered, n.rememberOffer token = { n with offered } ∧
    (∀ name ∈ n.offered, name ∈ offered) ∧
    (∀ name ∈ offered, name ∈ n.offered ∨ name = offerName token) ∧
    (offerName token ≠ "" → offerName token = Capability.sasl ∨ offerName token ∈ n.optional →
      offerName token ∈ offered) := by
  have key : ∀ name value, name = offerName token →
      ∃ offered, (if name = "" ∨ (!decide (name = Capability.sasl ∨ name ∈ n.optional)) = true ∧
          name ∉ n.offered ∧ maxOffered ≤ n.offered.entries.length then n
        else { n with offered := n.offered.insert name value }) = { n with offered } ∧
      (∀ name ∈ n.offered, name ∈ offered) ∧
      (∀ name ∈ offered, name ∈ n.offered ∨ name = offerName token) ∧
      (offerName token ≠ "" → offerName token = Capability.sasl ∨ offerName token ∈ n.optional →
        offerName token ∈ offered) := by
    rintro name value rfl
    split
    · rename_i h
      refine ⟨n.offered, rfl, fun _ h => h, fun _ h => .inl h, fun h₁ h₂ => ?_⟩
      rcases h with h | h
      · exact absurd h h₁
      · simp [h₂] at h
    · refine ⟨_, rfl, fun x hx => ?_, fun x hx => ?_, fun _ _ => ?_⟩
      · simp [hx]
      · simpa [or_comm] using hx
      · simp
  unfold rememberOffer
  cases h : splitOnce '=' token with
  | none => exact key _ _ (by simp [offerName, h])
  | some r => exact key _ _ (by simp [offerName, h])

theorem rememberOffers_eq (list : String) : ∃ offered, n.rememberOffers list = { n with offered } ∧
    (∀ name ∈ n.offered, name ∈ offered) ∧
    (∀ name ∈ offered, name ∈ n.offered ∨
      ∃ token ∈ splitWhitespace list, name = offerName token) ∧
    ∀ token ∈ splitWhitespace list, offerName token ≠ "" →
      offerName token = Capability.sasl ∨ offerName token ∈ n.optional →
      offerName token ∈ offered := by
  unfold rememberOffers
  generalize splitWhitespace list = tokens
  induction tokens generalizing n with
  | nil => exact ⟨n.offered, rfl, fun _ h => h, fun _ h => .inl h, by simp⟩
  | cons x tokens ih =>
    obtain ⟨o, he, hmono, hnew, hadd⟩ := n.rememberOffer_eq x
    obtain ⟨o', he', hmono', hnew', hadd'⟩ := ih (n := { n with offered := o })
    refine ⟨o', by rw [List.foldl_cons, he, he'], fun y hy => hmono' y (hmono y hy),
      fun y hy => ?_, fun token ht h₁ h₂ => ?_⟩
    · rcases hnew' y hy with h | ⟨token, ht, rfl⟩
      · rcases hnew y h with h | rfl
        · exact .inl h
        · exact .inr ⟨x, by simp, rfl⟩
      · exact .inr ⟨token, by simp [ht], rfl⟩
    · rcases List.mem_cons.mp ht with rfl | ht
      · exact hmono' _ (hadd h₁ h₂)
      · exact hadd' token ht h₁ h₂

/-! ## A line -/

/-- What a line does, before what follows every line. -/
inductive LineEffect (c : Crypto) (random : Option (List UInt8)) (n : CapNegotiation)
    (m : IrcMessage) : CapNegotiation → CapStep → Prop
  | idle (h : (capReply m.command).all fun r => decide
      (r.1 ∉ ["ACK", "NAK", "NEW", "DEL"] ∧ ¬(r.1 = "LS" ∧ n.phase = .listing))) :
      LineEffect c random n m n {}
  | heard {subcommand list : String} {continued : Bool}
      (h : capReply m.command = some (subcommand, continued, list))
      (hs : subcommand = "LS" ∧ continued = true ∨ subcommand = "NEW")
      (hp : n.phase = .listing) : LineEffect c random n m (n.rememberOffers list) {}
  | listed {list : String} (h : capReply m.command = some ("LS", false, list))
      (hp : n.phase = .listing) {n' : CapNegotiation} {step : CapStep}
      (hr : (n.rememberOffers list).requestAfterListing = .ok (n', step)) :
      LineEffect c random n m n' step
  | partly {list : String} (h : capReply m.command = some ("ACK", true, list)) :
      LineEffect c random n m (n.appendAck list) {}
  | acknowledged {list : String} (h : capReply m.command = some ("ACK", false, list))
      {n' : CapNegotiation} {step : CapStep}
      (hr : acknowledge c random (n.appendAck list).ackLines { n with ackLines := [] } =
        .ok (n', step)) : LineEffect c random n m n' step
  | declined {list : String} {continued : Bool}
      (h : capReply m.command = some ("NAK", continued, list))
      {n' : CapNegotiation} {step : CapStep}
      (hr : decline (splitWhitespace list) n = .ok (n', step)) : LineEffect c random n m n' step
  | offered {list : String} {continued : Bool}
      (h : capReply m.command = some ("NEW", continued, list)) (hp : n.phase ≠ .listing) :
      LineEffect c random n m (n.rememberOffers list).requestOptional.1
        (n.rememberOffers list).requestOptional.2
  | withdrawn {list : String} {continued : Bool}
      (h : capReply m.command = some ("DEL", continued, list)) :
      LineEffect c random n m (withdraw (splitWhitespace list) n).1
        (withdraw (splitWhitespace list) n).2
  | authenticated (h : capReply m.command = none) {handshake handshake' : SaslHandshake}
      {out : Out} (hs : n.sasl = some handshake) (ho : handshake.observe c m = .ok (handshake', out)) :
      LineEffect c random n m { n with sasl := some handshake' } (CapStep.ofOut out)

theorem line_ok (h : n.line c random m = .ok (n', step)) : LineEffect c random n m n' step := by
  unfold line at h
  split at h
  · rename_i subcommand continued list hr
    unfold capLine at h
    split at h
    · rename_i hls
      obtain ⟨rfl, hp⟩ := hls
      dsimp only at h
      split at h
      · rename_i hc
        cases h
        exact .heard hr (.inl ⟨rfl, hc⟩) hp
      · rename_i hc
        rw [Bool.not_eq_true] at hc
        exact .listed (hc ▸ hr) hp h
    · split at h
      · rename_i hs
        subst hs
        dsimp only at h
        split at h
        · rename_i hc
          cases h
          exact .partly (hc ▸ hr)
        · rename_i hc
          rw [Bool.not_eq_true] at hc
          refine .acknowledged (hc ▸ hr) ?_
          rw [appendAck_eq] at h ⊢
          exact h
      · split at h
        · rename_i hs
          subst hs
          exact .declined hr h
        · split at h
          · rename_i hs
            subst hs
            rw [Except.ok.injEq] at h
            split at h
            · rename_i hp
              obtain ⟨rfl, rfl⟩ := Prod.mk.inj h.symm
              refine .offered hr ?_
              obtain ⟨o, ho, -⟩ := n.rememberOffers_eq list
              rwa [ho] at hp
            · rename_i hp
              cases h
              refine .heard hr (.inr rfl) ?_
              obtain ⟨o, ho, -⟩ := n.rememberOffers_eq list
              rw [ho] at hp
              exact not_not.mp hp
          · split at h
            · rename_i hs
              subst hs
              rw [Except.ok.injEq] at h
              obtain ⟨rfl, rfl⟩ := Prod.mk.inj h.symm
              exact .withdrawn hr
            · rename_i h₁ h₂ h₃ h₄ h₅
              cases h
              exact .idle (by simpa [hr, h₂, h₃, h₄, h₅] using not_and_or.mp h₁)
  · rename_i hr
    split at h
    · rename_i handshake hs
      cases ho : handshake.observe c m with
      | error e => rw [ho] at h; cases h
      | ok r =>
        rw [ho] at h
        cases h
        exact .authenticated hr hs ho
    · cases h
      exact .idle (by rw [hr]; rfl)

theorem observe_eq_ok (hp : n.phase ≠ .inactive) (h : n.observe c random m = .ok (n', step)) :
    ∃ k s, n.line c random m = .ok (k, s) ∧ n' = k.settle.1 ∧ step = s ++ k.settle.2 := by
  rw [observe, if_neg hp] at h
  cases hl : n.line c random m with
  | error e => rw [hl] at h; cases h
  | ok r =>
    rw [hl] at h
    cases h
    exact ⟨_, _, rfl, rfl, rfl⟩

theorem observe_inactive (hp : n.phase = .inactive) : n.observe c random m = .ok (n, {}) :=
  if_pos hp

end CapNegotiation

end CayenChat
