import CayenChat.Cap.Effects
import Mathlib

/-! # Coherent negotiations

What every negotiation keeps: its requests are for extensions it wants and not
enabled yet, nothing is requested while the server lists its offers, and after
each line what needs batch is neither enabled nor requested without it.
-/

namespace CayenChat

open Capability

namespace CapNegotiation

structure Coherent (n : CapNegotiation) : Prop where
  optional : n.optional.Sublist extensions
  nodup : n.pending.Nodup
  wanted : ∀ name ∈ n.pending, name = Capability.sasl ∨ name ∈ n.optional
  apart : ∀ name ∈ n.pending, name ∉ n.enabled
  early : n.phase = .inactive ∨ n.phase = .listing → n.pending = [] ∧ n.enabled = ∅

def Grounded (n : CapNegotiation) : Prop :=
  batch ∉ n.enabled → ∀ name, needsBatch name = true → name ∉ n.enabled ∧ name ∉ n.pending

variable {c : Crypto} {random : Option (List UInt8)} {n n' : CapNegotiation} {step : CapStep}
  {m : IrcMessage}

theorem settle_cases (n : CapNegotiation) :
    n.settle.1 = n.enforceDependencies.1 ∧ n.settle.2.send = n.enforceDependencies.2.send ∧
      ¬(n.phase = .requesting ∧ n.enforceDependencies.1.pending = [] ∧ n.saslDone) ∨
    n.settle.1 = { n.enforceDependencies.1 with phase := .ended } ∧
      n.settle.2.send = n.enforceDependencies.2.send ++ [capEnd] ∧
      n.phase = .requesting ∧ n.enforceDependencies.1.pending = [] ∧ n.saslDone := by
  have hsame : n.enforceDependencies.1.phase = n.phase ∧
      n.enforceDependencies.1.saslDone = n.saslDone := by
    by_cases hb : batch ∈ n.enabled
    · rw [enforceDependencies_on hb]
      exact ⟨rfl, rfl⟩
    · rw [(enforceDependencies_off hb).1]
      exact ⟨rfl, rfl⟩
  rw [← hsame.1, ← hsame.2]
  simp only [CapNegotiation.settle, endIfSettled, CapStep.send_append]
  split
  · rename_i h
    exact .inr ⟨rfl, rfl, h⟩
  · rename_i h
    exact .inl ⟨rfl, List.append_nil _, h⟩

namespace Coherent

theorem optional_nodup (h : n.Coherent) : n.optional.Nodup := h.optional.nodup extensions_nodup

theorem plain_optional (h : n.Coherent) {name : String} (hn : name ∈ n.optional) : Plain name :=
  plain_extension (h.optional.mem hn)

theorem plain (h : n.Coherent) {name : String} (hn : name ∈ n.pending) : Plain name := by
  rcases h.wanted name hn with rfl | hn
  · exact plain_sasl
  · exact h.plain_optional hn

theorem requestOptional_eq (h : n.Coherent) : n.requestOptional =
    ({ n with pending := n.pending ++ n.wanting }, { send := n.wanting.map request }) :=
  CapNegotiation.requestOptional_eq h.optional_nodup

theorem requestOptional (h : n.Coherent) (hp : ¬(n.phase = .inactive ∨ n.phase = .listing)) :
    n.requestOptional.1.Coherent := by
  rw [h.requestOptional_eq]
  refine ⟨h.optional, ?_, ?_, ?_, fun hp' => absurd hp' hp⟩
  · refine h.nodup.append (h.optional_nodup.filter _) fun name hn hn' => ?_
    exact (requestable_iff.mp (mem_wanting.mp hn').2).2.2.1 hn
  · intro name hn
    rcases List.mem_append.mp hn with hn | hn
    · exact h.wanted name hn
    · exact .inr (mem_wanting.mp hn).1
  · intro name hn
    rcases List.mem_append.mp hn with hn | hn
    · exact h.apart name hn
    · exact (requestable_iff.mp (mem_wanting.mp hn).2).2.1

theorem mono (h : n.Coherent) {pending : List String} {enabled : Finset String}
    {offered : AList fun _ : String => Option String} {ackLines : List String}
    {sasl : Option SaslHandshake} (hp : pending.Sublist n.pending) (he : enabled ⊆ n.enabled) :
    ({ n with pending, enabled, offered, ackLines, sasl } : CapNegotiation).Coherent where
  optional := h.optional
  nodup := h.nodup.sublist hp
  wanted name hn := h.wanted name (hp.mem hn)
  apart name hn hn' := h.apart name (hp.mem hn) (he hn')
  early hphase := by
    obtain ⟨h₁, h₂⟩ := h.early hphase
    exact ⟨List.eq_nil_of_sublist_nil (h₁ ▸ hp), Finset.subset_empty.mp (h₂ ▸ he)⟩

theorem not_early (h : n.Coherent) {name : String} (hn : name ∈ n.pending) :
    ¬(n.phase = .inactive ∨ n.phase = .listing) := fun hp => by
  rw [(h.early hp).1] at hn
  cases hn

theorem grant (h : n.Coherent) {name : String} (hn : name ∈ n.pending) :
    (n.grant name).Coherent where
  optional := h.optional
  nodup := h.nodup.erase name
  wanted x hx := h.wanted x (List.mem_of_mem_erase hx)
  apart x hx hx' := by
    rcases Finset.mem_insert.mp hx' with rfl | hx'
    · exact (h.nodup.mem_erase_iff.mp hx).1 rfl
    · exact h.apart x (List.mem_of_mem_erase hx) hx'
  early hp := absurd hp (h.not_early hn)

theorem token (h : n.Coherent) {token : String} (ht : TokenEffect n token n' step) :
    n'.Coherent := by
  cases ht with
  | disabled name => exact h.mono (List.Sublist.refl _) (Finset.erase_subset _ _)
  | ignored => exact h
  | granted _ hp => exact (h.grant hp).mono (List.Sublist.refl _) (Finset.Subset.refl _)
  | opened _ hp => exact (h.grant hp).requestOptional (h.not_early hp)

theorem acknowledge {tokens : List String} (h : n.Coherent)
    (ha : CapNegotiation.acknowledge c random tokens n = .ok (n', step)) : n'.Coherent := by
  induction tokens generalizing n step with
  | nil => cases ha; exact h
  | cons token tokens ih =>
    obtain ⟨k, s, t, h₁, h₂, -⟩ := acknowledge_cons ha
    exact ih (h.token (acknowledgeToken_ok h₁)) h₂

theorem rememberOffers (h : n.Coherent) (list : String) : (n.rememberOffers list).Coherent := by
  obtain ⟨o, ho, -⟩ := n.rememberOffers_eq list
  rw [ho]
  exact h.mono (List.Sublist.refl _) (Finset.Subset.refl _)

theorem requestAfterListing_ok (h : n.Coherent) (hp : n.phase = .listing)
    (hr : n.requestAfterListing = .ok (n', step)) : ∃ first,
    (first = [] ∨ first = [Capability.sasl] ∧ n.sasl.isSome ∧ Capability.sasl ∈ n.offered) ∧
    n' = { n with phase := .requesting, pending := first ++ n.wanting } ∧
    step.send = (first ++ n.wanting).map request := by
  have hpending := (h.early (.inr hp)).1
  have hw (pending : List String) (hs : ∀ name ∈ pending, name = Capability.sasl) :
      wanting { n with phase := .requesting, pending } = n.wanting := by
    refine List.filter_congr fun x hx => ?_
    have hx : x ∉ pending := fun hn => sasl_not_extension (h.optional.mem (hs x hn ▸ hx))
    simp [requestable, hpending, hx]
  have he (pending : List String) := CapNegotiation.requestOptional_eq
    (n := { n with phase := .requesting, pending }) h.optional_nodup
  unfold CapNegotiation.requestAfterListing at hr
  dsimp only at hr
  rw [hpending] at hr
  split at hr
  · rw [Except.ok.injEq, he [], hw [] (by simp)] at hr
    cases hr
    exact ⟨[], .inl rfl, rfl, rfl⟩
  · rename_i handshake hs
    have hs : n.sasl = some handshake := hs
    split at hr
    · rename_i ho
      have ho : n.offersMechanism handshake.mechanism.name = true := ho
      rw [List.nil_append, he [Capability.sasl], hw _ (by simp)] at hr
      cases hr
      refine ⟨[Capability.sasl], .inr ⟨rfl, by rw [hs]; rfl, ?_⟩, rfl, rfl⟩
      by_contra hn
      rw [offersMechanism, AList.lookup_eq_none.mpr hn] at ho
      cases ho
    · cases hr

theorem requestAfterListing (h : n.Coherent) (hp : n.phase = .listing)
    (hr : n.requestAfterListing = .ok (n', step)) : n'.Coherent := by
  obtain ⟨hpending, henabled⟩ := h.early (.inr hp)
  obtain ⟨first, hfirst, rfl, -⟩ := h.requestAfterListing_ok hp hr
  have hsasl : ∀ name ∈ first, name = Capability.sasl := by
    rcases hfirst with rfl | ⟨rfl, -⟩ <;> simp
  refine ⟨h.optional, ?_, ?_, by simp [henabled], by simp⟩
  · refine List.Nodup.append ?_ (h.optional_nodup.filter _) fun name hn hn' => ?_
    · rcases hfirst with rfl | ⟨rfl, -⟩ <;> simp
    · exact sasl_not_extension (h.optional.mem (hsasl name hn ▸ (mem_wanting.mp hn').1))
  · intro name hn
    rcases List.mem_append.mp hn with hn | hn
    · exact .inl (hsasl name hn)
    · exact .inr (mem_wanting.mp hn).1

theorem lineEffect (h : n.Coherent) (hi : n.phase ≠ .inactive) (hl : LineEffect c random n m n' step) : n'.Coherent := by
  cases hl with
  | idle => exact h
  | heard => exact h.rememberOffers _
  | listed _ hp hr =>
    obtain ⟨o, ho, -⟩ := n.rememberOffers_eq _
    refine (h.rememberOffers _).requestAfterListing ?_ hr
    rw [ho]
    exact hp
  | partly =>
    rw [appendAck_eq]
    exact h.mono (List.Sublist.refl _) (Finset.Subset.refl _)
  | acknowledged _ hr =>
    exact acknowledge (h.mono (List.Sublist.refl _) (Finset.Subset.refl _)) hr
  | declined _ hr =>
    rw [(decline_ok hr).1]
    exact h.mono (List.diff_sublist _ _) (Finset.Subset.refl _)
  | @offered list _ _ hp =>
    obtain ⟨o, ho, -⟩ := n.rememberOffers_eq list
    refine (h.rememberOffers _).requestOptional ?_
    rw [ho]
    exact not_or.mpr ⟨hi, hp⟩
  | withdrawn =>
    rw [withdraw_eq]
    exact h.mono (List.filter_sublist) (Finset.filter_subset _ _)
  | authenticated => exact h.mono (List.Sublist.refl _) (Finset.Subset.refl _)

theorem enforceDependencies (h : n.Coherent) :
    n.enforceDependencies.1.Coherent ∧ n.enforceDependencies.1.Grounded := by
  by_cases hb : batch ∈ n.enabled
  · rw [enforceDependencies_on hb]
    exact ⟨h, fun hn => absurd hb hn⟩
  · rw [(enforceDependencies_off hb).1]
    refine ⟨h.mono List.filter_sublist (Finset.filter_subset _ _), fun _ name hn => ?_⟩
    simp [mem_batched, hn]

theorem settle (h : n.Coherent) : n.settle.1.Coherent ∧ n.settle.1.Grounded := by
  obtain ⟨h₁, h₂⟩ := h.enforceDependencies
  rcases n.settle_cases with ⟨he, -⟩ | ⟨he, -⟩
  · rw [he]; exact ⟨h₁, h₂⟩
  · rw [he]
    exact ⟨⟨h₁.optional, h₁.nodup, h₁.wanted, h₁.apart, by simp⟩, h₂⟩

theorem observe (h : n.Coherent) (hg : n.Grounded) (ho : n.observe c random m = .ok (n', step)) :
    n'.Coherent ∧ n'.Grounded := by
  by_cases hp : n.phase = .inactive
  · rw [observe_inactive hp] at ho
    cases ho
    exact ⟨h, hg⟩
  · obtain ⟨k, s, hl, rfl, -⟩ := observe_eq_ok hp ho
    exact (h.lineEffect hp (line_ok hl)).settle

end Coherent

/-! ## The phase and the SASL exchange -/

variable {s : CapStep}

/-- The exchange of a negotiation after a line: it is complete if it was, or by confirmation. -/
structure SaslKept (n n' : CapNegotiation) (m : IrcMessage) : Prop where
  none_iff : n'.sasl = none ↔ n.sasl = none
  complete : ∀ s, n'.sasl = some s → s.complete →
    ∃ s₀, n.sasl = some s₀ ∧ (s₀.complete ∨ s₀.confirms m)

theorem SaslKept.of_eq (h : n'.sasl = n.sasl) : SaslKept n n' m where
  none_iff := by rw [h]
  complete s hs hc := ⟨s, h ▸ hs, .inl hc⟩

theorem acknowledge_sasl {tokens : List String} (h : n.Coherent)
    (ha : acknowledge c random tokens n = .ok (n', s)) : n'.phase = n.phase ∧
      (n'.sasl = none ↔ n.sasl = none) ∧ ∀ s, n'.sasl = some s → s.complete → n.sasl = some s := by
  induction tokens generalizing n s with
  | nil => cases ha; exact ⟨rfl, Iff.rfl, fun _ hs _ => hs⟩
  | cons token tokens ih =>
    obtain ⟨k, s₁, s₂, h₁, h₂, -⟩ := acknowledge_cons ha
    have ht := acknowledgeToken_ok h₁
    obtain ⟨ih₁, ih₂, ih₃⟩ := ih (h.token ht) h₂
    have hk : k.phase = n.phase ∧ (k.sasl = none ↔ n.sasl = none) ∧
        ∀ s, k.sasl = some s → s.complete → n.sasl = some s := by
      cases ht with
      | opened _ hp =>
        rw [(h.grant hp).requestOptional_eq]
        exact ⟨rfl, Iff.rfl, fun _ hs _ => hs⟩
      | granted _ _ _ handshake hd =>
        rcases hd with rfl | ⟨hsome, s, rfl, hs⟩
        · exact ⟨rfl, Iff.rfl, fun _ hs _ => hs⟩
        · refine ⟨rfl, by simp [Option.isSome_iff_ne_none.mp hsome], fun s' hs' hc => ?_⟩
          rw [← Option.some.inj hs'] at hc
          exact absurd (by simpa [SaslHandshake.complete] using hc) hs
      | _ => exact ⟨rfl, Iff.rfl, fun _ hs _ => hs⟩
    exact ⟨ih₁.trans hk.1, ih₂.trans hk.2.1, fun s hs hc => hk.2.2 s (ih₃ s hs hc) hc⟩

theorem LineEffect.phase_sasl (h : n.Coherent) (hl : LineEffect c random n m n' s) :
    (n'.phase = n.phase ∨ n.phase = .listing ∧ n'.phase = .requesting) ∧ SaslKept n n' m := by
  cases hl with
  | idle => exact ⟨.inl rfl, .of_eq rfl⟩
  | @heard _ list =>
    obtain ⟨o, ho, -⟩ := n.rememberOffers_eq list
    rw [ho]
    exact ⟨.inl rfl, .of_eq rfl⟩
  | @listed list _ hp _ _ hr =>
    obtain ⟨o, ho, -⟩ := n.rememberOffers_eq list
    obtain ⟨first, -, rfl, -⟩ := (h.rememberOffers list).requestAfterListing_ok
      (by rw [ho]; exact hp) hr
    rw [ho]
    exact ⟨.inr ⟨hp, rfl⟩, .of_eq rfl⟩
  | partly =>
    rw [appendAck_eq]
    exact ⟨.inl rfl, .of_eq rfl⟩
  | acknowledged _ hr =>
    obtain ⟨h₁, h₂, h₃⟩ := acknowledge_sasl
      (h.mono (List.Sublist.refl _) (Finset.Subset.refl _)) hr
    exact ⟨.inl h₁, h₂, fun s hs hc => ⟨s, h₃ s hs hc, .inl hc⟩⟩
  | declined _ hr =>
    rw [(decline_ok hr).1]
    exact ⟨.inl rfl, .of_eq rfl⟩
  | @offered list =>
    obtain ⟨o, ho, -⟩ := n.rememberOffers_eq list
    rw [(h.rememberOffers list).requestOptional_eq, ho]
    exact ⟨.inl rfl, .of_eq rfl⟩
  | withdrawn =>
    rw [withdraw_eq]
    exact ⟨.inl rfl, .of_eq rfl⟩
  | authenticated _ hs ho =>
    refine ⟨.inl rfl, by simp [hs], fun s hs' hc => ⟨_, hs, ?_⟩⟩
    rw [← Option.some.inj hs'] at hc
    exact (SaslHandshake.observe_ok ho).1 hc

theorem enforceDependencies_frame (n : CapNegotiation) :
    n.enforceDependencies.1.phase = n.phase ∧ n.enforceDependencies.1.sasl = n.sasl ∧
      n.enforceDependencies.1.ackLines = n.ackLines ∧ capEnd ∉ n.enforceDependencies.2.send := by
  by_cases hb : batch ∈ n.enabled
  · rw [enforceDependencies_on hb]
    exact ⟨rfl, rfl, rfl, by simp⟩
  · rw [(enforceDependencies_off hb).1, (enforceDependencies_off hb).2]
    exact ⟨rfl, rfl, rfl, by simp [request, capEnd]⟩

theorem settle_started (h : n.Coherent) (hi : n.phase ≠ .inactive)
    (hl : LineEffect c random n m n' s) : n'.settle.1.phase ≠ .inactive := by
  have hk : n'.phase ≠ .inactive := by
    rcases (hl.phase_sasl h).1 with hp | ⟨-, hp⟩
    · rwa [hp]
    · rw [hp]; simp
  rcases n'.settle_cases with ⟨he, -⟩ | ⟨he, -⟩
  · rwa [he, n'.enforceDependencies_frame.1]
  · rw [he]; simp

/-! ## Runs -/

theorem new_optional (options : Ircv3Options) (credentials : Option SaslCredentials)
    (utf8 : Bool) : (new options credentials utf8).optional.Sublist extensions := by
  have keep : ∀ (b : Bool) (names : List String), (if b then names else []).Sublist names := by
    intro b names
    cases b
    · exact List.nil_sublist names
    · exact List.Sublist.refl names
  have also : (if utf8 then [accountTag] else []) ++ [setname] |>.Sublist [accountTag, setname] :=
    (keep utf8 [accountTag]).append (List.Sublist.refl _)
  exact ((((((((keep _ [messageTags]).append (keep _ [serverTime])).append (keep _ [batch])).append
    (keep _ [metadata])).append (keep _ [echoMessage])).append (keep _ [labeledResponse])).append
    (keep _ [accountNotify, extendedJoin])).append (keep _ [chathistory])).append
    ((keep _ _).trans also)

theorem started_coherent (options : Ircv3Options) (credentials : Option SaslCredentials)
    (utf8 : Bool) :
    (started options credentials utf8).Coherent ∧ (started options credentials utf8).Grounded := by
  have h := new_optional options credentials utf8
  unfold started start
  split <;> exact ⟨⟨h, List.nodup_nil, by simp [new], by simp [new], by simp [new]⟩,
    by simp [Grounded, new]⟩

theorem registered_ok (h : n.registered = .ok n') : n.saslDone ∧ n' = { n with
    sasl := none, phase := if n.phase ≠ .inactive then .ended else n.phase } := by
  unfold registered at h
  split at h
  · cases h
  · rename_i hs
    cases h
    refine ⟨?_, rfl⟩
    rw [saslDone]
    cases hn : n.sasl with
    | none => rfl
    | some s => simpa [hn] using hs

theorem derived_ok {d : Scram.Derived} (h : n.derived c d = .ok (n', step)) :
    n.sasl.isSome ∧ ∃ s : SaslHandshake, n' = { n with sasl := some s } ∧ s.phase ≠ .complete ∧
      SaslHandshake.Authenticates step.send := by
  unfold derived at h
  split at h
  · cases h
  · rename_i handshake hn
    cases hd : handshake.derived c d with
    | error e => rw [hd] at h; cases h
    | ok r =>
      rw [hd] at h
      cases h
      obtain ⟨h₁, h₂⟩ := SaslHandshake.derived_ok hd
      exact ⟨by rw [hn]; rfl, _, rfl, h₁, h₂⟩

theorem Coherent.call {k : CapCall} (h : n.Coherent) (hg : n.Grounded)
    (hk : n.call c k = .ok (n', step)) : n'.Coherent ∧ n'.Grounded := by
  cases k with
  | line m random => exact h.observe hg hk
  | derived d =>
    obtain ⟨-, s, rfl, -⟩ := derived_ok hk
    exact ⟨h.mono (List.Sublist.refl _) (Finset.Subset.refl _), hg⟩
  | registered =>
    have hk : n.registered.map (fun n => (n, ({} : CapStep))) = .ok (n', step) := hk
    cases hr : n.registered with
    | error e => rw [hr] at hk; cases hk
    | ok k =>
      rw [hr] at hk
      cases hk
      obtain ⟨-, rfl⟩ := registered_ok hr
      refine ⟨⟨h.optional, h.nodup, h.wanted, h.apart, fun hp => h.early (.inl ?_)⟩, hg⟩
      by_contra hi
      simp [hi] at hp

end CapNegotiation

end CayenChat
