import CayenChat.Cap.Coherence
import CayenChat.Lib.Machine

/-! # The end of registration

A watch follows a negotiation from outside: the requests seen without an
answer, the end sent, and the confirmation of SASL. The end is sent once, and
only with all requests answered and SASL confirmed.
-/

namespace CayenChat

open Capability

/-- What happens to the requests on the wire, in the order the client acts on it. -/
inductive CapEvent
  | answered (name : String)
  | withdrawn (name : String)
  | sent (cmd : IrcCommand)

def asked (waiting : List String) (name : String) : List String :=
  match stripFirst '-' name with
  | some name => waiting.filter (· != name)
  | none => waiting ++ [name]

def CapEvent.apply (waiting : List String) : CapEvent → List String
  | answered name => waiting.erase name
  | withdrawn name => waiting.filter (· != name)
  | sent (.cap none .req none (some name)) => asked waiting name
  | sent _ => waiting

def CapEvent.applyAll (waiting : List String) (events : List CapEvent) : List String :=
  events.foldl CapEvent.apply waiting

/-- The tokens of an acknowledgement with the commands each makes the client send. -/
def handled (c : Crypto) (random : Option (List UInt8)) :
    List String → CapNegotiation → List (String × List IrcCommand)
  | [], _ => []
  | token :: tokens, n =>
    match n.acknowledgeToken c random token with
    | .ok (n, step) => (token, step.send) :: handled c random tokens n
    | .error _ => []

/-- A negotiation seen from outside. -/
structure Watch where
  negotiation : CapNegotiation
  /-- Whether SASL is configured. -/
  configured : Bool
  /-- Requests sent and not answered. -/
  unanswered : List String := []
  /-- Of these, the ones named by an acknowledgement that goes on. -/
  heard : List String := []
  /-- How often `CAP END` was sent. -/
  ends : ℕ := 0
  /-- The server confirmed the SASL exchange to a client that waited for it. -/
  confirmed : Bool := false
  registered : Bool := false

namespace Watch

def start (options : Ircv3Options) (sasl : Option SaslCredentials) (utf8 : Bool) : Watch :=
  let (negotiation, cmd) := (CapNegotiation.new options sasl utf8).start
  { negotiation, configured := sasl.isSome, ends := if cmd = capEnd then 1 else 0 }

/-- The requests an acknowledgement has named once a line is heard. -/
def hear (w : Watch) (m : IrcMessage) : List String :=
  match capReply m.command with
  | some (subcommand, _, list) =>
    if subcommand = "ACK" then
      CapNegotiation.keepEach (fun token => decide (token ∈ w.unanswered)) w.heard
        (splitWhitespace list)
    else w.heard
  | none => w.heard

/-- The events of a line, with the commands the client sends on it. An acknowledgement answers
with its last line, token by token. -/
def events (c : Crypto) (random : Option (List UInt8)) (w : Watch) (m : IrcMessage)
    (send : List IrcCommand) : List CapEvent :=
  match capReply m.command with
  | some (subcommand, continued, list) =>
    if subcommand = "ACK" ∧ continued = false then
      let tokens := handled c random (w.negotiation.appendAck list).ackLines
        { w.negotiation with ackLines := [] }
      ((w.hear m).filter (· ∉ tokens.map Prod.fst)).map .answered ++
        tokens.flatMap (fun (token, send) =>
          (if token ∈ w.hear m then [.answered token] else []) ++ send.map .sent) ++
        (send.drop (tokens.flatMap Prod.snd).length).map .sent
    else if subcommand = "NAK" then (splitWhitespace list).map .answered ++ send.map .sent
    else if subcommand = "DEL" then (splitWhitespace list).map .withdrawn ++ send.map .sent
    else send.map .sent
  | none => send.map .sent

def finalAck (m : IrcMessage) : Bool :=
  match capReply m.command with
  | some (subcommand, continued, _) => subcommand == "ACK" && !continued
  | none => false

/-- The watch after a call that was not refused. -/
def record (c : Crypto) (w : Watch) (negotiation : CapNegotiation) (step : CapStep) :
    CapCall → Watch
  | .line m random => { w with
      negotiation
      unanswered := CapEvent.applyAll w.unanswered (w.events c random m step.send)
      heard := if finalAck m then [] else w.hear m
      ends := w.ends + step.send.count capEnd
      confirmed := w.confirmed || w.negotiation.sasl.any (·.confirms m) }
  | .derived _ => { w with
      negotiation
      unanswered := CapEvent.applyAll w.unanswered (step.send.map .sent)
      ends := w.ends + step.send.count capEnd }
  | .registered => { w with negotiation, registered := true }

def step (c : Crypto) (w : Watch) (call : CapCall) : Except Refusal Watch :=
  (w.negotiation.call c call).map fun r => w.record c r.1 r.2 call

theorem step_ok {c : Crypto} {w w' : Watch} {call : CapCall} (h : w.step c call = .ok w') :
    ∃ n s, w.negotiation.call c call = .ok (n, s) ∧ w' = w.record c n s call := by
  unfold step at h
  cases hc : w.negotiation.call c call with
  | error e => rw [hc] at h; cases h
  | ok r =>
    rw [hc] at h
    cases h
    exact ⟨r.1, r.2, rfl, rfl⟩

end Watch

/-! ## The events and the requests of the client -/

namespace CapEvent

variable {l : List String} {events : List CapEvent} {names : List String} {send : List IrcCommand}

@[simp] theorem applyAll_nil : applyAll l [] = l := rfl

@[simp] theorem applyAll_append (more : List CapEvent) :
    applyAll l (events ++ more) = applyAll (applyAll l events) more := List.foldl_append ..

theorem applyAll_answered : applyAll l (names.map .answered) = l.diff names := by
  rw [List.diff_eq_foldl, applyAll, List.foldl_map]
  rfl

theorem applyAll_withdrawn :
    applyAll l (names.map .withdrawn) = l.filter fun name => decide (name ∉ names) := by
  induction names generalizing l with
  | nil => simp
  | cons name names ih =>
    rw [List.map_cons, applyAll, List.foldl_cons, ← applyAll, ih, apply, List.filter_filter]
    exact List.filter_congr fun x _ => by grind

theorem applyAll_requests (h : ∀ name ∈ names, Plain name) :
    applyAll l ((names.map request).map .sent) = l ++ names := by
  induction names generalizing l with
  | nil => simp
  | cons name names ih =>
    have hname : apply l (.sent (request name)) = l ++ [name] := by
      rw [show apply l (.sent (request name)) = asked l name from rfl, asked, (h name (by simp)).1]
    rw [List.map_cons, List.map_cons, applyAll, List.foldl_cons, ← applyAll, hname,
      ih fun x hx => h x (List.mem_cons_of_mem _ hx), List.append_assoc]
    rfl

theorem applyAll_disabled : applyAll l ((names.map fun name => request ("-" ++ name)).map .sent) =
    l.filter fun name => decide (name ∉ names) := by
  rw [← applyAll_withdrawn, applyAll, applyAll, List.map_map, List.foldl_map, List.foldl_map]
  congr 1
  funext l name
  have hs : stripFirst '-' ("-" ++ name) = some name := stripFirst_append '-' name
  rw [Function.comp_apply, show apply l (.sent (request ("-" ++ name))) = asked l ("-" ++ name)
    from rfl, asked, hs, apply]

theorem applyAll_authenticates (h : SaslHandshake.Authenticates send) :
    applyAll l (send.map .sent) = l := by
  induction send with
  | nil => rfl
  | cons cmd send ih =>
    obtain ⟨data, rfl⟩ := h cmd (by simp)
    exact ih fun x hx => h x (List.mem_cons_of_mem _ hx)

end CapEvent

namespace CapNegotiation

variable {c : Crypto} {random : Option (List UInt8)} {n n' : CapNegotiation} {s : CapStep}
  {m : IrcMessage} {w : Watch}

open CapEvent

theorem capEnd_not_mem_requests (names : List String) : capEnd ∉ names.map request := by
  simp [request, capEnd]

theorem capEnd_not_mem_authenticates {send : List IrcCommand}
    (h : SaslHandshake.Authenticates send) : capEnd ∉ send := fun hm => by
  obtain ⟨data, hd⟩ := h _ hm
  cases hd

theorem acknowledge_ackLines {tokens : List String} (h : n.Coherent)
    (ha : acknowledge c random tokens n = .ok (n', s)) : n'.ackLines = n.ackLines := by
  induction tokens generalizing n s with
  | nil => cases ha; rfl
  | cons token tokens ih =>
    obtain ⟨k, s₁, s₂, h₁, h₂, -⟩ := acknowledge_cons ha
    have ht := acknowledgeToken_ok h₁
    refine (ih (h.token ht) h₂).trans ?_
    cases ht with
    | opened _ hp => rw [(h.grant hp).requestOptional_eq]; rfl
    | _ => rfl

theorem Coherent.plain_wanting (h : n.Coherent) : ∀ name ∈ n.wanting, Plain name :=
  fun _ hn => h.plain_optional (mem_wanting.mp hn).1

theorem TokenEffect.applyAll {token : String} (h : n.Coherent) (ht : TokenEffect n token n' s)
    (answered : Bool) (ha : answered = true ↔ stripFirst '-' token = none) :
    applyAll n.pending ((if answered then [.answered token] else []) ++ s.send.map .sent) =
      n'.pending ∧ capEnd ∉ s.send := by
  cases ht with
  | disabled name hname _ hs =>
    have : answered = false := by simpa [hname] using ha
    simp [this, hs]
  | ignored hname hp _ hs =>
    rw [if_pos (ha.mpr hname), hs]
    exact ⟨List.erase_of_not_mem hp, by simp⟩
  | granted hname hp _ _ _ _ hs =>
    rw [if_pos (ha.mpr hname), applyAll_append, applyAll_authenticates hs]
    exact ⟨rfl, capEnd_not_mem_authenticates hs⟩
  | opened hname hp _ _ hs =>
    have hg := h.grant hp
    rw [if_pos (ha.mpr hname), applyAll_append, hs, hg.requestOptional_eq,
      applyAll_requests hg.plain_wanting]
    exact ⟨rfl, capEnd_not_mem_requests _⟩

theorem handled_ok {tokens heard : List String} (h : n.Coherent)
    (ha : acknowledge c random tokens n = .ok (n', s))
    (hh : ∀ token ∈ tokens, token ∈ heard ↔ stripFirst '-' token = none) :
    (handled c random tokens n).map Prod.fst = tokens ∧
    (handled c random tokens n).flatMap Prod.snd = s.send ∧
    applyAll n.pending ((handled c random tokens n).flatMap fun (token, send) =>
      (if token ∈ heard then [.answered token] else []) ++ send.map .sent) = n'.pending ∧
    capEnd ∉ s.send := by
  induction tokens generalizing n s with
  | nil =>
    cases ha
    exact ⟨rfl, rfl, rfl, by simp⟩
  | cons token tokens ih =>
    obtain ⟨k, s₁, s₂, h₁, h₂, rfl⟩ := acknowledge_cons ha
    have ht := acknowledgeToken_ok h₁
    obtain ⟨hp, he⟩ := ht.applyAll h (decide (token ∈ heard))
      (by simpa using hh token (by simp))
    obtain ⟨ih₁, ih₂, ih₃, ih₄⟩ := ih (h.token ht) h₂ fun x hx => hh x (by simp [hx])
    have hd : handled c random (token :: tokens) n = (token, s₁.send) :: handled c random tokens k := by
      rw [handled, h₁]
    simp only [decide_eq_true_eq] at hp
    rw [hd]
    refine ⟨by rw [List.map_cons, ih₁], by rw [List.flatMap_cons, ih₂]; rfl, ?_, by simp [he, ih₄]⟩
    rw [List.flatMap_cons, applyAll_append, hp, ih₃]

theorem settle_applyAll (n : CapNegotiation) :
    applyAll n.pending (n.settle.2.send.map .sent) = n.settle.1.pending := by
  have he : applyAll n.pending (n.enforceDependencies.2.send.map .sent) =
      n.enforceDependencies.1.pending := by
    by_cases hb : batch ∈ n.enabled
    · rw [enforceDependencies_on hb]
      rfl
    · rw [(enforceDependencies_off hb).1, (enforceDependencies_off hb).2, applyAll_disabled]
      refine List.filter_congr fun x hx => ?_
      simp [mem_orphans, mem_batched, hx]
  rcases n.settle_cases with ⟨h₁, h₂, -⟩ | ⟨h₁, h₂, -⟩
  · rw [h₁, h₂, he]
  · rw [h₁, h₂, List.map_append, applyAll_append, he]
    rfl

end CapNegotiation

def unsigned (token : String) : Bool := (stripFirst '-' token).isNone

/-- The watch agrees with the client's own account. -/
structure Watch.Agrees (w : Watch) : Prop where
  coherent : w.negotiation.Coherent
  unanswered : w.unanswered = w.negotiation.pending
  heard : w.heard = w.negotiation.ackLines.filter unsigned

namespace Watch.Agrees

variable {c : Crypto} {random : Option (List UInt8)} {k : CapNegotiation} {s : CapStep}
  {m : IrcMessage} {w : Watch} {more : List IrcCommand}

open CapNegotiation CapEvent

theorem hear_ack (h : w.Agrees) {continued : Bool} {list : String}
    (hm : capReply m.command = some ("ACK", continued, list)) :
    w.hear m = (w.negotiation.appendAck list).ackLines.filter unsigned := by
  rw [appendAck_eq, Watch.hear, hm]
  simp only [if_true]
  rw [filter_keepEach, h.heard, h.unanswered]
  congr 1
  funext token
  rw [relevant, unsigned]
  cases ht : stripFirst '-' token with
  | none => simp
  | some name =>
    have hn : token ∉ w.negotiation.pending := fun hn => by
      have := (h.coherent.plain hn).1
      rw [ht] at this
      cases this
    simp [hn]

theorem hear_other (hm : (capReply m.command).all fun r => decide (r.1 ≠ "ACK")) :
    w.hear m = w.heard ∧ finalAck m = false := by
  rw [Watch.hear, finalAck]
  cases h : capReply m.command with
  | none => exact ⟨rfl, rfl⟩
  | some r =>
    have hr : r.1 ≠ "ACK" := by simpa [h] using hm
    simp [hr]

theorem events_other (hm : (capReply m.command).all fun r => decide (r.1 ∉ ["ACK", "NAK", "DEL"]))
    (send : List IrcCommand) : w.events c random m send = send.map .sent := by
  rw [Watch.events]
  cases h : capReply m.command with
  | none => rfl
  | some r =>
    have hr : r.1 ∉ ["ACK", "NAK", "DEL"] := by simpa [h] using hm
    simp only [List.mem_cons, List.not_mem_nil, or_false, not_or] at hr
    simp [hr]

theorem line (h : w.Agrees) (hl : LineEffect c random w.negotiation m k s)
    (more : List IrcCommand) :
    applyAll w.unanswered (w.events c random m (s.send ++ more)) =
      applyAll k.pending (more.map .sent) ∧
    (if finalAck m then [] else w.hear m) = k.ackLines.filter unsigned ∧ capEnd ∉ s.send := by
  have other (hm : (capReply m.command).all fun r => decide (r.1 ∉ ["ACK", "NAK", "DEL"]))
      (ha : k.ackLines = w.negotiation.ackLines)
      (hs : applyAll w.negotiation.pending (s.send.map .sent) = k.pending) :
      applyAll w.unanswered (w.events c random m (s.send ++ more)) =
        applyAll k.pending (more.map .sent) ∧
      (if finalAck m then [] else w.hear m) = k.ackLines.filter unsigned := by
    obtain ⟨h₁, h₂⟩ := hear_other (w := w) (m := m) (by
      cases h : capReply m.command <;> simp_all)
    rw [events_other hm, List.map_append, applyAll_append, h.unanswered, hs, h₁, h₂, ha, h.heard]
    exact ⟨rfl, rfl⟩
  cases hl with
  | idle hm =>
    obtain ⟨h₁, h₂⟩ := other (by cases h : capReply m.command <;> simp_all) rfl rfl
    exact ⟨h₁, h₂, by simp⟩
  | @heard _ list _ hm hs =>
    obtain ⟨o, ho, -⟩ := w.negotiation.rememberOffers_eq list
    obtain ⟨h₁, h₂⟩ := other (by rw [hm]; rcases hs with ⟨rfl, -⟩ | rfl <;> rfl) (by rw [ho])
      (by rw [ho]; rfl)
    exact ⟨h₁, h₂, by simp⟩
  | @listed list hm hp _ _ hr =>
    obtain ⟨o, ho, -⟩ := w.negotiation.rememberOffers_eq list
    have hc := h.coherent.rememberOffers list
    obtain ⟨first, hf, rfl, hsend⟩ := hc.requestAfterListing_ok (by rw [ho]; exact hp) hr
    have hplain : ∀ name ∈ first ++ (w.negotiation.rememberOffers list).wanting, Plain name := by
      intro name hn
      rcases List.mem_append.mp hn with hn | hn
      · rcases hf with rfl | ⟨rfl, -⟩
        · cases hn
        · rw [List.mem_singleton.mp hn]
          exact plain_sasl
      · exact hc.plain_wanting name hn
    obtain ⟨h₁, h₂⟩ := other (by rw [hm]; rfl) (by rw [ho])
      (by rw [hsend, applyAll_requests hplain, (h.coherent.early (.inr hp)).1]; rfl)
    exact ⟨h₁, h₂, by rw [hsend]; exact capEnd_not_mem_requests _⟩
  | @partly list hm =>
    refine ⟨?_, ?_, by simp⟩
    · have he : w.events c random m (({} : CapStep).send ++ more) = more.map .sent := by
        simp [Watch.events, hm]
      rw [he, h.unanswered, appendAck_eq]
    · rw [show finalAck m = false by simp [finalAck, hm], if_neg (by simp), h.hear_ack hm]
  | @acknowledged list hm _ _ hr =>
    have hc : Coherent { w.negotiation with ackLines := [] } :=
      h.coherent.mono (List.Sublist.refl _) (Finset.Subset.refl _)
    have hh : ∀ token ∈ (w.negotiation.appendAck list).ackLines,
        token ∈ w.hear m ↔ stripFirst '-' token = none := by
      intro token ht
      rw [h.hear_ack hm, List.mem_filter, and_iff_right ht, unsigned, Option.isNone_iff_eq_none]
    obtain ⟨h₁, h₂, h₃, h₄⟩ := handled_ok hc hr hh
    have hall : (w.hear m).filter (fun token => decide (token ∉
        (w.negotiation.appendAck list).ackLines)) = [] := by
      rw [h.hear_ack hm, List.filter_eq_nil_iff]
      intro token ht
      simp [(List.mem_filter.mp ht).1]
    refine ⟨?_, ?_, h₄⟩
    · simp only [Watch.events, hm, and_self, if_true, h₁, h₂, hall, List.map_nil, List.nil_append,
        List.drop_left, applyAll_append]
      rw [h.unanswered]
      exact congrArg (applyAll · _) h₃
    · rw [show finalAck m = true by simp [finalAck, hm], if_pos rfl, acknowledge_ackLines hc hr]
      rfl
  | @declined list continued hm _ _ hr =>
    obtain ⟨rfl, hs⟩ := decline_ok hr
    obtain ⟨h₁, h₂⟩ := hear_other (w := w) (m := m) (by simp [hm])
    rw [hs, h₁, h₂, h.heard, h.unanswered]
    refine ⟨?_, rfl, by simp⟩
    simp only [Watch.events, hm]
    simp only [String.reduceEq, false_and, if_false, if_true, applyAll_append, applyAll_answered]
    rfl
  | @offered list continued hm hp =>
    obtain ⟨o, ho, -⟩ := w.negotiation.rememberOffers_eq list
    have hc := h.coherent.rememberOffers list
    have hpending : (w.negotiation.rememberOffers list).pending = w.negotiation.pending := by
      rw [ho]
    rw [hc.requestOptional_eq] at other ⊢
    obtain ⟨h₁, h₂⟩ := other (by rw [hm]; rfl) (by rw [ho])
      (by rw [applyAll_requests hc.plain_wanting, hpending])
    exact ⟨h₁, h₂, capEnd_not_mem_requests _⟩
  | @withdrawn list continued hm =>
    obtain ⟨h₁, h₂⟩ := hear_other (w := w) (m := m) (by simp [hm])
    rw [withdraw_send, withdraw_eq, h₁, h₂, h.heard, h.unanswered]
    refine ⟨?_, rfl, by simp⟩
    simp only [Watch.events, hm]
    simp only [String.reduceEq, false_and, if_false, if_true, applyAll_append, applyAll_withdrawn]
    rfl
  | authenticated hm _ ho =>
    have hs := (SaslHandshake.observe_ok ho).2
    obtain ⟨h₁, h₂⟩ := other (by rw [hm]; rfl) rfl
      (applyAll_authenticates hs)
    exact ⟨h₁, h₂, capEnd_not_mem_authenticates hs⟩

end Watch.Agrees

/-! ## What every watch keeps -/

structure Watch.Sound (w : Watch) : Prop extends w.Agrees where
  grounded : w.negotiation.Grounded
  quiet : w.negotiation.phase = .inactive → w.negotiation.ackLines = []
  complete : ∀ s, w.negotiation.sasl = some s → s.complete → w.confirmed
  configured : w.configured → w.negotiation.sasl = none → w.confirmed
  unsettled : w.negotiation.phase = .requesting →
    ¬(w.negotiation.pending = [] ∧ w.negotiation.saslDone)
  before : w.negotiation.phase = .listing ∨ w.negotiation.phase = .requesting → w.ends = 0
  after : w.negotiation.phase = .ended → w.registered ∨ w.ends = 1
  once : w.ends ≤ 1
  authenticated : w.registered → w.configured → w.confirmed

def Watch.Settled (w : Watch) : Prop :=
  w.unanswered = [] ∧ w.negotiation.saslDone ∧ (w.configured → w.confirmed)

namespace Watch.Sound

variable {c : Crypto} {w w' : Watch}

open CapNegotiation CapEvent

theorem confirmed_of_done (h : w.Sound) (hd : w.negotiation.saslDone) :
    w.configured → w.confirmed := fun hc => by
  cases hs : w.negotiation.sasl with
  | none => exact h.configured hc hs
  | some s => exact h.complete s hs (by simpa [saslDone, hs] using hd)

theorem start (options : Ircv3Options) (credentials : Option SaslCredentials) (utf8 : Bool) :
    (Watch.start options credentials utf8).Sound := by
  have hc := started_coherent options credentials utf8
  have hsasl : (new options credentials utf8).sasl = credentials.map SaslHandshake.new := rfl
  have hnone (h : credentials.isSome) : (new options credentials utf8).sasl ≠ none := by
    rw [hsasl]
    simpa [Option.isSome_iff_ne_none] using h
  have hcomplete : ∀ s, (new options credentials utf8).sasl = some s → ¬s.complete := by
    intro s hs
    rw [hsasl, Option.map_eq_some_iff] at hs
    obtain ⟨_, -, rfl⟩ := hs
    simp [SaslHandshake.complete, SaslHandshake.new]
  have hlist : (IrcCommand.cap none .ls (some "302") none) ≠ capEnd := by decide
  unfold started at hc
  unfold Watch.start
  simp only [CapNegotiation.start] at hc ⊢
  split at hc <;> rename_i hs
  · simp only [hs, if_true, if_neg hlist]
    exact ⟨⟨hc.1, rfl, rfl⟩, hc.2, by simp, fun s hs h => absurd h (hcomplete s hs),
      fun h hs => absurd hs (hnone h), by simp, by simp, by simp, by simp, by simp⟩
  · simp only [hs]
    exact ⟨⟨hc.1, rfl, rfl⟩, hc.2, fun _ => rfl, fun s hs h => absurd h (hcomplete s hs),
      fun h hs => absurd hs (hnone h), by simp [new], by simp [new], by simp [new], by simp,
      by simp⟩

theorem inactive (h : w.Sound) (hp : w.negotiation.phase = .inactive) (m : IrcMessage)
    (random : Option (List UInt8)) :
    applyAll w.unanswered (w.events c random m []) = w.unanswered ∧ w.hear m = [] := by
  obtain ⟨h₁, h₂⟩ := h.coherent.early (.inl hp)
  have hq := h.quiet hp
  have hu : w.unanswered = [] := h.unanswered.trans h₁
  have hheard : w.heard = [] := by rw [h.heard, hq]; rfl
  have hkeep : ∀ p, (∀ token, p token = false) → ∀ tokens, keepEach p [] tokens = [] := by
    intro p hp tokens
    exact List.eq_nil_iff_forall_not_mem.mpr fun x hx => by simp [mem_keepEach, hp] at hx
  have hhear : w.hear m = [] := by
    rw [Watch.hear, hheard, hu]
    split
    · split
      · exact hkeep _ (by simp) _
      · rfl
    · rfl
  refine ⟨?_, hhear⟩
  rw [Watch.events, hu, hhear]
  split
  · rename_i list _
    have hack : (w.negotiation.appendAck list).ackLines = [] := by
      rw [appendAck_eq, hq]
      refine hkeep _ (fun token => ?_) _
      rw [relevant, h₁, h₂]
      split <;> simp
    split
    · simp [hack, handled]
    · split
      · simp [applyAll_answered]
      · split
        · simp [applyAll_withdrawn]
        · rfl
  · rfl

theorem line {m : IrcMessage} {random : Option (List UInt8)} (h : w.Sound)
    (hs : w.step c (.line m random) = .ok w') :
    w'.Sound ∧ (w.ends < w'.ends → w'.Settled) := by
  obtain ⟨n', s, ho, rfl⟩ := Watch.step_ok hs
  have ho : w.negotiation.observe c random m = .ok (n', s) := ho
  have mono : w.confirmed → (w.confirmed || w.negotiation.sasl.any (·.confirms m)) = true :=
    fun hc => by rw [hc]; rfl
  by_cases hp : w.negotiation.phase = .inactive
  · rw [observe_inactive hp, Except.ok.injEq, Prod.mk.injEq] at ho
    obtain ⟨rfl, rfl⟩ := ho
    obtain ⟨hu, hh⟩ := h.inactive hp m random
    refine ⟨{ h with
      unanswered := hu.trans h.unanswered
      heard := ?_
      complete := fun s hs hc => mono (h.complete s hs hc)
      configured := fun hc hs => mono (h.configured hc hs)
      authenticated := fun hr hc => mono (h.authenticated hr hc) }, fun hlt => ?_⟩
    · simp [Watch.record, hh, h.quiet hp]
    · exact absurd hlt (Nat.lt_irrefl _)
  · obtain ⟨k, t, hl, rfl, rfl⟩ := observe_eq_ok hp ho
    have hl := line_ok hl
    have hk := h.coherent.lineEffect hp hl
    obtain ⟨hu, hh, he⟩ := h.toAgrees.line hl k.settle.2.send
    obtain ⟨hphase, hsasl⟩ := hl.phase_sasl h.coherent
    obtain ⟨hephase, hesasl, heack, hesend⟩ := k.enforceDependencies_frame
    rw [settle_applyAll] at hu
    have hcount : (t ++ k.settle.2).send.count capEnd = k.settle.2.send.count capEnd := by
      rw [CapStep.send_append, List.count_append, List.count_eq_zero.mpr he, Nat.zero_add]
    have hframe : k.settle.1.sasl = k.sasl ∧ k.settle.1.ackLines = k.ackLines := by
      rcases k.settle_cases with ⟨h₁, -⟩ | ⟨h₁, -⟩ <;> rw [h₁] <;> exact ⟨hesasl, heack⟩
    have hdone : k.settle.1.saslDone = k.saslDone := by rw [saslDone, hframe.1, saslDone]
    have hagrees : (w.record c k.settle.1 (t ++ k.settle.2) (.line m random)).Agrees :=
      ⟨hk.settle.1, hu, hh.trans (by rw [← hframe.2]; rfl)⟩
    have hcomplete : ∀ s, k.settle.1.sasl = some s → s.complete →
        (w.confirmed || w.negotiation.sasl.any (·.confirms m)) = true := by
      intro s hs hc
      obtain ⟨s₀, hs₀, h₀ | h₀⟩ := hsasl.complete s (hframe.1 ▸ hs) hc
      · exact mono (h.complete s₀ hs₀ h₀)
      · rw [hs₀, Option.any_some, h₀, Bool.or_true]
    have hconfigured : w.configured → k.settle.1.sasl = none →
        (w.confirmed || w.negotiation.sasl.any (·.confirms m)) = true :=
      fun hc hs => mono (h.configured hc (hsasl.none_iff.mp (hframe.1 ▸ hs)))
    have hauth : w.registered → w.configured →
        (w.confirmed || w.negotiation.sasl.any (·.confirms m)) = true :=
      fun hr hc => mono (h.authenticated hr hc)
    have hbefore : k.phase = .listing ∨ k.phase = .requesting → w.ends = 0 := by
      intro hk
      rcases hphase with hphase | ⟨hphase, -⟩
      · exact h.before (hphase ▸ hk)
      · exact h.before (.inl hphase)
    have hnot : k.phase ≠ .inactive := by
      rcases hphase with hphase | ⟨-, hphase⟩
      · rwa [hphase]
      · rw [hphase]; simp
    rcases k.settle_cases with ⟨h₁, h₂, h₃⟩ | ⟨h₁, h₂, h₃, h₄, h₅⟩
    · have hends : w.ends + (t ++ k.settle.2).send.count capEnd = w.ends := by
        rw [hcount, h₂, List.count_eq_zero.mpr hesend, Nat.add_zero]
      have hph : k.settle.1.phase = k.phase := by rw [h₁, hephase]
      refine ⟨{ hagrees with
        grounded := hk.settle.2
        quiet := fun hp => absurd (hph ▸ hp) hnot
        complete := hcomplete
        configured := hconfigured
        unsettled := fun hp hd => h₃ ⟨hph ▸ hp, h₁ ▸ hd.1, hdone ▸ hd.2⟩
        before := fun hp => hends.trans (hbefore (hph ▸ hp))
        after := fun hp => ?_
        once := hends.trans_le h.once
        authenticated := hauth }, fun hlt => ?_⟩
      · rcases hphase with hphase | ⟨-, hphase⟩
        · rcases h.after (hphase ▸ hph ▸ hp) with hr | hr
          · exact .inl hr
          · exact .inr (hends.trans hr)
        · have : k.settle.1.phase = .ended := hp
          rw [hph, hphase] at this
          cases this
      · have hlt : w.ends < w.ends + (t ++ k.settle.2).send.count capEnd := hlt
        omega
    · have hends : w.ends + (t ++ k.settle.2).send.count capEnd = 1 := by
        rw [hcount, h₂, List.count_append, List.count_eq_zero.mpr hesend, hbefore (.inr h₃)]
        rfl
      have hph : k.settle.1.phase = .ended := by rw [h₁]
      have hsound : (w.record c k.settle.1 (t ++ k.settle.2) (.line m random)).Sound :=
        { hagrees with
          grounded := hk.settle.2
          quiet := fun hp => by rw [show k.settle.1.phase = _ from hp] at hph; cases hph
          complete := hcomplete
          configured := hconfigured
          unsettled := fun hp => by rw [show k.settle.1.phase = _ from hp] at hph; cases hph
          before := fun hp => by
            rcases hp with hp | hp <;> (rw [show k.settle.1.phase = _ from hp] at hph; cases hph)
          after := fun _ => .inr hends
          once := hends.le
          authenticated := hauth }
      refine ⟨hsound, fun _ => ⟨hu.trans (by rw [h₁]; exact h₄), ?_, ?_⟩⟩
      · exact hdone.trans h₅
      · exact hsound.confirmed_of_done (hdone.trans h₅)

theorem step {call : CapCall} (h : w.Sound) (hs : w.step c call = .ok w') :
    w'.Sound ∧ (w.ends < w'.ends → w'.Settled) := by
  cases call with
  | line m random => exact h.line hs
  | derived d =>
    obtain ⟨n', s, ho, rfl⟩ := Watch.step_ok hs
    obtain ⟨hsome, handshake, rfl, hphase, hsend⟩ := CapNegotiation.derived_ok ho
    have hends : w.ends + s.send.count capEnd = w.ends := by
      rw [List.count_eq_zero.mpr (capEnd_not_mem_authenticates hsend), Nat.add_zero]
    have hnot : ¬handshake.complete := by simpa [SaslHandshake.complete] using hphase
    refine ⟨{
      coherent := h.coherent.mono (List.Sublist.refl _) (Finset.Subset.refl _)
      unanswered := (applyAll_authenticates hsend).trans h.unanswered
      heard := h.heard
      grounded := h.grounded
      quiet := h.quiet
      complete := fun s hs hc => absurd (Option.some.inj hs ▸ hc) hnot
      configured := fun _ hs => by cases hs
      unsettled := fun _ hd => hnot hd.2
      before := fun hp => hends.trans (h.before hp)
      after := fun hp => (h.after hp).imp_right hends.trans
      once := hends.trans_le h.once
      authenticated := h.authenticated }, fun hlt => ?_⟩
    have hlt : w.ends < w.ends + s.send.count capEnd := hlt
    omega
  | registered =>
    obtain ⟨n', s, ho, rfl⟩ := Watch.step_ok hs
    have hc := h.coherent.call h.grounded ho
    cases hr : w.negotiation.registered with
    | error e => rw [CapNegotiation.call, hr] at ho; cases ho
    | ok k =>
      rw [CapNegotiation.call, hr] at ho
      cases ho
      obtain ⟨hd, rfl⟩ := registered_ok hr
      have hphase (p : CapPhase) (hp : p = .listing ∨ p = .requesting) :
          (if w.negotiation.phase ≠ .inactive then .ended else w.negotiation.phase) ≠ p := by
        split
        · rcases hp with rfl | rfl <;> simp
        · rename_i hi
          rw [not_not.mp hi]
          rcases hp with rfl | rfl <;> simp
      refine ⟨{
        coherent := hc.1
        unanswered := h.unanswered
        heard := h.heard
        grounded := hc.2
        quiet := fun hp => h.quiet ?_
        complete := fun s hs _ => by cases hs
        configured := fun hc _ => h.confirmed_of_done hd hc
        unsettled := fun hp => absurd hp (hphase _ (.inr rfl))
        before := fun hp => by
          rcases hp with hp | hp
          · exact absurd hp (hphase _ (.inl rfl))
          · exact absurd hp (hphase _ (.inr rfl))
        after := fun _ => .inl rfl
        once := h.once
        authenticated := fun _ hc => h.confirmed_of_done hd hc }, fun hlt => ?_⟩
      · by_contra hi
        have hp : (if w.negotiation.phase ≠ .inactive then .ended else w.negotiation.phase) =
          CapPhase.inactive := hp
        rw [if_pos hi] at hp
        cases hp
      · exact absurd hlt (Nat.lt_irrefl _)

end Watch.Sound

theorem Watch.start_settled (options : Ircv3Options) (credentials : Option SaslCredentials)
    (utf8 : Bool) (h : 0 < (Watch.start options credentials utf8).ends) :
    (Watch.start options credentials utf8).Settled := by
  have hs := Watch.Sound.start options credentials utf8
  suffices hd : (Watch.start options credentials utf8).negotiation.saslDone from
    ⟨by unfold Watch.start; rfl, hd, hs.confirmed_of_done hd⟩
  revert h
  unfold Watch.start
  simp only [CapNegotiation.start]
  split <;> rename_i hn
  · simp [capEnd]
  · intro _
    simp only [Bool.or_eq_true, not_or, Bool.not_eq_true, Option.isSome_eq_false_iff,
      Option.isNone_iff_eq_none] at hn
    simp [CapNegotiation.saslDone, hn.1]

open Machine in
/-- In every run `CAP END` is sent at most once and only with all requests answered and SASL
confirmed; it is not held back once they are; and nothing registers without the confirmation of
a configured SASL exchange. -/
theorem registration_ended_once (c : Crypto) (options : Ircv3Options)
    (credentials : Option SaslCredentials) (utf8 : Bool) (calls : List CapCall) (w : Watch)
    (h : exec (attempt (Watch.step c)) (.ok (Watch.start options credentials utf8)) calls =
      .ok w) :
    w.ends ≤ 1 ∧
    (0 < (Watch.start options credentials utf8).ends →
      (Watch.start options credentials utf8).Settled) ∧
    (∀ call w', w.step c call = .ok w' → w.ends < w'.ends → w'.Settled) ∧
    (w.negotiation.phase = .requesting ∨ w.negotiation.phase = .ended → w.unanswered = [] →
      w.negotiation.saslDone → w.registered ∨ w.ends = 1) ∧
    (w.registered → credentials.isSome → w.confirmed) := by
  have hrun : w.Sound ∧ w.configured = credentials.isSome := by
    refine attempt_invariant' (fun w => w.Sound ∧ w.configured = credentials.isSome)
      (fun w call w' hw hs => ⟨(hw.1.step hs).1, ?_⟩)
      ⟨.start options credentials utf8, rfl⟩ h
    obtain ⟨n, s, -, rfl⟩ := Watch.step_ok hs
    rw [← hw.2]
    cases call <;> rfl
  obtain ⟨hw, hc⟩ := hrun
  refine ⟨hw.once, Watch.start_settled options credentials utf8,
    fun call w' hs => (hw.step hs).2, ?_, fun hr hs => hw.authenticated hr (hc ▸ hs)⟩
  rintro (hp | hp) hu hd
  · exact absurd ⟨hw.unanswered ▸ hu, hd⟩ (hw.unsettled hp)
  · exact hw.after hp

/-- Base64 and the rest as one PLAIN login needs them. -/
def plainCrypto : Crypto where
  encode bytes := if bytes = [0, 117, 0, 112] then "AHUAcA==" else ""
  decode text := if text = "" then some [] else none
  saslprep := some
  digest _ _ := []
  hmac _ _ _ := []
  pbkdf2 _ _ _ _ := []
  keyIsValid _ := false
  sign _ _ := .error ""

/-- A server's lines in a PLAIN login with `batch` declined and `setname` granted. -/
def plainLogin : List CapCall :=
  [.line { command := .cap (some "*") .ls (some "sasl=PLAIN batch setname") none } none,
    .line { command := .cap (some "*") .ack (some "sasl") none } none,
    .line { command := .cap (some "*") .nak (some "batch") none } none,
    .line { command := .authenticate "+" } none,
    .line { command := .response ⟨903⟩ ["u", "ok"] } none,
    .line { command := .cap (some "*") .ack (some "setname") none } none,
    .line { command := .response .rplWelcome ["u", "hi"] } none,
    .registered]

open Machine in
theorem plain_login_registers : ∃ w, exec (attempt (Watch.step plainCrypto))
      (.ok (Watch.start { batch := true } (some ⟨.plain, "u", "p"⟩) true)) plainLogin = .ok w ∧
    (w.ends = 1 ∧ w.registered = true ∧ w.confirmed = true) ∧ w.ends ≤ 1 := by
  have hrun : (exec (attempt (Watch.step plainCrypto))
      (.ok (Watch.start { batch := true } (some ⟨.plain, "u", "p"⟩) true)) plainLogin).toOption.any
      (fun w => decide (w.ends = 1 ∧ w.registered = true ∧ w.confirmed = true)) = true := by
    decide +kernel
  cases h : exec (attempt (Watch.step plainCrypto))
      (.ok (Watch.start { batch := true } (some ⟨.plain, "u", "p"⟩) true)) plainLogin with
  | error e => rw [h] at hrun; cases hrun
  | ok w =>
    rw [h] at hrun
    exact ⟨w, rfl, of_decide_eq_true hrun,
      (registration_ended_once plainCrypto _ _ _ plainLogin w h).1⟩

end CayenChat
