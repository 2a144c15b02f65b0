import CayenChat.Cap.Connection

/-! # Agreement on capabilities

Each line the client reads, and each step of the server, keeps the two sides
consistent up to what is in flight. With nothing in flight they agree.
-/

namespace CayenChat

open Capability

/-! ## The lines as text -/

theorem words_chars {tokens : List String} (h : ∀ token ∈ tokens, isWord token = true) :
    (((joinWith " " tokens).toList.splitOnP isWhitespace).filter (!·.isEmpty)) =
      tokens.map String.toList := by
  have hword : ∀ token ∈ tokens, token.toList ≠ [] ∧ ∀ c ∈ token.toList, isWhitespace c = false := by
    intro token ht
    have := h token ht
    rw [isWord, Bool.and_eq_true, bne_iff_ne, List.all_eq_true] at this
    exact ⟨fun he => this.1 (String.toList_eq_nil_iff.mp he), fun c hc => by simpa using this.2 c hc⟩
  induction tokens with
  | nil => rfl
  | cons token tokens ih =>
    obtain ⟨hne, hspace⟩ := hword token (by simp)
    have ih := ih (fun x hx => h x (by simp [hx])) fun x hx => hword x (by simp [hx])
    cases tokens with
    | nil => simp [joinWith, List.splitOnP_eq_singleton hspace, hne]
    | cons next tokens =>
      have hjoin : (joinWith " " (token :: next :: tokens)).toList =
          token.toList ++ ' ' :: (joinWith " " (next :: tokens)).toList := by
        simp [joinWith, String.toList_append]
      rw [hjoin, List.splitOnP_append_cons_of_forall_mem hspace ' ' (by decide),
        List.filter_cons_of_pos (by simpa using hne), ih]
      rfl

theorem splitWhitespace_joinWith {tokens : List String} (h : ∀ token ∈ tokens, isWord token = true) :
    splitWhitespace (joinWith " " tokens) = tokens := by
  rw [splitWhitespace, words_chars h, List.map_map]
  simp [Function.comp_def]

theorem splitWhitespace_word {token : String} (h : isWord token = true) :
    splitWhitespace token = [token] :=
  @splitWhitespace_joinWith [token] (by simpa using h)

theorem Capability.Plain.isWord {name : String} (h : Plain name) : isWord name = true := by
  rw [CayenChat.isWord, Bool.and_eq_true, bne_iff_ne]
  exact ⟨h.2.2.1, h.2.2.2⟩

theorem isWord_dash {name : String} (h : isWord name = true) : isWord ("-" ++ name) = true := by
  rw [isWord, Bool.and_eq_true, bne_iff_ne, List.all_eq_true] at h ⊢
  refine ⟨fun he => ?_, fun c hc => ?_⟩
  · have := congrArg String.toList he
    simp at this
  · rw [String.toList_append, List.mem_append] at hc
    rcases hc with hc | hc
    · obtain rfl : c = '-' := by simpa using hc
      decide
    · exact h.2 c hc

def ServerLine.Worded : ServerLine → Prop
  | .offers _ tokens | .new tokens | .del tokens => ∀ token ∈ tokens, isWord token = true
  | .ack token | .nak token => isWord token = true
  | .other m => capReply m.command = none

/-! ## The client's lines -/

namespace CapNegotiation

def view (n : CapNegotiation) : View where
  offered := n.offered.keys.toFinset
  enabled := n.enabled
  pending := n.pending

variable {c : Crypto} {random : Option (List UInt8)} {n n' k : CapNegotiation} {step s : CapStep}
  {m : IrcMessage} {lines : List ServerLine} {names : List String}

@[simp] theorem mem_view_offered {name : String} : name ∈ n.view.offered ↔ name ∈ n.offered := by
  rw [view, List.mem_toFinset, AList.mem_keys]

theorem asks_requests (h : ∀ name ∈ names, Plain name) :
    (names.map request).filterMap (Ask.ofCommand lines) =
      names.map fun name => .on name (decide (∃ line ∈ lines, name ∈ line.withdraws)) := by
  rw [List.filterMap_map]
  induction names with
  | nil => rfl
  | cons name names ih =>
    have hp : Ask.ofCommand lines (request name) =
        some (.on name (decide (∃ line ∈ lines, name ∈ line.withdraws))) := by
      simp only [request, Ask.ofCommand, (h name (by simp)).1]
    rw [List.filterMap_cons_some (by exact hp), ih fun x hx => h x (by simp [hx]), List.map_cons]

theorem asks_drops : (names.map fun name => request ("-" ++ name)).filterMap
    (Ask.ofCommand lines) = names.map .off := by
  rw [List.filterMap_map]
  induction names with
  | nil => rfl
  | cons name names ih =>
    have hs : stripFirst '-' ("-" ++ name) = some name := stripFirst_append '-' name
    have hp : Ask.ofCommand lines (request ("-" ++ name)) = some (.off name) := by
      simp only [request, Ask.ofCommand, hs]
    rw [List.filterMap_cons_some (by exact hp), ih, List.map_cons]

theorem asks_authenticates {send : List IrcCommand} (h : SaslHandshake.Authenticates send) :
    send.filterMap (Ask.ofCommand lines) = [] := by
  rw [List.filterMap_eq_nil_iff]
  intro cmd hc
  obtain ⟨data, rfl⟩ := h cmd hc
  rfl

theorem settle_asks (n : CapNegotiation) (lines : List ServerLine) :
    n.settle.1.offered = n.offered ∧ n.settle.1.ackLines = n.ackLines ∧
    ((batch ∈ n.enabled ∨ n.orphans = []) ∧ n.settle.1.enabled = n.enabled ∧
        n.settle.1.pending = n.pending ∧ n.settle.2.send.filterMap (Ask.ofCommand lines) = [] ∨
      batch ∉ n.enabled ∧ n.settle.1.enabled = n.enabled.filter (fun x => x ∉ n.orphans) ∧
        n.settle.1.pending = n.pending.filter (fun x => decide (x ∉ n.orphans)) ∧
        n.settle.2.send.filterMap (Ask.ofCommand lines) = n.orphans.map .off) := by
  have hend : [capEnd].filterMap (Ask.ofCommand lines) = [] := rfl
  suffices h : n.enforceDependencies.1.offered = n.offered ∧
      n.enforceDependencies.1.ackLines = n.ackLines ∧
      ((batch ∈ n.enabled ∨ n.orphans = []) ∧ n.enforceDependencies.1.enabled = n.enabled ∧
          n.enforceDependencies.1.pending = n.pending ∧
          n.enforceDependencies.2.send.filterMap (Ask.ofCommand lines) = [] ∨
        batch ∉ n.enabled ∧
          n.enforceDependencies.1.enabled = n.enabled.filter (fun x => x ∉ n.orphans) ∧
          n.enforceDependencies.1.pending = n.pending.filter (fun x => decide (x ∉ n.orphans)) ∧
          n.enforceDependencies.2.send.filterMap (Ask.ofCommand lines) = n.orphans.map .off) by
    rcases n.settle_cases with ⟨h₁, h₂, -⟩ | ⟨h₁, h₂, -⟩
    · rw [h₁, h₂]
      exact h
    · rw [h₁, h₂, List.filterMap_append, hend, List.append_nil]
      exact h
  by_cases hb : batch ∈ n.enabled
  · rw [enforceDependencies_on hb]
    exact ⟨rfl, rfl, .inl ⟨.inl hb, rfl, rfl, rfl⟩⟩
  · rw [(enforceDependencies_off hb).1, (enforceDependencies_off hb).2, asks_drops]
    refine ⟨rfl, rfl, .inr ⟨hb, ?_, ?_, rfl⟩⟩
    · refine Finset.filter_congr fun x hx => ?_
      simp [mem_orphans, mem_batched, hx]
    · refine List.filter_congr fun x hx => ?_
      simp [mem_orphans, mem_batched, hx]

theorem Grounded.orphans (h : n.Grounded) (hb : batch ∉ n.enabled) : n.orphans = [] := by
  rw [List.eq_nil_iff_forall_not_mem]
  intro x hx
  obtain ⟨hx, he⟩ := mem_orphans.mp hx
  exact he.elim (h hb x hx).1 (h hb x hx).2

theorem Grounded.settle_view (h : n.Grounded) (lines : List ServerLine) :
    n.settle.1.view = n.view ∧
    n.settle.1.ackLines = n.ackLines ∧ n.settle.2.send.filterMap (Ask.ofCommand lines) = [] := by
  obtain ⟨ho, ha, ⟨-, he, hp, hs⟩ | ⟨hb, he, hp, hs⟩⟩ := n.settle_asks lines
  · exact ⟨by rw [view, ho, he, hp, view], ha, hs⟩
  · rw [h.orphans hb] at he hp hs
    exact ⟨by simp [view, ho, he, hp], ha, by simpa using hs⟩

/-- The names a client asks for in a state. -/
structure Asks (k : CapNegotiation) (names : List String) : Prop where
  offered : ∀ name ∈ names, name ∈ k.offered
  enabled : ∀ name ∈ names, name ∉ k.enabled
  pending : ∀ name ∈ names, name ∉ k.pending
  plain : ∀ name ∈ names, Plain name
  batched : ∀ name ∈ names, needsBatch name = true → batch ∈ k.enabled

theorem Coherent.asks_wanting (h : n.Coherent) : Asks n n.wanting where
  offered _ hn := (requestable_iff.mp (mem_wanting.mp hn).2).1
  enabled _ hn := (requestable_iff.mp (mem_wanting.mp hn).2).2.1
  pending _ hn := (requestable_iff.mp (mem_wanting.mp hn).2).2.2.1
  plain _ hn := h.plain_optional (mem_wanting.mp hn).1
  batched _ hn := (requestable_iff.mp (mem_wanting.mp hn).2).2.2.2.1

theorem asks_nil : Asks n [] := ⟨by simp, by simp, by simp, by simp, by simp⟩

theorem LineEffect.offers (h : n.Coherent) {subcommand list : String}
    {continued : Bool} (hm : capReply m.command = some (subcommand, continued, list))
    (hs : subcommand = "LS" ∨ subcommand = "NEW") (hl : LineEffect c random n m k s) :
    ∃ names o, (∀ x ∈ n.offered, x ∈ o) ∧
      (∀ x ∈ o, x ∈ n.offered ∨ ∃ token ∈ splitWhitespace list, x = offerName token) ∧
      Asks { n with offered := o } names ∧ s.send = names.map request ∧
      ∃ p, k = { n with phase := p, offered := o, pending := n.pending ++ names } := by
  have hne {r : String × Bool × String} (hr : capReply m.command = some r)
      (hr' : r.1 ∉ ["LS", "NEW"]) : False := by
    rw [hm] at hr
    obtain rfl := Option.some.inj hr
    exact hr' (by rcases hs with rfl | rfl <;> simp)
  cases hl with
  | idle => exact ⟨[], n.offered, fun _ h => h, fun _ h => .inl h, asks_nil, rfl, n.phase, by simp⟩
  | @heard _ list' _ hm' =>
    rw [hm] at hm'
    cases hm'
    obtain ⟨o, ho, hmono, hnew, -⟩ := n.rememberOffers_eq list
    exact ⟨[], o, hmono, hnew, asks_nil, rfl, n.phase, by rw [ho]; simp⟩
  | @listed list' hm' hp _ _ hr =>
    rw [hm] at hm'
    cases hm'
    obtain ⟨o, ho, hmono, hnew, -⟩ := n.rememberOffers_eq list
    have hc := h.rememberOffers list
    obtain ⟨first, hf, hk, hsend⟩ := hc.requestAfterListing_ok (by rw [ho]; exact hp) hr
    have hw := hc.asks_wanting
    rw [ho] at hk hsend hw hf
    refine ⟨_, o, hmono, hnew, ?_, hsend, .requesting, by
      rw [hk, (h.early (.inr hp)).1, List.nil_append]⟩
    rcases hf with rfl | ⟨rfl, -, hoffered⟩
    · exact hw
    · obtain ⟨hpending, henabled⟩ := h.early (.inr hp)
      constructor <;> intro name hn
      all_goals rcases List.mem_cons.mp hn with rfl | hn
      · exact hoffered
      · exact hw.offered name hn
      · simp [henabled]
      · exact hw.enabled name hn
      · simp [hpending]
      · exact hw.pending name hn
      · exact plain_sasl
      · exact hw.plain name hn
      · rw [show needsBatch Capability.sasl = false from rfl]; simp
      · exact hw.batched name hn
  | partly hm' => exact (hne hm' (by simp)).elim
  | acknowledged hm' => exact (hne hm' (by simp)).elim
  | declined hm' => exact (hne hm' (by simp)).elim
  | @offered list' _ hm' hp =>
    rw [hm] at hm'
    cases hm'
    obtain ⟨o, ho, hmono, hnew, -⟩ := n.rememberOffers_eq list
    have hc := h.rememberOffers list
    have hw := hc.asks_wanting
    rw [hc.requestOptional_eq]
    rw [ho] at hw ⊢
    exact ⟨_, o, hmono, hnew, hw, rfl, n.phase, rfl⟩
  | withdrawn hm' => exact (hne hm' (by simp)).elim
  | authenticated hm' => rw [hm] at hm'; cases hm'

theorem line_ack (hq : n.ackLines = []) {token : String}
    (hm : capReply m.command = some ("ACK", false, token)) (hw : splitWhitespace token = [token])
    (hl : n.line c random m = .ok (k, s)) :
    n.relevant token = false ∧ k = n ∧ s.send = [] ∨
      n.relevant token = true ∧ ∃ t, TokenEffect n token k t ∧ s.send = t.send := by
  have hn : ({ n with ackLines := [] } : CapNegotiation) = n := by rw [← hq]
  have hline : n.line c random m = acknowledge c random (n.appendAck token).ackLines
      { n.appendAck token with ackLines := [] } := by
    simp [line, hm, capLine]
  rw [hline, appendAck_eq, hq, hw, keepEach, List.foldl_cons, List.foldl_nil] at hl
  dsimp only at hl
  rw [hn] at hl
  cases hrel : n.relevant token with
  | false =>
    rw [hrel] at hl
    cases hl
    exact .inl ⟨rfl, rfl, rfl⟩
  | true =>
    rw [hrel] at hl
    obtain ⟨n₁, s₁, t, h₁, h₂, rfl⟩ := acknowledge_cons hl
    cases h₂
    exact .inr ⟨rfl, s₁, acknowledgeToken_ok h₁, by simp⟩

theorem TokenEffect.grant_view {token : String} (ht : TokenEffect n token k s)
    (lines : List ServerLine) (h : n.Coherent) (hs : stripFirst '-' token = none)
    (hp : token ∈ n.pending) :
    ∃ names, Asks (n.grant token) names ∧ k.ackLines = n.ackLines ∧
      k.view = { (n.grant token).view with pending := (n.grant token).pending ++ names } ∧
      s.send.filterMap (Ask.ofCommand lines) =
        names.map fun name => .on name (decide (∃ line ∈ lines, name ∈ line.withdraws)) := by
  cases ht with
  | disabled name hd => rw [hs] at hd; cases hd
  | ignored _ hn => exact absurd hp hn
  | granted _ _ _ _ _ _ hsend =>
    exact ⟨[], asks_nil, rfl, by simp [view], by rw [asks_authenticates hsend]; rfl⟩
  | opened _ _ _ _ hsend =>
    have hg := h.grant hp
    refine ⟨_, hg.asks_wanting, ?_, ?_, ?_⟩
    · rw [hg.requestOptional_eq]; rfl
    · rw [hg.requestOptional_eq]; rfl
    · rw [hsend, hg.requestOptional_eq, asks_requests hg.asks_wanting.plain]

theorem line_nak {name : String} (hm : capReply m.command = some ("NAK", false, name))
    (hw : splitWhitespace name = [name]) (hp : name ∉ n.pending)
    (hl : n.line c random m = .ok (k, s)) : k = n ∧ s.send = [] := by
  have hline : n.line c random m = decline (splitWhitespace name) n := by simp [line, hm, capLine]
  rw [hline, hw, decline, if_neg hp] at hl
  cases hl
  exact ⟨rfl, rfl⟩

theorem line_del {list : String} (hm : capReply m.command = some ("DEL", false, list))
    (hl : n.line c random m = .ok (k, s)) :
    k = (CapNegotiation.withdraw (splitWhitespace list) n).1 ∧ s.send = [] := by
  have hline : n.line c random m = .ok (CapNegotiation.withdraw (splitWhitespace list) n) := by
    simp [line, hm, capLine]
  rw [hline] at hl
  have he := Except.ok.inj hl
  exact ⟨(congrArg Prod.fst he).symm, by rw [← withdraw_send (n := n) (splitWhitespace list), he]⟩

theorem line_other (hm : capReply m.command = none) (hl : n.line c random m = .ok (k, s)) :
    k.view = n.view ∧ k.ackLines = n.ackLines ∧ SaslHandshake.Authenticates s.send := by
  rw [line, hm] at hl
  dsimp only at hl
  split at hl
  · rename_i handshake _
    cases ho : handshake.observe c m with
    | error e => rw [ho] at hl; cases hl
    | ok r =>
      rw [ho] at hl
      cases hl
      exact ⟨rfl, rfl, (SaslHandshake.observe_ok ho).2⟩
  · cases hl
    exact ⟨rfl, rfl, SaslHandshake.authenticates_nil⟩

end CapNegotiation

/-! ## The connection -/

namespace Connection

def link (s : Connection) : Link := ⟨s.client.view, s.offered, s.enabled, s.requests, s.replies⟩

/-- What a connection keeps. -/
structure Sound (s : Connection) : Prop where
  coherent : s.client.Coherent
  grounded : s.client.Grounded
  quiet : s.client.ackLines = []
  unstarted : s.client.phase = .inactive → s.client.view.offered = ∅
  worded : ∀ line ∈ s.replies, line.Worded
  consistent : s.link.Consistent

namespace Sound

open CapNegotiation Link

variable {c : Crypto} {random : Option (List UInt8)} {client k n' : CapNegotiation}
  {offered enabled : Finset String} {asks : List Ask} {line : ServerLine}
  {lines : List ServerLine} {t u : CapStep}

def Read (client : CapNegotiation) (offered enabled : Finset String) (asks : List Ask)
    (lines : List ServerLine) (n' : CapNegotiation) (u : CapStep) : Prop :=
  Consistent ⟨n'.view, offered, enabled,
    asks ++ u.send.filterMap (Ask.ofCommand lines), lines⟩ ∧ n'.ackLines = client.ackLines

theorem read_settle (hk : k.Grounded) (hs : Consistent ⟨k.view, offered, enabled,
      asks ++ t.send.filterMap (Ask.ofCommand lines), lines⟩)
    (ha : k.ackLines = client.ackLines) :
    Read client offered enabled asks lines k.settle.1 (t ++ k.settle.2) := by
  obtain ⟨h₁, h₂, h₃⟩ := hk.settle_view lines
  refine ⟨?_, h₂.trans ha⟩
  rw [CapStep.send_append, List.filterMap_append, h₃, List.append_nil, h₁]
  exact hs

theorem read_offers {subcommand list : String} {continued : Bool}
    (h : Sound ⟨client, offered, enabled, asks, line :: lines⟩)
    (hm : capReply line.message.command = some (subcommand, continued, list))
    (hs : subcommand = "LS" ∨ subcommand = "NEW") (hw : line.withdraws = [])
    (ha : line.announces = (splitWhitespace list).map offerName)
    (hack : ∀ x, line ≠ .ack x ∧ line ≠ .nak x)
    (hl : client.line c random line.message = .ok (k, t)) :
    Read client offered enabled asks lines k.settle.1 (t ++ k.settle.2) := by
  obtain ⟨names, o, hmono, hnew, hasks, hsend, p, rfl⟩ :=
    (line_ok hl).offers h.coherent hm hs
  have hread := h.consistent.read (o := o.keys.toFinset) hw
    (fun x hx => by
      rw [List.mem_toFinset, ← AList.mem_keys] at hx
      rcases hnew x hx with hx | ⟨token, ht, rfl⟩
      · exact .inl (mem_view_offered.mpr hx)
      · exact .inr (by rw [ha]; exact List.mem_map_of_mem ht))
    (fun x hx => by
      rw [List.mem_toFinset, ← AList.mem_keys]
      exact hmono x (mem_view_offered.mp hx))
    (fun x _ => hack x)
  have hask := hread.ask names fun x hx => ⟨by
    rw [List.mem_toFinset, ← AList.mem_keys]
    exact hasks.offered x hx, hasks.enabled x hx, hasks.pending x hx, hasks.plain x hx⟩
  refine read_settle (fun hb x hx => ⟨(h.grounded hb x hx).1, fun hp => ?_⟩) ?_ rfl
  · rcases List.mem_append.mp hp with hp | hp
    · exact (h.grounded hb x hx).2 hp
    · exact hb (hasks.batched x hp hx)
  · rw [hsend, asks_requests hasks.plain]
    exact hask

theorem read_nothing (h : Sound ⟨client, offered, enabled, asks, line :: lines⟩)
    (hw : line.withdraws = []) (hn : ∀ x ∈ client.pending, line ≠ .ack x ∧ line ≠ .nak x)
    (hv : k.view = client.view) (ha : k.ackLines = client.ackLines)
    (ht : t.send.filterMap (Ask.ofCommand lines) = []) :
    Read client offered enabled asks lines k.settle.1 (t ++ k.settle.2) := by
  have hk : k.Grounded := by
    have he : k.enabled = client.enabled := congrArg View.enabled hv
    have hp : k.pending = client.pending := congrArg View.pending hv
    intro hb x hx
    rw [he, hp]
    exact h.grounded (he ▸ hb) x hx
  refine read_settle hk ?_ ha
  rw [ht, List.append_nil, hv]
  exact h.consistent.read hw (fun _ hx => .inl hx) (Finset.Subset.refl _) hn

theorem read_ack {token : String}
    (h : Sound ⟨client, offered, enabled, asks, .ack token :: lines⟩)
    (hl : client.line c random (ServerLine.ack token).message = .ok (k, t)) :
    Read client offered enabled asks lines k.settle.1 (t ++ k.settle.2) := by
  have hword := splitWhitespace_word (h.worded (.ack token) (by simp))
  rcases line_ack h.quiet rfl hword hl with ⟨hrel, rfl, hs⟩ | ⟨hrel, t', ht, hs⟩
  · refine h.read_nothing rfl (fun x hx => ⟨fun he => ?_, by simp⟩) rfl rfl (by rw [hs]; rfl)
    obtain rfl := ServerLine.ack.inj he
    rw [relevant, (h.coherent.plain hx).1] at hrel
    exact of_decide_eq_false hrel hx
  · rw [relevant] at hrel
    split at hrel
    · rename_i name hname
      -- What is being disabled needs batch, and batch is off.
      have hd : needsBatch name = true := h.consistent.dependent name (.inr (by
        rw [← stripFirst_dash.mp hname]; simp [link]))
      have hb : batch ∉ client.enabled := h.consistent.disabling (.inr ⟨.ack token, by simp [link], by
        rw [ServerLine.disables, hname]; rfl⟩)
      exact absurd (of_decide_eq_true hrel) (h.grounded hb name hd).1
    · rename_i hname
      have hp := of_decide_eq_true hrel
      obtain ⟨names, hasks, hack, hview, hsend⟩ :=
        ht.grant_view lines h.coherent hname hp
      have hgrant := h.consistent.grant h.coherent.nodup hp
      have hask := hgrant.ask names fun x hx =>
        ⟨mem_view_offered.mpr (hasks.offered x hx), hasks.enabled x hx, hasks.pending x hx,
          hasks.plain x hx⟩
      have he : k.enabled = insert token client.enabled := congrArg View.enabled hview
      have hpending : k.pending = client.pending.erase token ++ names := congrArg View.pending hview
      refine read_settle (fun hb x hx => ?_) ?_ hack
      · rw [he, Finset.mem_insert, not_or] at hb
        obtain ⟨hxe, hxp⟩ := h.grounded hb.2 x hx
        rw [he, hpending, Finset.mem_insert, List.mem_append, not_or, not_or]
        refine ⟨⟨fun e => hxp (e ▸ hp), hxe⟩, fun hm => hxp (List.mem_of_mem_erase hm), fun hm => ?_⟩
        exact (Finset.mem_insert.not.mpr (not_or.mpr hb)) (hasks.batched x hm hx)
      · rw [hs, hsend, hview]
        exact hask

theorem read_nak {name : String}
    (h : Sound ⟨client, offered, enabled, asks, .nak name :: lines⟩)
    (hl : client.line c random (ServerLine.nak name).message = .ok (k, t)) :
    Read client offered enabled asks lines k.settle.1 (t ++ k.settle.2) := by
  have hword := splitWhitespace_word (h.worded (.nak name) (by simp))
  have hp : name ∉ client.pending := fun hp => by
    have := (h.consistent.refusals name).1 rfl
    exact of_decide_eq_false this (h.consistent.requested name hp)
  obtain ⟨rfl, hs⟩ := line_nak rfl hword hp hl
  refine h.read_nothing rfl (fun x hx => ⟨by simp, fun he => ?_⟩) rfl rfl (by rw [hs]; rfl)
  exact hp (ServerLine.nak.inj he ▸ hx)

theorem read_del {names : List String}
    (h : Sound ⟨client, offered, enabled, asks, .del names :: lines⟩)
    (hl : client.line c random (ServerLine.del names).message = .ok (k, t)) :
    Read client offered enabled asks lines k.settle.1 (t ++ k.settle.2) := by
  have hwords := splitWhitespace_joinWith (h.worded (.del names) (by simp))
  obtain ⟨hk, hs⟩ := line_del rfl hl
  rw [hwords, withdraw_eq] at hk
  have hview : k.view = ⟨client.view.offered.filter fun x => x ∉ names,
      client.view.enabled.filter fun x => x ∉ names,
      client.view.pending.filter fun x => decide (x ∉ names)⟩ := by
    rw [hk]
    simp only [CapNegotiation.view, View.mk.injEq, and_self, and_true]
    ext x
    rw [Finset.mem_filter, List.mem_toFinset, List.mem_toFinset, ← AList.mem_keys, ← AList.mem_keys,
      mem_foldl_erase]
  have hcons := h.consistent.withdraw
  rw [← hview] at hcons
  obtain ⟨ho, ha, ⟨-, he, hp, hsend⟩ | ⟨hb, he, hp, hsend⟩⟩ := k.settle_asks lines
  · refine ⟨?_, ha.trans (by rw [hk])⟩
    rw [CapStep.send_append, hs, List.nil_append, hsend, List.append_nil, CapNegotiation.view, ho, he, hp]
    exact hcons
  · have horphan : k.orphans ≠ [] → batch ∈ names := by
      intro hne
      obtain ⟨x, hx⟩ := List.exists_mem_of_ne_nil _ hne
      obtain ⟨hxb, hx⟩ := mem_orphans.mp hx
      rw [hk] at hx hb
      by_contra hn
      refine hb (Finset.mem_filter.mpr ⟨by_contra fun hoff => ?_, hn⟩)
      rcases hx with hx | hx
      · exact (h.grounded hoff x hxb).1 (Finset.mem_filter.mp hx).1
      · exact (h.grounded hoff x hxb).2 (List.mem_of_mem_filter hx)
    have hdrop := hcons.drop k.orphans (fun x hx => (mem_orphans.mp hx).1) (fun _ => hb)
      fun hne => ⟨fun hm => (List.pairwise_cons.mp h.consistent.granted).1 _ hm (horphan hne) rfl,
        fun hm => (h.consistent.fresh batch hm).2 (.del names) (by simp [link]) (horphan hne)⟩
    refine ⟨?_, ha.trans (by rw [hk])⟩
    rw [CapStep.send_append, hs, List.nil_append, hsend, CapNegotiation.view, ho, he, hp]
    exact hdrop

theorem read_unstarted (h : Sound ⟨client, offered, enabled, asks, line :: lines⟩)
    (hi : client.phase = .inactive) :
    Consistent ⟨client.view, offered, enabled, asks, lines⟩ := by
  obtain ⟨hp, he⟩ := h.coherent.early (.inl hi)
  have ho := h.unstarted hi
  cases line with
  | del names =>
    have hw := h.consistent.withdraw
    have hv : client.view = ⟨client.view.offered.filter fun x => x ∉ names,
        client.view.enabled.filter fun x => x ∉ names,
        client.view.pending.filter fun x => decide (x ∉ names)⟩ := by
      rw [show client.view.offered = ∅ from ho, show client.view.enabled = ∅ from he,
        show client.view.pending = [] from hp]
      simp only [CapNegotiation.view, Finset.filter_empty, List.filter_nil, View.mk.injEq]
      exact ⟨ho, he, hp⟩
    rw [hv]
    exact hw
  | _ =>
    refine h.consistent.read rfl (fun _ hx => .inl hx) (Finset.Subset.refl _) fun x hx => ?_
    have hx : x ∈ client.pending := hx
    rw [hp] at hx
    cases hx

theorem deliver (h : Sound ⟨client, offered, enabled, asks, line :: lines⟩)
    (ho : client.observe c random line.message = .ok (n', u)) :
    Sound (send ⟨client, offered, enabled, asks, line :: lines⟩ n' lines u) := by
  obtain ⟨hcoherent, hgrounded⟩ := h.coherent.observe h.grounded ho
  have hworded : ∀ l ∈ lines, l.Worded := fun l hl => h.worded l (List.mem_cons_of_mem _ hl)
  by_cases hi : client.phase = .inactive
  · rw [observe_inactive hi, Except.ok.injEq, Prod.mk.injEq] at ho
    obtain ⟨rfl, rfl⟩ := ho
    refine ⟨hcoherent, hgrounded, h.quiet, h.unstarted, hworded, ?_⟩
    rw [link, send]
    simpa using h.read_unstarted hi
  · obtain ⟨k, t, hl, rfl, rfl⟩ := observe_eq_ok hi ho
    have hread : Read client offered enabled asks lines k.settle.1 (t ++ k.settle.2) := by
      cases line with
      | offers final tokens =>
        have hw := splitWhitespace_joinWith (h.worded (.offers final tokens) (by simp))
        cases final with
        | true => exact h.read_offers rfl (.inl rfl) rfl (by rw [hw]; rfl) (by simp) hl
        | false => exact h.read_offers rfl (.inl rfl) rfl (by rw [hw]; rfl) (by simp) hl
      | ack token => exact h.read_ack hl
      | nak name => exact h.read_nak hl
      | new tokens =>
        have hw := splitWhitespace_joinWith (h.worded (.new tokens) (by simp))
        exact h.read_offers rfl (.inr rfl) rfl (by rw [hw]; rfl) (by simp) hl
      | del names => exact h.read_del hl
      | other m =>
        obtain ⟨hv, ha, hs⟩ := line_other (h.worded (.other m) (by simp)) hl
        exact h.read_nothing rfl (by simp) hv ha (asks_authenticates hs)
    exact ⟨hcoherent, hgrounded, hread.2.trans h.quiet,
      fun hp => absurd hp (settle_started h.coherent hi (line_ok hl)), hworded, hread.1⟩

/-! ## The server's steps -/

theorem post_offers (h : Consistent ⟨client.view, offered, enabled, asks, lines⟩)
    {more : List ServerLine} (hm : ∀ l ∈ more, ∃ final tokens, l = .offers final tokens ∧
      ∀ token ∈ tokens, offerName token ∈ offered) :
    Consistent ⟨client.view, offered, enabled, asks, lines ++ more⟩ := by
  induction more generalizing lines with
  | nil => rwa [List.append_nil]
  | cons l more ih =>
    obtain ⟨final, tokens, rfl, ht⟩ := hm l (by simp)
    rw [List.append_cons]
    refine ih (h.post _ rfl (Finset.Subset.refl _) (fun x hx => ?_) (by simp) (by simp)
      (by simp [ServerLine.disables]) (by simp)) fun l hl => hm l (by simp [hl])
    obtain ⟨token, htoken, rfl⟩ := List.mem_map.mp hx
    exact ht token htoken

theorem mem_listing {parts : List (List String)} {l : ServerLine}
    (h : l ∈ ServerLine.listing parts) : ∃ final tokens, l = .offers final tokens ∧
      ∀ token ∈ tokens, token ∈ parts.flatten := by
  rcases List.mem_append.mp h with h | h
  · obtain ⟨tokens, ht, rfl⟩ := List.mem_map.mp h
    exact ⟨false, tokens, rfl, fun token hx =>
      List.mem_flatten.mpr ⟨tokens, List.mem_of_mem_dropLast ht, hx⟩⟩
  · refine ⟨true, _, List.mem_singleton.mp h, fun token hx => ?_⟩
    cases hl : parts.getLast? with
    | none => rw [hl] at hx; cases hx
    | some tokens =>
      rw [hl] at hx
      exact List.mem_flatten.mpr ⟨tokens, List.mem_of_getLast? hl, hx⟩

theorem worded_append {l : ServerLine} (h : ∀ line ∈ lines, line.Worded) (hl : l.Worded) :
    ∀ line ∈ lines ++ [l], line.Worded := by
  intro line hm
  rcases List.mem_append.mp hm with hm | hm
  · exact h line hm
  · rwa [List.mem_singleton.mp hm]

theorem isWord_of_needsBatch {name : String} (h : needsBatch name = true) : isWord name = true := by
  have : ∀ name ∈ batched, isWord name = true := by decide
  exact this name (mem_batched.mpr h)

variable {s : Connection}

theorem serve (h : s.Sound) (parts : List (List String)) (hu : s.Uncrossed (.serve parts)) :
    (s.serve parts).Sound := by
  obtain ⟨client, offered, enabled, asks, lines⟩ := s
  unfold Connection.serve
  dsimp only
  cases asks with
  | nil => exact h
  | cons ask asks =>
    cases ask with
    | ls =>
      dsimp only
      split
      · rename_i hparts
        obtain ⟨hwords, hoffered⟩ := hparts
        refine ⟨h.coherent, h.grounded, h.quiet, h.unstarted, fun l hl => ?_, ?_⟩
        · rcases List.mem_append.mp hl with hl | hl
          · exact h.worded l hl
          · obtain ⟨final, tokens, rfl, ht⟩ := mem_listing hl
            exact fun token hx => List.all_eq_true.mp hwords token (ht token hx)
        · refine (post_offers h.consistent fun l hl => ?_).handleLs
          obtain ⟨final, tokens, rfl, ht⟩ := mem_listing hl
          refine ⟨final, tokens, rfl, fun token hx => ?_⟩
          have : offerName token ∈ (parts.flatten.map offerName).toFinset :=
            List.mem_toFinset.mpr (List.mem_map_of_mem (ht token hx))
          rwa [hoffered] at this
      · exact h
    | on name crossed =>
      have hword := (h.consistent.plain name crossed (by simp [link])).isWord
      dsimp only
      cases crossed with
      | true =>
        have hn : name ∉ offered := by simpa [crossedRefused] using hu (.on name true) rfl
        rw [if_neg hn]
        exact ⟨h.coherent, h.grounded, h.quiet, h.unstarted, worded_append h.worded hword,
          h.consistent.serveCrossed hn⟩
      | false =>
        have hn : name ∈ offered := (h.consistent.fresh name (by simp [link])).1
        rw [if_pos hn]
        exact ⟨h.coherent, h.grounded, h.quiet, h.unstarted, worded_append h.worded hword,
          h.consistent.serveFresh⟩
    | off name =>
      have hword := isWord_of_needsBatch (h.consistent.dependent name (.inl (by simp [link])))
      exact ⟨h.coherent, h.grounded, h.quiet, h.unstarted,
        worded_append h.worded (isWord_dash hword), h.consistent.serveOff⟩

theorem step {act : ConnectionAct} {s' : Connection} (h : s.Sound) (hu : s.Uncrossed act)
    (hs : s.step c act = .ok s') : s'.Sound := by
  cases act with
  | serve parts =>
    cases hs
    exact h.serve parts hu
  | deliver random =>
    obtain ⟨client, offered, enabled, asks, lines⟩ := s
    cases lines with
    | nil => cases hs; exact h
    | cons line lines =>
      have hs : (client.observe c random line.message).map
        (fun r => send ⟨client, offered, enabled, asks, line :: lines⟩ r.1 lines r.2) = .ok s' := hs
      cases ho : client.observe c random line.message with
      | error e => rw [ho] at hs; cases hs
      | ok r =>
        rw [ho] at hs
        cases hs
        exact h.deliver ho
  | withdraw names =>
    cases hs
    split
    · rename_i hw
      exact ⟨h.coherent, h.grounded, h.quiet, h.unstarted,
        worded_append h.worded (List.all_eq_true.mp hw), h.consistent.serverWithdraw⟩
    · exact h
  | announce tokens =>
    cases hs
    split
    · rename_i hw
      refine ⟨h.coherent, h.grounded, h.quiet, h.unstarted,
        worded_append h.worded (List.all_eq_true.mp hw), ?_⟩
      exact h.consistent.post (.new tokens) rfl Finset.subset_union_left
        (fun x hx => Finset.mem_union_right _ (List.mem_toFinset.mpr hx)) (by simp) (by simp)
        (by simp [ServerLine.disables]) (by simp)
    · exact h
  | say m =>
    cases hs
    split
    · rename_i hm
      exact ⟨h.coherent, h.grounded, h.quiet, h.unstarted, worded_append h.worded hm,
        h.consistent.post (.other m) rfl (Finset.Subset.refl _) (by simp) (by simp)
          (by simp) (by simp [ServerLine.disables]) (by simp)⟩
    · exact h
  | derived d =>
    have hs : (s.client.derived c d).map (fun r => s.send r.1 s.replies r.2) = .ok s' := hs
    cases hd : s.client.derived c d with
    | error e => rw [hd] at hs; cases hs
    | ok r =>
      rw [hd] at hs
      cases hs
      obtain ⟨n, t⟩ := r
      obtain ⟨hc, hg⟩ := h.coherent.call h.grounded (k := .derived d) hd
      obtain ⟨-, s₁, rfl, -, hsend⟩ := derived_ok hd
      refine ⟨hc, hg, h.quiet, h.unstarted, h.worded, ?_⟩
      change Consistent ⟨_, _, _, s.requests ++ t.send.filterMap (Ask.ofCommand s.replies), _⟩
      rw [asks_authenticates hsend, List.append_nil]
      exact h.consistent
  | registered =>
    have hs : s.client.registered.map (fun client => { s with client }) = .ok s' := hs
    cases hr : s.client.registered with
    | error e => rw [hr] at hs; cases hs
    | ok n =>
      rw [hr] at hs
      cases hs
      have hcall : call c s.client .registered = .ok (n, {}) := by rw [call, hr]; rfl
      obtain ⟨hc, hg⟩ := h.coherent.call h.grounded hcall
      obtain ⟨-, rfl⟩ := registered_ok hr
      refine ⟨hc, hg, h.quiet, fun hp => h.unstarted ?_, h.worded, h.consistent⟩
      by_contra hi
      have hp : (if s.client.phase ≠ .inactive then .ended else s.client.phase) =
        CapPhase.inactive := hp
      rw [if_pos hi] at hp
      cases hp

theorem opened (options : Ircv3Options) (credentials : Option SaslCredentials) (utf8 : Bool)
    (offered : Finset String) : (Connection.opened options credentials utf8 offered).Sound := by
  obtain ⟨hc, hg⟩ := started_coherent options credentials utf8
  have hempty (asks : List Ask) (ha : ∀ ask ∈ asks, ask = .ls) :
      Consistent ⟨⟨∅, ∅, []⟩, offered, ∅, asks, []⟩ := by
    have hstatus : ∀ name, enabledAfter name false asks = false := by
      intro name
      refine enabledAfter_crossed fun crossed h => ?_
      cases ha _ h
    refine ⟨by simp, by simp [offeredAfter], by simp [hstatus], ?_, fun _ => trivial, by simp, ?_, ?_,
      by simp, List.Pairwise.nil, List.Pairwise.nil, by simp, ?_⟩
    · exact fun name h => by cases ha _ h
    · exact fun name crossed h => by cases ha _ h
    · exact fun name h => by
        rcases h with h | h
        · cases ha _ h
        · cases h
    · exact List.pairwise_of_forall_mem_list fun x hx y _ h => by
        rw [ha x hx] at h
        cases h
  unfold started at hc hg
  unfold Connection.opened
  simp only [start] at hc hg ⊢
  split at hc <;> rename_i hs
  · simp only [hs, if_true] at hg ⊢
    exact ⟨hc, hg, rfl, fun _ => rfl, by simp, hempty [.ls] (by simp)⟩
  · simp only [hs] at hg ⊢
    exact ⟨hc, hg, rfl, fun _ => rfl, by simp, hempty [] (by simp)⟩

end Sound

end Connection

open Machine

/-- With nothing in flight client and server agree on what is enabled, in every run in which no
request is granted that a withdrawal of the capability crossed in flight. -/
theorem capabilities_agree (c : Crypto) (options : Ircv3Options)
    (credentials : Option SaslCredentials) (utf8 : Bool) (offered : Finset String)
    (acts : List ConnectionAct)
    (h : Along (BeforeRefusal Connection.Uncrossed) (attempt (Connection.step c))
      (.ok (Connection.opened options credentials utf8 offered)) acts) :
    ∀ s, exec (attempt (Connection.step c))
        (.ok (Connection.opened options credentials utf8 offered)) acts = .ok s →
      s.requests = [] → s.replies = [] → s.client.enabled = s.enabled := by
  intro s hs hq hr
  have hsound : s.Sound := attempt_invariant Connection.Sound (fun s act s' hs hu he => hs.step hu he)
    (.opened options credentials utf8 offered) h hs
  have hc := hsound.consistent
  rw [Connection.link, hq, hr] at hc
  exact hc.agree

/-- The server withdraws batch, so that chathistory is disabled, and grants both again. -/
def ordinaryRun : List ConnectionAct :=
  [.serve [["batch", "draft/chathistory"]], .deliver none, .serve [], .deliver none, .serve [],
    .withdraw ["batch"], .deliver none, .deliver none, .announce ["batch"], .serve [], .deliver none,
    .deliver none, .serve [], .deliver none, .serve [], .deliver none]

theorem ordinary_run_agrees : ∃ s, exec (attempt (Connection.step noCrypto))
      (.ok (.opened { chathistory := true } none false {"batch", "draft/chathistory"}))
      ordinaryRun = .ok s ∧
    (s.requests = [] ∧ s.replies = [] ∧ chathistory ∈ s.enabled) ∧ s.client.enabled = s.enabled := by
  have hrun : (exec (attempt (Connection.step noCrypto))
      (.ok (.opened { chathistory := true } none false {"batch", "draft/chathistory"}))
      ordinaryRun).toOption.any
      (fun s => decide (s.requests = [] ∧ s.replies = [] ∧ chathistory ∈ s.enabled)) = true := by
    decide +kernel
  cases h : exec (attempt (Connection.step noCrypto))
      (.ok (.opened { chathistory := true } none false {"batch", "draft/chathistory"}))
      ordinaryRun with
  | error e => rw [h] at hrun; cases hrun
  | ok s =>
    rw [h] at hrun
    have hs := of_decide_eq_true hrun
    exact ⟨s, rfl, hs, capabilities_agree noCrypto _ _ _ _ ordinaryRun (by decide +kernel) s h
      hs.1 hs.2.1⟩

def crossedRun : List ConnectionAct :=
  [.serve [["batch", "draft/chathistory"]], .deliver none, .serve [], .deliver none,
    .withdraw ["batch", "draft/chathistory"], .announce ["draft/chathistory"], .serve [],
    .deliver none, .deliver none, .deliver none]

/-- The server then has chathistory enabled, and the client does not. -/
theorem crossed_request_disagrees : ∃ s, exec (attempt (Connection.step noCrypto))
      (.ok (.opened { chathistory := true } none false {"batch", "draft/chathistory"}))
      crossedRun = .ok s ∧
    s.requests = [] ∧ s.replies = [] ∧ chathistory ∈ s.enabled ∧ s.client.enabled ≠ s.enabled := by
  have hrun : (exec (attempt (Connection.step noCrypto))
      (.ok (.opened { chathistory := true } none false {"batch", "draft/chathistory"}))
      crossedRun).toOption.any (fun s => decide (s.requests = [] ∧ s.replies = [] ∧
        chathistory ∈ s.enabled ∧ s.client.enabled ≠ s.enabled)) = true := by
    decide +kernel
  cases h : exec (attempt (Connection.step noCrypto))
      (.ok (.opened { chathistory := true } none false {"batch", "draft/chathistory"}))
      crossedRun with
  | error e => rw [h] at hrun; cases hrun
  | ok s =>
    rw [h] at hrun
    exact ⟨s, rfl, of_decide_eq_true hrun⟩

end CayenChat
