import CayenChat.Ctcp.Replies
import CayenChat.Lib.Machine

/-! # CTCP neither loops nor floods

Whatever arrives, a notice is sent only in answer to a live private request of
another user, and the requests answered or shown, like the refusals reported,
stay within their bounds in every window.
-/

namespace CayenChat.Ctcp

open Machine

def CtcpLine.showsRequest : CtcpLine → Bool
  | request .. => true
  | _ => false

def CtcpLine.showsReply : CtcpLine → Bool
  | reply .. => true
  | _ => false

def CtcpLine.refusesRequests : CtcpLine → Bool
  | tooManyRequests .. => true
  | _ => false

def CtcpLine.refusesReplies : CtcpLine → Bool
  | tooManyReplies .. => true
  | _ => false

/-- A message that was observed, in which circumstances, and what was done. -/
structure Heard where
  message : IrcMessage
  currentNick : String
  replayed : Bool
  casemapping : CaseMapping
  time : ℕ
  handled : Option Handled

namespace Heard

def sender (h : Heard) : String := (CtcpReplies.senderOf h.message).1

def events (h : Heard) : List CtcpLine := (h.handled.map Handled.events).getD []

def send (h : Heard) : List IrcCommand := (h.handled.map Handled.send).getD []

def servesRequest (h : Heard) : Bool := h.events.any CtcpLine.showsRequest || !h.send.isEmpty

def LivePrivateRequest (h : Heard) : Prop :=
  ∃ target text user host, h.message.command = .privmsg target text ∧
    h.message.source = some (.nickname h.sender user host) ∧
    h.casemapping.same h.sender h.currentNick = false ∧ h.replayed = false ∧
    validChannel (trimStartMatches ['~', '@', '%', '+'] target) = false ∧
    h.casemapping.same target h.currentNick = true

def AnswersOnly (h : Heard) : Prop :=
  h.send = [] ∨ h.LivePrivateRequest ∧ ∃ body, h.send = [.notice h.sender body]

def within (a : ℕ) (h : Heard) : Bool := a ≤ h.time && h.time < a + window

def sentBy (nick : String) (h : Heard) : Bool := nicknameKey h.sender == nicknameKey nick

end Heard

/-- A call, with the message or the time that passes. -/
inductive Call
  | elapse (ms : ℕ)
  | setCasemapping (casemapping : CaseMapping)
  | request (nick tag args : String)
  | tick
  | observe (message : IrcMessage) (currentNick : String) (replayed : Bool) (localTime : String)

/-- The answers of a connection, and the time. -/
structure Session where
  replies : CtcpReplies
  now : ℕ

namespace Session

def step (s : Session) : Call → Session
  | .elapse ms => { s with now := s.now + ms }
  | .setCasemapping casemapping => { s with replies := s.replies.setCasemapping casemapping }
  | .request nick tag args => { s with replies := (s.replies.request nick tag args s.now).1 }
  | .tick => { s with replies := (s.replies.tick s.now).1 }
  | .observe m nick replayed localTime =>
    { s with replies := (s.replies.observe m nick replayed localTime s.now).1 }

def heard (s : Session) : Call → List Heard
  | .observe m nick replayed localTime =>
    [⟨m, nick, replayed, s.replies.casemapping, s.now,
      (s.replies.observe m nick replayed localTime s.now).2⟩]
  | _ => []

end Session

/-! ## What one message does -/

section Observing

variable {s s' : CtcpReplies} {m : IrcMessage} {currentNick localTime : String} {replayed : Bool}
  {now : ℕ} {line : CtcpLine}

open CtcpReplies

theorem roundTrip_spec {sender params : String}
    (h : s.roundTrip sender params now = some (s', line)) :
    s'.requests = s.requests ∧ s'.replies = s.replies ∧
      ∃ nick elapsed, line = .roundTrip nick s.network elapsed := by
  obtain ⟨p, -, hp⟩ := Option.map_eq_some_iff.mp h
  cases hp
  exact ⟨rfl, rfl, _, _, rfl⟩

theorem observe_cases (s : CtcpReplies) (m : IrcMessage) (currentNick : String) (replayed : Bool)
    (localTime : String) (now : ℕ) :
    (∃ o ∈ [none, some {}], s.observe m currentNick replayed localTime now = (s, o)) ∨
    (∃ s' line sender params, s.roundTrip sender params now = some (s', line) ∧
      s.observe m currentNick replayed localTime now = (s', some { events := [line] })) ∨
    ∃ target text request toChannel dest tag params,
      textOf m = some (target, text, request) ∧ replayed = false ∧
      ((senderOf m).2 = true → s.casemapping.same (senderOf m).1 currentNick = false) ∧
      toChannel = validChannel (trimStartMatches ['~', '@', '%', '+'] target) ∧
      (toChannel = false → s.casemapping.same target currentNick = true) ∧
      s.observe m currentNick replayed localTime now =
        ((s.limited (senderOf m).1 (senderOf m).2 toChannel request dest localTime tag params now).1,
          some (s.limited (senderOf m).1 (senderOf m).2 toChannel request dest localTime tag params
            now).2) := by
  unfold observe
  split
  · exact .inl ⟨none, by simp, rfl⟩
  · rename_i target text request hm
    split
    · exact .inl ⟨none, by simp, rfl⟩
    · rename_i tag params hs
      dsimp only
      split
      · exact .inl ⟨none, by simp, rfl⟩
      · split
        · exact .inl ⟨some {}, by simp, rfl⟩
        · rename_i hlive
          simp only [Bool.or_eq_true, Bool.and_eq_true, not_or, not_and, Bool.not_eq_true] at hlive
          split
          · exact .inl ⟨some {}, by simp, rfl⟩
          · rename_i hto
            split
            · rename_i s' line hr
              refine .inr (.inl ⟨s', line, (senderOf m).1, params, ?_, rfl⟩)
              split at hr
              · exact hr
              · cases hr
            · refine .inr (.inr ⟨target, text, request, _, _, tag, params, hm, hlive.1, hlive.2,
                rfl, fun hc => ?_, rfl⟩)
              by_contra hn
              exact hto (by simp [hc, hn])

variable {sender dest tag params : String} {user toChannel request : Bool}

theorem limited_spec (s : CtcpReplies) (sender : String) (user toChannel request : Bool)
    (dest localTime tag params : String) (now : ℕ) :
    let out := s.limited sender user toChannel request dest localTime tag params now
    let requested := s.requests.admitEvent sender now
    let replied := s.replies.admitEvent sender now
    (request = true ∧ out.1.requests = requested.1 ∧ out.1.replies = s.replies ∧
      (out.2.events.any CtcpLine.showsRequest || !out.2.send.isEmpty) =
        decide (requested.2 = .admitted) ∧
      out.2.events.any CtcpLine.refusesRequests = decide (requested.2 = .refused) ∧
      out.2.events.any CtcpLine.showsReply = false ∧
      out.2.events.any CtcpLine.refusesReplies = false) ∨
    (request = false ∧ out.1.replies = replied.1 ∧ out.1.requests = s.requests ∧
      (out.2.events.any CtcpLine.showsRequest || !out.2.send.isEmpty) = false ∧
      out.2.events.any CtcpLine.refusesRequests = false ∧
      out.2.events.any CtcpLine.showsReply = decide (replied.2 = .admitted) ∧
      out.2.events.any CtcpLine.refusesReplies = decide (replied.2 = .refused)) := by
  unfold limited
  cases request
  · right
    dsimp only
    cases (s.replies.admitEvent sender now).2 <;> exact ⟨rfl, rfl, rfl, rfl, rfl, rfl, rfl⟩
  · left
    dsimp only
    cases (s.requests.admitEvent sender now).2 <;> exact ⟨rfl, rfl, rfl, rfl, rfl, rfl, rfl⟩

theorem showRequest_send
    (h : (s.showRequest sender user toChannel dest localTime tag params).send ≠ []) :
    user = true ∧ toChannel = false ∧ ∃ body,
      (s.showRequest sender user toChannel dest localTime tag params).send =
        [.notice sender body] := by
  unfold showRequest at h ⊢
  dsimp only at h ⊢
  split at h
  · rename_i hc
    simp only [Bool.and_eq_true, Bool.not_eq_true'] at hc
    rw [if_pos (by simp [hc])]
    cases ha : s.answer localTime tag params with
    | none =>
      rw [ha] at h
      exact absurd rfl h
    | some body => exact ⟨hc.1.1, hc.1.2, _, rfl⟩
  · exact absurd rfl h

theorem limited_send (h : (s.limited sender user toChannel request dest localTime tag params
    now).2.send ≠ []) : user = true ∧ toChannel = false ∧ request = true ∧
    ∃ body, (s.limited sender user toChannel request dest localTime tag params now).2.send =
      [.notice sender body] := by
  unfold limited at h ⊢
  cases request
  · dsimp only at h
    cases hr : (s.replies.admitEvent sender now).2 <;> rw [hr] at h <;> exact absurd rfl h
  · dsimp only at h ⊢
    cases hr : (s.requests.admitEvent sender now).2 <;> rw [hr] at h
    · obtain ⟨hu, hc, hsend⟩ := showRequest_send h
      exact ⟨hu, hc, rfl, hsend⟩
    · exact absurd rfl h
    · exact absurd rfl h

theorem observe_answersOnly (s : CtcpReplies) (m : IrcMessage) (currentNick : String)
    (replayed : Bool) (localTime : String) (now : ℕ) :
    Heard.AnswersOnly ⟨m, currentNick, replayed, s.casemapping, now,
      (s.observe m currentNick replayed localTime now).2⟩ := by
  rcases observe_cases s m currentNick replayed localTime now with
    ⟨o, ho, heq⟩ | ⟨s', line, sender, params, -, heq⟩ |
    ⟨target, text, request, toChannel, dest, tag, params, hm, hlive, hown, hto, hme, heq⟩
  · left
    rw [heq]
    rcases List.mem_cons.mp ho with rfl | ho
    · rfl
    · rw [List.mem_singleton.mp ho]
      rfl
  · left
    rw [heq]
    rfl
  · by_cases hsend : (s.limited (senderOf m).1 (senderOf m).2 toChannel request dest localTime tag
      params now).2.send = []
    · left
      rw [heq]
      exact hsend
    · right
      obtain ⟨huser, hch, rfl, body, hbody⟩ := limited_send hsend
      refine ⟨?_, body, by rw [heq]; exact hbody⟩
      have hcmd : m.command = .privmsg target text := by
        unfold textOf at hm
        split at hm <;> cases hm
        assumption
      obtain ⟨user, host, hsource⟩ : ∃ user host,
          m.source = some (.nickname (senderOf m).1 user host) := by
        unfold senderOf at huser ⊢
        split at huser
        · rename_i nick user host hs
          exact ⟨user, host, hs⟩
        · cases huser
        · cases huser
      exact ⟨target, text, user, host, hcmd, hsource, hown huser, hlive, hto ▸ hch, hme hch⟩

end Observing

/-! ## One budget over a run -/

/-- Requests or replies: their budget, and how a message shows what it decided. -/
structure Side where
  budget : CtcpReplies → Budget
  serves : Heard → Bool
  refuses : Heard → Bool

def Side.requests : Side where
  budget := CtcpReplies.requests
  serves := Heard.servesRequest
  refuses h := h.events.any CtcpLine.refusesRequests

def Side.replies : Side where
  budget := CtcpReplies.replies
  serves h := h.events.any CtcpLine.showsReply
  refuses h := h.events.any CtcpLine.refusesReplies

namespace Side

def served (side : Side) (log : List Heard) : List Admitted :=
  (log.filter side.serves).map fun h => ⟨nicknameKey h.sender, h.time⟩

def refused (side : Side) (log : List Heard) : List ℕ :=
  (log.filter side.refuses).map Heard.time

/-- A message leaves the budget of a side alone and shows nothing of it, or the budget decides what
is shown. -/
def Decides (side : Side) : Prop :=
  ∀ (s : CtcpReplies) (m : IrcMessage) (currentNick : String) (replayed : Bool) (localTime : String)
    (now : ℕ),
    let r := s.observe m currentNick replayed localTime now
    let h : Heard := ⟨m, currentNick, replayed, s.casemapping, now, r.2⟩
    (side.budget r.1 = side.budget s ∧ side.serves h = false ∧ side.refuses h = false) ∨
    (side.budget r.1 = ((side.budget s).admitEvent h.sender now).1 ∧
      side.serves h = decide (((side.budget s).admitEvent h.sender now).2 = .admitted) ∧
      side.refuses h = decide (((side.budget s).admitEvent h.sender now).2 = .refused))

theorem decides_requests : requests.Decides := by
  intro s m currentNick replayed localTime now
  rcases observe_cases s m currentNick replayed localTime now with
    ⟨o, ho, heq⟩ | ⟨s', line, sender, params, hr, heq⟩ |
    ⟨target, text, request, toChannel, dest, tag, params, -, -, -, -, -, heq⟩
  · left
    rw [heq]
    rcases List.mem_cons.mp ho with rfl | ho
    · exact ⟨rfl, rfl, rfl⟩
    · rw [List.mem_singleton.mp ho]
      exact ⟨rfl, rfl, rfl⟩
  · left
    obtain ⟨hreq, -, nick, elapsed, rfl⟩ := roundTrip_spec hr
    rw [heq]
    exact ⟨hreq, rfl, rfl⟩
  · rw [heq]
    rcases limited_spec s (CtcpReplies.senderOf m).1 (CtcpReplies.senderOf m).2 toChannel request
      dest localTime tag params now with ⟨-, hb, -, hs, hr, -, -⟩ | ⟨-, -, hb, hs, hr, -, -⟩
    · exact .inr ⟨hb, hs, hr⟩
    · exact .inl ⟨hb, hs, hr⟩

theorem decides_replies : replies.Decides := by
  intro s m currentNick replayed localTime now
  rcases observe_cases s m currentNick replayed localTime now with
    ⟨o, ho, heq⟩ | ⟨s', line, sender, params, hr, heq⟩ |
    ⟨target, text, request, toChannel, dest, tag, params, -, -, -, -, -, heq⟩
  · left
    rw [heq]
    rcases List.mem_cons.mp ho with rfl | ho
    · exact ⟨rfl, rfl, rfl⟩
    · rw [List.mem_singleton.mp ho]
      exact ⟨rfl, rfl, rfl⟩
  · left
    obtain ⟨-, hrep, nick, elapsed, rfl⟩ := roundTrip_spec hr
    rw [heq]
    exact ⟨hrep, rfl, rfl⟩
  · rw [heq]
    rcases limited_spec s (CtcpReplies.senderOf m).1 (CtcpReplies.senderOf m).2 toChannel request
      dest localTime tag params now with ⟨-, -, hb, -, -, hs, hr⟩ | ⟨-, hb, -, -, -, hs, hr⟩
    · exact .inl ⟨hb, hs, hr⟩
    · exact .inr ⟨hb, hs, hr⟩

variable {side : Side} {s : Session} {log : List Heard} {h : Heard}

theorem served_append : side.served (log ++ [h]) = side.served log ++
    if side.serves h then [⟨nicknameKey h.sender, h.time⟩] else [] := by
  unfold served
  rw [List.filter_append, List.map_append]
  split_ifs with hs <;> simp [hs]

theorem refused_append : side.refused (log ++ [h]) = side.refused log ++
    if side.refuses h then [h.time] else [] := by
  unfold refused
  rw [List.filter_append, List.map_append]
  split_ifs with hs <;> simp [hs]

def Accounted (side : Side) (s : Session) (log : List Heard) : Prop :=
  Keeps (side.budget s.replies) (side.served log) (side.refused log) s.now

def Owned (side : Side) : Prop :=
  ∀ (s : CtcpReplies), (∀ m, side.budget (s.setCasemapping m) = side.budget s) ∧
    (∀ nick tag args now, side.budget (s.request nick tag args now).1 = side.budget s) ∧
    ∀ now, side.budget (s.tick now).1 = side.budget s

theorem Accounted.call (hd : side.Decides) (ho : side.Owned) (ha : side.Accounted s log)
    (c : Call) : side.Accounted (s.step c) (log ++ s.heard c) := by
  have hnil : log ++ [] = log := List.append_nil log
  cases c with
  | elapse ms =>
    change side.Accounted _ (log ++ [])
    rw [hnil]
    exact ha.later (Nat.le_add_right ..)
  | setCasemapping m =>
    change Keeps (side.budget (s.replies.setCasemapping m)) (side.served (log ++ []))
      (side.refused (log ++ [])) _
    rw [hnil, (ho s.replies).1]
    exact ha
  | request nick tag args =>
    change Keeps (side.budget (s.replies.request nick tag args s.now).1) (side.served (log ++ []))
      (side.refused (log ++ [])) _
    rw [hnil, (ho s.replies).2.1]
    exact ha
  | tick =>
    change Keeps (side.budget (s.replies.tick s.now).1) (side.served (log ++ []))
      (side.refused (log ++ [])) _
    rw [hnil, (ho s.replies).2.2]
    exact ha
  | observe m nick replayed localTime =>
    rw [Session.heard, Accounted, served_append, refused_append]
    rcases hd s.replies m nick replayed localTime s.now with ⟨hb, hs, hr⟩ | ⟨hb, hs, hr⟩
    · rw [hs, hr, if_neg Bool.false_ne_true, if_neg Bool.false_ne_true, List.append_nil,
        List.append_nil, Session.step, hb]
      exact ha
    · rw [hs, hr, Session.step, hb]
      simpa only [decide_eq_true_eq] using ha.event (Heard.sender ⟨m, nick, replayed, _, _, _⟩)

theorem owned_requests : requests.Owned := by
  intro s
  refine ⟨fun _ => rfl, fun nick tag args now => ?_, fun _ => rfl⟩
  change (s.request nick tag args now).1.requests = s.requests
  unfold CtcpReplies.request
  dsimp only
  split_ifs <;> rfl

theorem owned_replies : replies.Owned := by
  intro s
  refine ⟨fun _ => rfl, fun nick tag args now => ?_, fun _ => rfl⟩
  change (s.request nick tag args now).1.replies = s.replies
  unfold CtcpReplies.request
  dsimp only
  split_ifs <;> rfl

theorem Accounted.bounds (ha : side.Accounted s log) (a : ℕ) (nick : String) :
    (log.filter fun h => h.within a && side.serves h).length ≤ maxPerWindow ∧
    (log.filter fun h => h.within a && (side.serves h && h.sentBy nick)).length ≤ maxPerUser ∧
    (log.filter fun h => h.within a && side.refuses h).length ≤ 1 := by
  have hpaced := ha.paced.within a
  have huser := (ha.users (nicknameKey nick)).within a
  have hreports := ha.reports.within a
  unfold served ofUser at *
  unfold refused at hreports
  simp only [List.map_map, List.filter_map, List.filter_filter, List.length_map,
    Function.comp_def] at hpaced huser hreports
  refine ⟨hpaced, ?_, hreports⟩
  simp only [Bool.and_comm (side.serves _)]
  exact huser

end Side

theorem accounted_run (avatar : Bool) (network : String) (nonce start : ℕ) (calls : List Call) :
    let opened : Session := ⟨.new avatar network nonce, start⟩
    let log := collect Session.heard Session.step opened calls
    let s := exec Session.step opened calls
    Side.requests.Accounted s log ∧ Side.replies.Accounted s log ∧ ∀ h ∈ log, h.AnswersOnly := by
  intro opened log s
  let accounts : Session → List Heard → Prop := fun s log =>
    Side.requests.Accounted s log ∧ Side.replies.Accounted s log ∧ ∀ h ∈ log, h.AnswersOnly
  have hopen : accounts opened [] := ⟨keeps_new start, keeps_new start, fun h hh => by cases hh⟩
  have hstep : ∀ s log c, accounts s log → accounts (Session.step s c) (log ++ Session.heard s c) := by
    intro s log c h
    refine ⟨h.1.call Side.decides_requests Side.owned_requests c,
      h.2.1.call Side.decides_replies Side.owned_replies c, fun x hx => ?_⟩
    rcases List.mem_append.mp hx with hx | hx
    · exact h.2.2 x hx
    · cases c with
      | observe m nick replayed localTime =>
        rw [List.mem_singleton.mp hx]
        exact observe_answersOnly ..
      | _ => cases hx
  have hrun : accounts s ([] ++ log) := collect_invariant accounts hstep hopen
  rwa [List.nil_append] at hrun

/-- A notice answers a live private request of another user and nothing else, and in every window
of less than ten seconds the requests served, in all and for each user, and the refusals reported
are bounded, like the table of the users. -/
theorem neither_loops_nor_floods (avatar : Bool) (network : String) (nonce start : ℕ)
    (calls : List Call) :
    let opened : Session := ⟨.new avatar network nonce, start⟩
    let log := collect Session.heard Session.step opened calls
    let s := exec Session.step opened calls
    (∀ h ∈ log, h.AnswersOnly) ∧
    (∀ a, (log.filter fun h => h.within a && h.servesRequest).length ≤ maxPerWindow) ∧
    (∀ a nick, (log.filter fun h => h.within a && (h.servesRequest && h.sentBy nick)).length ≤
      maxPerUser) ∧
    (∀ a, (log.filter fun h => h.within a && h.events.any CtcpLine.refusesRequests).length ≤ 1) ∧
    (∀ a, (log.filter fun h => h.within a && h.events.any CtcpLine.refusesReplies).length ≤ 1) ∧
    s.replies.requests.perUser.entries.length ≤ s.replies.requests.recent.length ∧
    Map.total List.length s.replies.requests.perUser = s.replies.requests.recent.length := by
  dsimp only
  obtain ⟨hreq, hrep, hans⟩ := accounted_run avatar network nonce start calls
  exact ⟨hans, fun a => (hreq.bounds a "").1, fun a nick => (hreq.bounds a nick).2.1,
    fun a => (hreq.bounds a "").2.2, fun a => (hrep.bounds a "").2.2, hreq.users_le,
    hreq.total_users⟩

end CayenChat.Ctcp
