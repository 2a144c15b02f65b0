import CayenChat.Lib.Machine
import CayenChat.Sasl.Handshake

/-! # The server proves itself

What is exchanged from the first line of a handshake on, for every order of the
server's lines and of the results of the derivation. An exchange that completes
has gone through the messages of its mechanism, and no others.
-/

namespace CayenChat

open Machine

/-- What is exchanged with the server and with the derivation, in order. -/
inductive Exchanged
  | received (payload : List UInt8)
  | sent (commands : List IrcCommand)
  | derived (d : Scram.Derived)
  | succeeded
  deriving DecidableEq, Repr

namespace SaslHandshake

/-- The complete message of the server that a line ends. -/
def challenge (c : Crypto) (s : SaslHandshake) (m : IrcMessage) : Option (List UInt8) :=
  match m.command with
  | .authenticate chunk =>
    match s.receive c chunk with
    | .ok (_, payload) => payload
    | .error _ => none
  | _ => none

def isSuccess (m : IrcMessage) : Bool :=
  match m.command with
  | .response response _ => response == .rplSaslSuccess
  | _ => false

end SaslHandshake

/-- A handshake that has begun, with the derivations it asked for; a refusal ends it. -/
structure Session where
  handshake : SaslHandshake
  jobs : List Scram.Job := []
  refused : Bool := false
  exchanged : List Exchanged := []
  deriving DecidableEq, Repr

namespace Session

/-- What reaches a session: a line of the server, or the result of a derivation it asked for. -/
inductive Input
  | line (m : IrcMessage)
  | result (n : ℕ)
  deriving DecidableEq, Repr

/-- The handshake goes on with what it did, or is refused. -/
def proceed (s : Session) (before : List Exchanged) :
    Except Refusal (SaslHandshake × Out) → Session
  | .error _ => { s with refused := true, exchanged := s.exchanged ++ before }
  | .ok (handshake, out) =>
    { s with
      handshake
      jobs := s.jobs ++ out.derive.toList
      exchanged := s.exchanged ++ before ++ if out.send = [] then [] else [.sent out.send] }

def step (c : Crypto) (s : Session) (i : Input) : Session :=
  if s.refused then s
  else
    match i with
    | .line m =>
      s.proceed
        ((s.handshake.challenge c m).toList.map .received ++
          if SaslHandshake.isSuccess m then [.succeeded] else [])
        (s.handshake.observe c m)
    | .result n =>
      match s.jobs[n]? with
      | some job => s.proceed [.derived (job.run c)] (s.handshake.derived c (job.run c))
      | none => s

theorem step_refused {c : Crypto} {s : Session} (h : s.refused = true) (i : Input) :
    s.step c i = s := by
  unfold step
  exact if_pos h

theorem step_line {c : Crypto} {s : Session} (h : s.refused = false) (m : IrcMessage) :
    s.step c (.line m) = s.proceed
      ((s.handshake.challenge c m).toList.map .received ++
        if SaslHandshake.isSuccess m then [.succeeded] else [])
      (s.handshake.observe c m) := by
  simp [step, h]

def begun (c : Crypto) (random : Option (List UInt8)) (credentials : SaslCredentials) : Session :=
  match (SaslHandshake.new credentials).start c random with
  | .ok (handshake, _) => { handshake }
  | .error _ => { handshake := .new credentials, refused := true }

end Session

/-- A server-first message is accepted: its nonce extends ours, its salt and iteration count are
within bounds, and the derivation is that of the password and of the messages exchanged. -/
structure FirstAccepted (c : Crypto) (s : Scram) (password : String) (data : List UInt8)
    (withoutProof : String) (job : Scram.Job) : Prop where
  hash : job.hash = s.hash
  password : job.password = password
  salt : job.salt ≠ [] ∧ job.salt.length ≤ Scram.maxSaltBytes
  iterations : Scram.minIterations ≤ job.iterations ∧ job.iterations ≤ Scram.maxIterations
  message : ∃ text nonce salt count rest, fromUtf8 data = some text ∧
    Scram.readParts {} (splitChar ',' text) = .ok ⟨some nonce, some salt, some count⟩ ∧
    (nonce = s.nonce ++ rest ∧ rest ≠ "") ∧ c.decode salt = some job.salt ∧
    parseUnsigned (2 ^ 32 - 1) count = some job.iterations ∧
    withoutProof = "c=" ++ Scram.gs2HeaderB64 ++ ",r=" ++ nonce ∧
    job.authMessage = s.firstBare ++ "," ++ text ++ "," ++ withoutProof

def FinalProves (c : Crypto) (data signature : List UInt8) : Prop :=
  ∃ text value, fromUtf8 data = some text ∧
    stripStart "v=" ((splitChar ',' text).headD "") = some value ∧ c.decode value = some signature

namespace Exchanged

variable (c : Crypto) (fresh : Scram) (first : List UInt8) (withoutProof : String)
  (job : Scram.Job) (final : List UInt8)

def opening : List Exchanged :=
  [received [], sent (SaslHandshake.authenticateLines c (utf8Bytes fresh.firstMessage))]

def answered : List Exchanged := opening c fresh ++ [received first]

def proved : List Exchanged :=
  answered c fresh first ++
    [derived (job.run c), sent (SaslHandshake.authenticateLines c
      (utf8Bytes (withoutProof ++ ",p=" ++ c.encode (job.run c).proof)))]

def verified : List Exchanged :=
  proved c fresh first withoutProof job ++ [received final, sent [.authenticate "+"]]

end Exchanged

/-- The server has authenticated itself before it reported success: the exchange is that of the
mechanism, with every value the server sent checked. -/
def Authenticated (c : Crypto) (random : Option (List UInt8)) (credentials : SaslCredentials)
    (hash : Scram.Hash) (exchanged : List Exchanged) : Prop :=
  ∃ fresh password first withoutProof job final rest,
    Scram.new c random hash credentials.username credentials.password = .ok fresh ∧
    c.saslprep credentials.password = some password ∧
    FirstAccepted c fresh password first withoutProof job ∧
    FinalProves c final (job.run c).serverSignature ∧
    exchanged =
      Exchanged.verified c fresh first withoutProof job final ++ .succeeded :: rest

/-- How far an exchange has come: the phase, the values kept, the derivations asked for and what was
exchanged. -/
inductive Reached (c : Crypto) (fresh : Scram) (password : String) :
    SaslPhase → Option Scram → List Scram.Job → List Exchanged → Prop
  | starting : Reached c fresh password .starting (some fresh) [] []
  | first : Reached c fresh password .scramFirst (some fresh) [] (Exchanged.opening c fresh)
  | derivation {first withoutProof job} (ha : FirstAccepted c fresh password first withoutProof job) :
      Reached c fresh password .keyDerivation
        (some { fresh with
          iterations := job.iterations, finalWithoutProof := withoutProof, password := none })
        [job] (Exchanged.answered c fresh first)
  | final {first withoutProof job} (ha : FirstAccepted c fresh password first withoutProof job) :
      Reached c fresh password .scramFinal
        (some { fresh with
          iterations := job.iterations, finalWithoutProof := withoutProof, password := none,
          serverSignature := (job.run c).serverSignature, phase := .final })
        [job] (Exchanged.proved c fresh first withoutProof job)
  | waiting {first withoutProof job final}
      (ha : FirstAccepted c fresh password first withoutProof job)
      (hf : FinalProves c final (job.run c).serverSignature) :
      Reached c fresh password .waitingForResult none [job]
        (Exchanged.verified c fresh first withoutProof job final)
  | complete {first withoutProof job final}
      (ha : FirstAccepted c fresh password first withoutProof job)
      (hf : FinalProves c final (job.run c).serverSignature) (rest : List Exchanged) :
      Reached c fresh password .complete none [job]
        (Exchanged.verified c fresh first withoutProof job final ++ .succeeded :: rest)

section Steps

variable {c : Crypto} {s s' : Scram} {job : Scram.Job} {data : List UInt8}

theorem startsWith_eq_true {p t : String} (h : startsWith p t = true) : ∃ r, t = p ++ r := by
  obtain ⟨l, hl⟩ := List.isPrefixOf_iff_prefix.mp h
  refine ⟨String.ofList l, String.toList_inj.mp ?_⟩
  simp [← hl]

theorem serverFirst_ok {password : String} (hp : s.password = some password)
    (h : s.serverFirst c data = .ok (s', job)) :
    ∃ withoutProof, FirstAccepted c s password data withoutProof job ∧
      s' = { s with
        iterations := job.iterations, finalWithoutProof := withoutProof, password := none } := by
  simp only [Scram.serverFirst, bind, Except.bind, throw, throwThe, MonadExceptOf.throw, pure,
    Except.pure, hp] at h
  split at h
  case h_2 => cases h
  rename_i text htext
  split at h
  · cases h
  split at h
  · cases h
  rename_i values hvalues
  obtain ⟨nonce, salt, count⟩ := values
  -- all three values are there
  cases nonce with
  | none => cases h
  | some nonce =>
  cases salt with
  | none => cases h
  | some salt =>
  cases count with
  | none => cases h
  | some count =>
  dsimp only at h
  split at h
  · cases h
  rename_i hnonce
  simp only [Bool.or_eq_true, Bool.not_eq_true', beq_iff_eq, not_or, Bool.not_eq_false] at hnonce
  obtain ⟨rest, hrest⟩ := startsWith_eq_true hnonce.1
  split at h
  case h_2 => cases h
  rename_i bytes hbytes
  rw [Option.filter_eq_some_iff, Bool.and_eq_true, bne_iff_ne, decide_eq_true_eq] at hbytes
  split at h
  case h_2 => cases h
  rename_i n hn
  rw [Option.filter_eq_some_iff, Bool.and_eq_true, decide_eq_true_eq, decide_eq_true_eq] at hn
  cases h
  refine ⟨_, ⟨rfl, rfl, hbytes.2, hn.2, text, nonce, salt, count, rest, htext, hvalues, ⟨hrest, ?_⟩,
    hbytes.1, ?_, rfl, rfl⟩, rfl⟩
  · rintro rfl
    exact hnonce.2 (by rw [hrest, String.append_empty])
  · have hcount := hn.1
    split_ifs at hcount
    exact hcount

theorem serverFinal_ok (h : s.serverFinal c data = .ok s') :
    FinalProves c data s.serverSignature := by
  simp only [Scram.serverFinal, bind, Except.bind, throw, throwThe, MonadExceptOf.throw, pure,
    Except.pure] at h
  split at h
  · cases h
  split at h
  case h_2 => cases h
  rename_i text htext
  split at h
  · cases h
  split at h
  case h_2 => cases h
  rename_i signature hsignature
  obtain ⟨value, hvalue, hdecode⟩ := Option.bind_eq_some_iff.mp hsignature
  split at h
  · cases h
  rename_i heq
  rw [not_not.mp heq] at hdecode
  exact ⟨text, value, htext, hvalue, hdecode⟩

end Steps

namespace SaslHandshake

section Lines

variable {c : Crypto} {s s' : SaslHandshake} {out : Out} {m : IrcMessage} {payload : List UInt8}

theorem authenticateLines_ne_nil : authenticateLines c payload ≠ [] := by
  unfold authenticateLines
  dsimp only
  split_ifs with h
  · simp
  · cases hl : (c.encode payload).toList with
    | nil => simp [hl] at h
    | cons d l => simp [chunks]

theorem finishIncoming_eq (h : s.finishIncoming c = .ok (s', payload)) :
    s' = { s with incoming := "" } := by
  unfold finishIncoming at h
  split at h <;> cases h
  rfl

theorem receive_eq {chunk : String} {payload : Option (List UInt8)}
    (h : s.receive c chunk = .ok (s', payload)) : ∃ incoming, s' = { s with incoming } := by
  have finish (incoming : String)
      (h : (finishIncoming c { s with incoming }).map (fun r => (r.1, some r.2)) =
        .ok (s', payload)) : ∃ incoming, s' = { s with incoming } := by
    cases hf : finishIncoming c { s with incoming } with
    | error e => rw [hf] at h; cases h
    | ok r => rw [hf] at h; cases h; exact ⟨"", finishIncoming_eq (s := { s with incoming }) hf⟩
  unfold receive at h
  split at h
  · cases h; exact ⟨s.incoming, rfl⟩
  · split at h
    · exact finish s.incoming h
    · split at h
      · cases h
      · dsimp only at h
        split at h
        · cases h; exact ⟨_, rfl⟩
        · exact finish (s.incoming ++ chunk) h

/-- A line that is not refused ends a message that is handled, confirms the exchange, or changes what
is received so far only. -/
theorem observe_cases (h : s.observe c m = .ok (s', out)) :
    (∃ payload incoming, s.challenge c m = some payload ∧ isSuccess m = false ∧
      handle c { s with incoming } payload = .ok (s', out)) ∨
    (s.challenge c m = none ∧ isSuccess m = true ∧ s.phase = .waitingForResult ∧
      s' = { s with phase := .complete } ∧ out.send = [] ∧ out.derive = none) ∨
    (s.challenge c m = none ∧ (isSuccess m = true → s.phase = .idle ∨ s.phase = .complete) ∧
      (∃ incoming, s' = { s with incoming }) ∧ out.send = [] ∧ out.derive = none) := by
  unfold observe at h
  split at h
  · rename_i chunk hm
    have hs : isSuccess m = false := by rw [isSuccess, hm]
    have hc : s.challenge c m = match s.receive c chunk with
        | .ok (_, payload) => payload
        | .error _ => none := by rw [challenge, hm]
    unfold observeChunk at h
    split at h
    · cases h
    · rename_i hr
      cases h
      rw [hr] at hc
      exact .inr (.inr ⟨hc, by simp [hs], receive_eq hr, rfl, rfl⟩)
    · rename_i s₁ payload hr
      obtain ⟨incoming, rfl⟩ := receive_eq hr
      rw [hr] at hc
      split at h
      · rename_i hh
        cases h
        exact .inl ⟨payload, incoming, hc, hs, hh⟩
      · split at h <;> cases h
  · rename_i response args hm
    have hc : s.challenge c m = none := by rw [challenge, hm]
    have hs : isSuccess m = (response == .rplSaslSuccess) := by rw [isSuccess, hm]
    split at h
    · rename_i hr
      subst hr
      split at h <;> cases h
      · rename_i hp
        exact .inr (.inl ⟨hc, hs, hp, rfl, rfl, rfl⟩)
      · rename_i hp
        exact .inr (.inr ⟨hc, fun _ => .inl hp, ⟨s.incoming, rfl⟩, rfl, rfl⟩)
      · rename_i hp
        exact .inr (.inr ⟨hc, fun _ => .inr hp, ⟨s.incoming, rfl⟩, rfl, rfl⟩)
    · rename_i hr
      have hs : isSuccess m = false := by rw [hs]; simpa using hr
      split at h
      · cases h
        exact .inr (.inr ⟨hc, by simp [hs], ⟨s.incoming, rfl⟩, rfl, rfl⟩)
      · split at h <;> cases h
        exact .inr (.inr ⟨hc, by simp [hs], ⟨s.incoming, rfl⟩, rfl, rfl⟩)
  · rename_i hm₁ hm₂
    cases h
    refine .inr (.inr ⟨?_, ?_, ⟨s.incoming, rfl⟩, rfl, rfl⟩)
    · unfold challenge
      split
      · rename_i hm
        exact absurd hm (hm₁ _)
      · rfl
    · unfold isSuccess
      split
      · rename_i hm
        exact absurd hm (hm₂ _ _)
      · intro h
        cases h

end Lines

end SaslHandshake

section Reaching

variable {c : Crypto} {fresh : Scram} {password : String} {s s' : SaslHandshake} {out : Out}
  {m : IrcMessage} {payload : List UInt8} {jobs : List Scram.Job} {exchanged : List Exchanged}

def sentEntry (send : List IrcCommand) : List Exchanged := if send = [] then [] else [.sent send]

theorem Reached.handle (hp : fresh.password = some password)
    (hr : Reached c fresh password s.phase s.scram jobs exchanged)
    (h : s.handle c payload = .ok (s', out)) :
    Reached c fresh password s'.phase s'.scram (jobs ++ out.derive.toList)
      (exchanged ++ [.received payload] ++ sentEntry out.send) := by
  obtain ⟨mechanism, username, pw, phase, scram, incoming⟩ := s
  cases hr with
  | starting =>
    simp only [SaslHandshake.handle] at h
    split at h
    · cases h
    · rename_i he
      cases h
      rw [sentEntry, if_neg SaslHandshake.authenticateLines_ne_nil, not_not.mp he]
      exact .first
  | first =>
    simp only [SaslHandshake.handle] at h
    split at h
    · cases h
    · rename_i hf
      cases h
      obtain ⟨withoutProof, ha, rfl⟩ := serverFirst_ok hp hf
      rw [sentEntry, if_pos rfl, List.append_nil]
      exact .derivation ha
  | derivation ha => simp only [SaslHandshake.handle] at h; cases h
  | final ha =>
    simp only [SaslHandshake.handle] at h
    split at h
    · cases h
    · rename_i hf
      cases h
      rw [sentEntry, if_neg (by simp), List.append_assoc]
      exact .waiting ha (serverFinal_ok hf)
  | waiting ha hf => simp only [SaslHandshake.handle] at h; cases h
  | complete ha hf rest => simp only [SaslHandshake.handle] at h; cases h

theorem Reached.line (hp : fresh.password = some password)
    (hr : Reached c fresh password s.phase s.scram jobs exchanged)
    (h : s.observe c m = .ok (s', out)) :
    Reached c fresh password s'.phase s'.scram (jobs ++ out.derive.toList)
      (exchanged ++ ((s.challenge c m).toList.map .received ++
        if SaslHandshake.isSuccess m then [.succeeded] else []) ++ sentEntry out.send) := by
  rcases SaslHandshake.observe_cases h with ⟨payload, incoming, hc, hs, hh⟩ |
    ⟨hc, hs, hph, rfl, hout, hd⟩ | ⟨hc, hs, ⟨incoming, rfl⟩, hout, hd⟩
  · have := Reached.handle (s := { s with incoming }) hp hr hh
    simpa [hc, hs] using this
  · obtain ⟨mechanism, username, pw, phase, scram, incoming⟩ := s
    subst hph
    rw [hc, hs, hout, hd, sentEntry]
    cases hr with
    | waiting ha hf => simpa using Reached.complete ha hf []
  · obtain ⟨mechanism, username, pw, phase, scram, _⟩ := s
    rw [hc, hout, hd, sentEntry]
    by_cases hsm : SaslHandshake.isSuccess m = true
    · rw [hsm]
      rcases hs hsm with hph | hph
      · subst hph
        cases hr
      · subst hph
        cases hr with
        | complete ha hf rest => simpa using Reached.complete ha hf (rest ++ [.succeeded])
    · simpa [hsm] using hr

theorem Reached.result {n : ℕ} {job : Scram.Job}
    (hr : Reached c fresh password s.phase s.scram jobs exchanged) (hj : jobs[n]? = some job)
    (h : s.derived c (job.run c) = .ok (s', out)) :
    Reached c fresh password s'.phase s'.scram (jobs ++ out.derive.toList)
      (exchanged ++ [.derived (job.run c)] ++ sentEntry out.send) := by
  obtain ⟨mechanism, username, pw, phase, scram, incoming⟩ := s
  cases hr with
  | starting => simp at hj
  | first => simp at hj
  | derivation ha =>
    rw [List.getElem?_singleton] at hj
    split_ifs at hj
    cases hj
    simp only [SaslHandshake.derived, Scram.derived] at h
    cases h
    rw [sentEntry, if_neg SaslHandshake.authenticateLines_ne_nil, List.append_assoc]
    exact .final ha
  | final ha => simp [SaslHandshake.derived] at h
  | waiting ha hf => simp [SaslHandshake.derived] at h
  | complete ha hf rest => simp [SaslHandshake.derived] at h

end Reaching

section Sessions

variable {c : Crypto} {random : Option (List UInt8)} {credentials : SaslCredentials}
  {hash : Scram.Hash} {s : Session} {fresh : Scram} {password : String}

theorem Scram.new_ok {user pw : String} (h : Scram.new c random hash user pw = .ok fresh) :
    c.saslprep pw = fresh.password ∧ fresh.password.isSome := by
  simp only [Scram.new, throw, throwThe, MonadExceptOf.throw, pure, Except.pure] at h
  split at h
  case h_2 => cases h
  rename_i hp
  split at h <;> cases h
  exact ⟨hp, rfl⟩

theorem SaslHandshake.start_eq {handshake : SaslHandshake} {out : Out}
    (h : (SaslHandshake.new credentials).start c random = .ok (handshake, out)) :
    ∃ scram, handshake = { SaslHandshake.new credentials with scram, phase := .starting } ∧
      match credentials.mechanism.scramHash with
      | some hash => ∃ fresh,
        Scram.new c random hash credentials.username credentials.password = .ok fresh ∧
          scram = some fresh
      | none => scram = none := by
  unfold SaslHandshake.start at h
  dsimp only at h
  split at h
  · cases h
  · rw [show (SaslHandshake.new credentials).mechanism = credentials.mechanism from rfl] at h
    split at h
    · cases h
    · rename_i scram hs
      cases h
      refine ⟨scram, rfl, ?_⟩
      cases hm : credentials.mechanism.scramHash with
      | none =>
        rw [hm] at hs
        cases hs
        rfl
      | some hash =>
        rw [hm] at hs
        cases hn : Scram.new c random hash credentials.username credentials.password with
        | error e => simp [SaslHandshake.new, hn, Except.map] at hs
        | ok fresh =>
          refine ⟨fresh, hn, ?_⟩
          simp only [SaslHandshake.new, hn, Except.map, Except.ok.injEq] at hs
          exact hs.symm

/-- A session that is not refused has come so far; one that is complete is authenticated. -/
structure Session.Sound (c : Crypto) (random : Option (List UInt8)) (credentials : SaslCredentials)
    (hash : Scram.Hash) (fresh : Scram) (password : String) (s : Session) : Prop where
  reached : s.refused = false →
    Reached c fresh password s.handshake.phase s.handshake.scram s.jobs s.exchanged
  authenticated : s.handshake.phase = .complete →
    Authenticated c random credentials hash s.exchanged

variable (hn : Scram.new c random hash credentials.username credentials.password = .ok fresh)
  (hp : fresh.password = some password)

include hn hp in
theorem Reached.authenticated {jobs : List Scram.Job} {exchanged : List Exchanged}
    {phase : SaslPhase} {scram : Option Scram} (hr : Reached c fresh password phase scram jobs exchanged)
    (hc : phase = .complete) : Authenticated c random credentials hash exchanged := by
  cases hr with
  | complete ha hf rest =>
    exact ⟨fresh, password, _, _, _, _, rest, hn, (Scram.new_ok hn).1.trans hp, ha, hf, rfl⟩
  | _ => cases hc

theorem Authenticated.append {exchanged : List Exchanged}
    (h : Authenticated c random credentials hash exchanged) (more : List Exchanged) :
    Authenticated c random credentials hash (exchanged ++ more) := by
  obtain ⟨fresh, password, first, withoutProof, job, final, rest, hn, hp, ha, hf, rfl⟩ := h
  exact ⟨fresh, password, first, withoutProof, job, final, rest ++ more, hn, hp, ha, hf, by simp⟩

include hn hp in
theorem Session.Sound.proceed {before : List Exchanged} {r : Except Refusal (SaslHandshake × Out)}
    (hs : s.Sound c random credentials hash fresh password)
    (h : ∀ handshake out, r = .ok (handshake, out) → Reached c fresh password handshake.phase
      handshake.scram (s.jobs ++ out.derive.toList)
      (s.exchanged ++ before ++ sentEntry out.send)) :
    (s.proceed before r).Sound c random credentials hash fresh password := by
  cases r with
  | error e =>
    exact ⟨fun hr => absurd hr (by simp [Session.proceed]), fun hc => (hs.authenticated hc).append _⟩
  | ok r =>
    have hr := h r.1 r.2 rfl
    exact ⟨fun _ => hr, fun hc => hr.authenticated hn hp hc⟩

include hn hp in
theorem Session.Sound.step (hs : s.Sound c random credentials hash fresh password)
    (i : Session.Input) : (s.step c i).Sound c random credentials hash fresh password := by
  unfold Session.step
  split_ifs with hr
  · exact hs
  · have hr := hs.reached (Bool.eq_false_iff.mpr hr)
    cases i with
    | line m => exact hs.proceed hn hp fun _ _ h => hr.line hp h
    | result n =>
      dsimp only
      split
      · rename_i hj
        exact hs.proceed hn hp fun _ _ h => hr.result hj h
      · exact hs

theorem Session.begun_sound (hm : credentials.mechanism.scramHash = some hash) :
    ((Session.begun c random credentials).handshake.phase = .idle ∧
        (Session.begun c random credentials).refused = true) ∨
      ∃ fresh password,
        Scram.new c random hash credentials.username credentials.password = .ok fresh ∧
        fresh.password = some password ∧
        (Session.begun c random credentials).Sound c random credentials hash fresh password := by
  unfold Session.begun
  split
  · rename_i h
    obtain ⟨scram, rfl, hs⟩ := SaslHandshake.start_eq h
    rw [hm] at hs
    obtain ⟨fresh, hn, rfl⟩ := hs
    obtain ⟨password, hp⟩ := Option.isSome_iff_exists.mp (Scram.new_ok hn).2
    exact .inr ⟨fresh, password, hn, hp, fun _ => .starting, fun hc => by cases hc⟩
  · exact .inl ⟨rfl, rfl⟩

end Sessions

def NoneSent (exchanged : List Exchanged) : Prop := ∀ send, .sent send ∉ exchanged

def passwordPayload (credentials : SaslCredentials) : List UInt8 :=
  0 :: utf8Bytes credentials.username ++ 0 :: utf8Bytes credentials.password

/-- The password is sent at most once, and as the answer to an empty challenge that is the first
message of the server. -/
def PasswordOnce (c : Crypto) (credentials : SaslCredentials) (exchanged : List Exchanged) : Prop :=
  NoneSent exchanged ∨ ∃ rest, NoneSent rest ∧ exchanged =
    .received [] :: .sent (SaslHandshake.authenticateLines c (passwordPayload credentials)) :: rest

section Plain

variable {c : Crypto} {random : Option (List UInt8)} {credentials : SaslCredentials} {s : Session}
  {exchanged more : List Exchanged}

theorem NoneSent.append (h : NoneSent exchanged) (h' : NoneSent more) :
    NoneSent (exchanged ++ more) := fun send hm =>
  (List.mem_append.mp hm).elim (h send) (h' send)

theorem PasswordOnce.append (h : PasswordOnce c credentials exchanged) (h' : NoneSent more) :
    PasswordOnce c credentials (exchanged ++ more) := by
  rcases h with h | ⟨rest, h, rfl⟩
  · exact .inl (h.append h')
  · exact .inr ⟨rest ++ more, h.append h', rfl⟩

theorem noneSent_line (payload : Option (List UInt8)) (success : Bool) :
    NoneSent (payload.toList.map Exchanged.received ++ if success then [.succeeded] else []) := by
  intro send hm
  rcases List.mem_append.mp hm with hm | hm
  · obtain ⟨_, -, h⟩ := List.mem_map.mp hm
    cases h
  · split at hm
    · cases List.mem_singleton.mp hm
    · cases hm

/-- A PLAIN exchange that is not refused waits for the first challenge with nothing exchanged, or has
nothing to send any more. -/
structure Session.Plain (c : Crypto) (credentials : SaslCredentials) (s : Session) : Prop where
  scram : s.handshake.scram = none
  mechanism : s.handshake.mechanism = .plain
  starting : s.refused = false → s.handshake.phase = .starting →
    s.handshake.username = credentials.username ∧ s.handshake.password = credentials.password ∧
      s.exchanged = []
  phase : s.refused = false → s.handshake.phase = .starting ∨
    s.handshake.phase = .waitingForResult ∨ s.handshake.phase = .complete
  once : PasswordOnce c credentials s.exchanged

theorem SaslHandshake.handle_plain {s s' : SaslHandshake} {out : Out} {payload : List UInt8}
    (hc : s.scram = none) (hm : s.mechanism = .plain)
    (hp : s.phase = .starting ∨ s.phase = .waitingForResult ∨ s.phase = .complete)
    (h : s.handle c payload = .ok (s', out)) :
    s.phase = .starting ∧ payload = [] ∧
      s' = { s with phase := .waitingForResult, password := "" } ∧
      out.send = authenticateLines c (0 :: utf8Bytes s.username ++ 0 :: utf8Bytes s.password) := by
  obtain ⟨mechanism, username, pw, phase, scram, incoming⟩ := s
  dsimp only at hc hm hp
  subst hc hm
  rcases hp with rfl | rfl | rfl
  · simp only [SaslHandshake.handle] at h
    split at h
    · cases h
    · rename_i he
      rw [if_neg (by simp)] at h
      cases h
      exact ⟨rfl, not_not.mp he, rfl, rfl⟩
  · simp only [SaslHandshake.handle] at h
    cases h
  · simp only [SaslHandshake.handle] at h
    cases h

theorem Session.Plain.refuse (hs : s.Plain c credentials) (hm : NoneSent more) :
    Session.Plain c credentials { s with refused := true, exchanged := s.exchanged ++ more } where
  scram := hs.scram
  mechanism := hs.mechanism
  starting h := by cases h
  phase h := by cases h
  once := hs.once.append hm

theorem Session.Plain.line (hs : s.Plain c credentials) (hr : s.refused = false) (m : IrcMessage) :
    (s.step c (.line m)).Plain c credentials := by
  rw [Session.step_line hr]
  have hbefore := noneSent_line (s.handshake.challenge c m) (SaslHandshake.isSuccess m)
  cases ho : s.handshake.observe c m with
  | error e => exact hs.refuse hbefore
  | ok r =>
    obtain ⟨handshake, out⟩ := r
    simp only [Session.proceed]
    rcases SaslHandshake.observe_cases ho with ⟨payload, incoming, hc, hsm, hh⟩ |
      ⟨hc, hsm, hph, rfl, hout, hd⟩ | ⟨hc, hsm, ⟨incoming, rfl⟩, hout, hd⟩
    · -- the only message that is handled is the first, empty one
      obtain ⟨hst, rfl, rfl, hout⟩ := SaslHandshake.handle_plain (s := { s.handshake with incoming })
        hs.scram hs.mechanism (hs.phase hr) hh
      obtain ⟨hu, hpw, he⟩ := hs.starting hr hst
      refine ⟨hs.scram, hs.mechanism, fun _ h => (by cases h), fun _ => .inr (.inl rfl), .inr ⟨[], ?_⟩⟩
      refine ⟨fun _ h => (by cases h), ?_⟩
      rw [hc, hsm, hout, if_neg SaslHandshake.authenticateLines_ne_nil, he]
      simp [passwordPayload, hu, hpw]
    · rw [hout, if_pos rfl, List.append_nil]
      exact ⟨hs.scram, hs.mechanism, fun _ h => (by cases h), fun _ => .inr (.inr rfl),
        hs.once.append hbefore⟩
    · rw [hout, if_pos rfl, List.append_nil]
      refine ⟨hs.scram, hs.mechanism, fun _ h => ?_, fun _ => hs.phase hr, hs.once.append hbefore⟩
      obtain ⟨hu, hpw, he⟩ := hs.starting hr h
      refine ⟨hu, hpw, ?_⟩
      have hn : SaslHandshake.isSuccess m ≠ true := fun hs' => by
        rcases hsm hs' with hi | hi <;> rw [h] at hi <;> cases hi
      simp [hc, hn, he]

theorem Session.Plain.step (hs : s.Plain c credentials) (i : Session.Input) :
    (s.step c i).Plain c credentials := by
  by_cases hr : s.refused = true
  · rwa [Session.step_refused hr]
  · cases i with
    | line m => exact hs.line (Bool.eq_false_iff.mpr hr) m
    | result n =>
      simp only [Session.step, hr, Bool.false_eq_true, if_false]
      split
      · -- no derivation was asked for
        have hd (d : Scram.Derived) : s.handshake.derived c d =
            .error { reason := "Unexpected SASL state." } := by
          rw [SaslHandshake.derived, hs.scram]
        rw [hd]
        exact hs.refuse fun send h => by cases List.mem_singleton.mp h
      · exact hs

theorem Session.begun_plain (hm : credentials.mechanism = .plain) :
    (Session.begun c random credentials).Plain c credentials := by
  unfold Session.begun
  split
  · rename_i h
    obtain ⟨scram, rfl, hs⟩ := SaslHandshake.start_eq h
    rw [hm] at hs
    exact ⟨hs, hm, fun _ _ => ⟨rfl, rfl, rfl⟩, fun _ => .inl rfl, .inl fun _ h => by cases h⟩
  · exact ⟨rfl, hm, fun h => (by cases h), fun h => (by cases h), .inl fun _ h => by cases h⟩

end Plain

theorem Session.step_success {c : Crypto} {s : Session} {m : IrcMessage}
    (hm : SaslHandshake.isSuccess m = true) (hp : s.handshake.phase ≠ .waitingForResult) :
    (s.step c (.line m)).handshake.phase = s.handshake.phase := by
  by_cases hr : s.refused = true
  · rw [Session.step_refused hr]
  · rw [Session.step_line (Bool.eq_false_iff.mpr hr)]
    cases ho : s.handshake.observe c m with
    | error e => rfl
    | ok r =>
      obtain ⟨handshake, out⟩ := r
      rcases SaslHandshake.observe_cases ho with ⟨_, _, -, hsm, -⟩ | ⟨-, -, hph, -⟩ |
        ⟨-, -, ⟨incoming, rfl⟩, -⟩
      · rw [hm] at hsm
        cases hsm
      · exact absurd hph hp
      · rfl

/-- For every order of the server's lines and of the results of the derivation: an exchange with a
SCRAM mechanism that is complete has authenticated the server, PLAIN sends the password at most once
and for an empty first challenge, and only a wait for the result ends with success. -/
theorem server_authenticated (c : Crypto) (random : Option (List UInt8))
    (credentials : SaslCredentials) (is : List Session.Input) :
    let s := exec (Session.step c) (Session.begun c random credentials) is
    (∀ hash, credentials.mechanism.scramHash = some hash → s.handshake.complete = true →
      Authenticated c random credentials hash s.exchanged) ∧
    (credentials.mechanism = .plain → PasswordOnce c credentials s.exchanged) ∧
    (∀ m, SaslHandshake.isSuccess m = true → s.handshake.phase ≠ .waitingForResult →
      (s.step c (.line m)).handshake.complete = s.handshake.complete) := by
  intro s
  refine ⟨fun hash hm hc => ?_, fun hm => ?_, fun m hm hp => ?_⟩
  · have hc : s.handshake.phase = .complete := beq_iff_eq.mp hc
    have hbegun := @Session.begun_sound c random credentials hash hm
    rcases hbegun with hidle | ⟨fresh, password, hn, hp, hs⟩
    · -- a handshake that could not begin stays idle
      have h : s.handshake.phase = .idle ∧ s.refused = true :=
        exec_invariant' (fun s : Session => s.handshake.phase = .idle ∧ s.refused = true)
          (fun s i h => by rwa [Session.step_refused h.2]) hidle
      rw [hc] at h
      cases h.1
    · have h : s.Sound c random credentials hash fresh password :=
        exec_invariant' _ (fun _ i h => h.step hn hp i) hs
      exact h.authenticated hc
  · have h : s.Plain c credentials :=
      exec_invariant' _ (fun _ i h => h.step i) (Session.begun_plain hm)
    exact h.once
  · rw [SaslHandshake.complete, SaslHandshake.complete, Session.step_success hm hp]

def base64Digits : List Char :=
  "ABCDEFGHIJKLMNOPQRSTUVWXYZabcdefghijklmnopqrstuvwxyz0123456789+/".toList

def base64Encode : List UInt8 → List Char
  | [] => []
  | [a] => digits (a.toNat * 2 ^ 16) 2 ++ ['=', '=']
  | [a, b] => digits (a.toNat * 2 ^ 16 + b.toNat * 2 ^ 8) 3 ++ ['=']
  | a :: b :: c :: rest =>
    digits (a.toNat * 2 ^ 16 + b.toNat * 2 ^ 8 + c.toNat) 4 ++ base64Encode rest
where
  digits (n k : ℕ) : List Char :=
    ([18, 12, 6, 0].take k).map fun i => base64Digits.getD (n / 2 ^ i % 64) 'A'

def base64Decode : List Char → Option (List UInt8)
  | [] => some []
  | [w, x, '=', '='] => (value [w, x, 'A', 'A']).map fun n => [.ofNat (n / 2 ^ 16)]
  | [w, x, y, '='] => (value [w, x, y, 'A']).map fun n => [.ofNat (n / 2 ^ 16), .ofNat (n / 2 ^ 8)]
  | w :: x :: y :: z :: rest => do
    let n ← value [w, x, y, z]
    let bytes ← base64Decode rest
    return .ofNat (n / 2 ^ 16) :: .ofNat (n / 2 ^ 8) :: .ofNat n :: bytes
  | _ => none
where
  value (l : List Char) : Option ℕ :=
    (l.mapM fun d => base64Digits.idxOf? d).map (List.foldl (64 * · + ·) 0)

/-- The derivations of the SCRAM-SHA-1 example exchange, for the password "pencil". -/
def exampleCrypto : Crypto where
  encode bytes := String.ofList (base64Encode bytes)
  decode text := base64Decode text.toList
  saslprep := some
  digest _ _ := [233, 217, 70, 96, 195, 157, 101, 195, 143, 186, 217, 28, 53, 143, 20, 218, 14, 239,
    43, 214]
  hmac _ key data :=
    if data = utf8Bytes "Client Key" then
      [226, 52, 196, 123, 246, 195, 102, 150, 221, 109, 133, 43, 153, 170, 162, 186, 38, 85, 87, 40]
    else if data = utf8Bytes "Server Key" then
      [15, 224, 146, 88, 179, 172, 133, 43, 165, 2, 204, 98, 186, 144, 62, 170, 205, 191, 125, 49]
    else if key.head? = some 15 then
      [174, 97, 125, 166, 165, 124, 75, 187, 46, 2, 134, 86, 141, 174, 29, 37, 25, 5, 176, 164]
    else
      [93, 113, 56, 196, 134, 176, 191, 171, 223, 73, 227, 226, 218, 139, 214, 229, 199, 157, 182, 19]
  pbkdf2 _ _ _ _ := [29, 150, 238, 58, 82, 155, 90, 95, 158, 71, 192, 31, 34, 154, 44, 184, 166, 225,
    95, 125]
  keyIsValid _ := false
  sign _ _ := .error ""

def exampleLine (text : String) : IrcMessage :=
  { command := .authenticate (exampleCrypto.encode (utf8Bytes text)) }

def exampleExchange : List Session.Input :=
  [.line { command := .authenticate "+" },
    .line (exampleLine "r=fyko+d2lbbFgONRv9qkxdawL3rfcNHYJY1ZVvWVs7j,s=QSXCR+Q6sek8bf92,i=4096"),
    .result 0,
    .line (exampleLine "v=rmF9pqV8S7suAoZWja4dJRkFsKQ="),
    .line { command := .response .rplSaslSuccess ["user", "ok"] }]

theorem example_exchange_authenticated :
    Authenticated exampleCrypto (exampleCrypto.decode "fyko+d2lbbFgONRv9qkxdawL")
      ⟨.scramSha1, "user", "pencil"⟩ .sha1
      (exec (Session.step exampleCrypto)
        (Session.begun exampleCrypto (exampleCrypto.decode "fyko+d2lbbFgONRv9qkxdawL")
          ⟨.scramSha1, "user", "pencil"⟩) exampleExchange).exchanged :=
  (server_authenticated _ _ _ _).1 .sha1 rfl (by decide +kernel)

end CayenChat
