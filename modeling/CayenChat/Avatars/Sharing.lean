import CayenChat.Avatars.Exchange

/-! # Sharing an avatar

The users who asked for our avatar are taken to know what the last notice told
them, and all come to know what we share. Everything is within its limits, and
two clients who stay in sight of each other come to rest.
-/

namespace CayenChat.Avatars

open Ctcp Machine PeerAvatars Window

variable {mask : CaseMapping → String → String → String → String}

/-! ## One client -/

/-- The exchange of a client over time, with what it told others and whom it answered. -/
structure PeerSession where
  state : PeerAvatars
  now : ℕ := 0
  /-- What the last notice told each user since they are to be told of changes. -/
  told : String → Option String := fun _ => none
  answers : List Admitted := []

namespace PeerSession

def start (utf8 : Bool) (share : Option String) (cache : PeerAvatarCache) : PeerSession where
  state := withCache utf8 share cache

def sends (mask : CaseMapping → String → String → String → String) (p : PeerSession)
    (c : PeerCall) : List IrcCommand := (p.state.call mask p.now c).2.send

def call (mask : CaseMapping → String → String → String → String) (p : PeerSession)
    (c : PeerCall) : PeerSession where
  state := (p.state.call mask p.now c).1
  now := c.after p.now
  told key :=
    if ((p.state.call mask p.now c).1.askers.lookup key).isSome then
      (lastTold p.state.utf8 key (p.sends mask c)).getD (p.told (c.formerly key))
    else none
  answers := p.answers ++ c.answers p.now (p.sends mask c)

/-- What holds of a client at all times. -/
structure Kept (p : PeerSession) : Prop where
  keyed : p.state.Keyed
  sharing : p.state.Sharing
  recorded : ∀ key, p.state.recorded key = p.told key
  bounded : p.state.Bounded
  remembers : p.state.Remembers p.answers p.now
  notifies : p.state.Notifies p.now

theorem kept_start (utf8 : Bool) (share : Option String) (cache : PeerAvatarCache) :
    (start utf8 share cache).Kept where
  keyed key asker h := by cases h
  sharing url h := (Option.filter_eq_some_iff.mp h).2
  recorded _ := rfl
  bounded := ⟨Nat.zero_le _, Nat.zero_le _, Nat.zero_le _, fun _ h => (List.not_mem_nil h).elim⟩
  remembers :=
    { replies := ⟨0, le_rfl, rfl⟩
      replied := fun _ h => (List.not_mem_nil h).elim
      past := fun _ h => (List.not_mem_nil h).elim
      paced := .nil
      users := fun _ => .nil
      window := Nat.zero_le _
      recipients := Nat.zero_le _ }
  notifies := ⟨Nat.zero_le _, fun _ h => by cases h⟩

theorem Kept.call {p : PeerSession} (h : p.Kept) (c : PeerCall) : (p.call mask c).Kept where
  keyed key asker ha := (call_tells h.keyed h.sharing p.now c key asker ha).1
  sharing := call_sharing h.sharing p.now c
  recorded key := by
    unfold PeerSession.call
    dsimp only
    cases hl : (p.state.call mask p.now c).1.askers.lookup key with
    | none =>
      unfold PeerAvatars.recorded
      rw [hl]
      rfl
    | some asker =>
      rw [recorded_of_lookup hl, (call_tells h.keyed h.sharing p.now c key asker hl).2,
        h.recorded]
      rfl
  bounded := call_bounded h.bounded p.now c
  remembers := call_remembers h.remembers c
  notifies := call_notifies h.notifies c

def after (mask : CaseMapping → String → String → String → String) (utf8 : Bool)
    (share : Option String) (cache : PeerAvatarCache) (calls : List PeerCall) : PeerSession :=
  exec (PeerSession.call mask) (start utf8 share cache) calls

variable (mask) in
theorem kept_after (utf8 : Bool) (share : Option String) (cache : PeerAvatarCache)
    (calls : List PeerCall) : (after mask utf8 share cache calls).Kept :=
  exec_invariant' Kept (fun _ c h => h.call c) (kept_start utf8 share cache)

/-- Time that passes, and a tick. -/
structure Round where
  ms : ℕ
  currentNick : String
  presence : PresenceIndex
  order : KeyOrder

def Round.calls (round : Round) : List PeerCall :=
  [.elapse round.ms, .tick round.currentNick round.presence round.order]

variable (mask) in
theorem round_untold {p : PeerSession} (h : p.Kept) {round : Round}
    (hms : notifyInterval ≤ round.ms) :
    (exec (PeerSession.call mask) p round.calls).Kept ∧
      (exec (PeerSession.call mask) p round.calls).state.share = p.state.share ∧
      (exec (PeerSession.call mask) p round.calls).state.untold.card ≤
        p.state.untold.card - 1 := by
  refine ⟨(h.call _).call _, (p.state.tick_share ..).2, ?_⟩
  refine tick_untold (fun due hd => ?_) round.order round.currentNick round.presence
  have := h.notifies.due due hd
  change due ≤ p.now + round.ms
  omega

variable (mask) in
theorem rounds_untold {p : PeerSession} (h : p.Kept) {rounds : List Round}
    (hms : ∀ round ∈ rounds, notifyInterval ≤ round.ms) :
    (exec (PeerSession.call mask) p (rounds.flatMap Round.calls)).state.share = p.state.share ∧
      (exec (PeerSession.call mask) p (rounds.flatMap Round.calls)).state.untold.card ≤
        p.state.untold.card - rounds.length := by
  induction rounds generalizing p with
  | nil => exact ⟨rfl, le_rfl⟩
  | cons round rounds ih =>
    obtain ⟨hkept, hshare, hcard⟩ := round_untold mask h (hms round List.mem_cons_self)
    obtain ⟨hshares, hcards⟩ := ih hkept fun r hr => hms r (List.mem_cons_of_mem _ hr)
    rw [List.flatMap_cons, exec_append, List.length_cons]
    refine ⟨hshares.trans hshare, ?_⟩
    omega

/-- Those who asked for our avatar are taken to know what they were told, are told of changes while
they share a channel with us, and are not told any more when they leave. -/
structure UpToDate (mask : CaseMapping → String → String → String → String)
    (p : PeerSession) : Prop where
  recorded : ∀ key, p.state.recorded key = p.told key
  dropped : ∀ (message : IrcMessage) (presence : PresenceIndex) (currentNick actor nick : String),
    message.sourceNickname = some actor →
    MetadataState.losesSight presence currentNick actor nick message.command →
    (p.call mask (.lifecycle message presence currentNick)).state.askers.lookup
      (nicknameKey nick) = none
  present : ∀ (currentNick : String) (presence : PresenceIndex) (order : KeyOrder)
    (nick text : String), .notice nick text ∈ p.sends mask (.tick currentNick presence order) →
    presence.shares nick none = true
  informed : ∀ rounds : List Round, (∀ round ∈ rounds, notifyInterval ≤ round.ms) →
    p.state.askers.entries.length ≤ rounds.length → ∀ key asker,
    (exec (PeerSession.call mask) p (rounds.flatMap Round.calls)).state.askers.lookup key =
      some asker → asker.known = p.state.share

/-- Everything is within its limits: what waits, what is out, whom we were asked by, and how many
were answered in any interval of ten seconds, and of each user in any minute. -/
structure Limited (p : PeerSession) : Prop where
  queue : p.state.queue.length ≤ maxQueuedProbes
  inFlight : p.state.inFlight.length ≤ maxProbesInFlight
  stages : p.state.stages.entries.length ≤ maxProbedUsers
  askers : p.state.askers.entries.length ≤ maxNotifiedUsers
  replies : p.state.replies.length ≤ maxRepliesPerWindow
  recipients : p.state.replied.entries.length ≤ maxReplyRecipients
  answers : Paced replyWindow maxRepliesPerWindow (p.answers.map Admitted.time)
  answersPerUser : ∀ key, Paced replyIntervalPerUser 1 (ofUser key p.answers)

theorem Kept.limited {p : PeerSession} (h : p.Kept) : p.Limited where
  queue := h.bounded.queue
  inFlight := h.bounded.inFlight
  stages := h.bounded.stages
  askers := h.notifies.askers
  replies := h.remembers.window
  recipients := h.remembers.recipients
  answers := h.remembers.paced
  answersPerUser := h.remembers.users

theorem Kept.upToDate {p : PeerSession} (h : p.Kept) : p.UpToDate mask where
  recorded := h.recorded
  dropped message presence currentNick actor nick hactor hlost := by
    change (p.state.lifecycle mask message presence currentNick).1.askers.lookup _ = none
    rcases p.state.lifecycle_cases mask message presence currentNick with
      ⟨-, new, -, hc, -⟩ | ⟨gone, hl, -, hdeparted⟩
    · rw [hc] at hlost
      exact hlost.elim
    · have hgone := MetadataState.departed_of_losesSight hlost
      rw [hl, foldl_forget_lookup, hdeparted actor hactor]
      exact if_pos (List.mem_map_of_mem hgone)
  present currentNick presence order nick text h := tick_notice h
  informed rounds hms hlen key asker ha := by
    obtain ⟨hshare, hcard⟩ := rounds_untold mask h hms
    have hle := p.state.card_untold_le
    have hnone := Finset.card_eq_zero.mp (Nat.le_zero.mp (hcard.trans (by omega)))
    exact (known_of_untold hnone ha).trans hshare

end PeerSession

/-! ## Two clients -/

/-- One of two clients, and what the other sent that is on its way. -/
structure Party where
  session : PeerSession
  /-- The folded nickname of the other client. -/
  peer : String
  inbox : List IrcCommand := []

/-- What happens to one of two clients. -/
inductive Move
  | call (c : PeerCall)
  /-- The oldest message of the other client arrives, with the source the server gives it. -/
  | deliver (nick user host currentNick : String) (presence : PresenceIndex)
  /-- The oldest message of the other client is lost. -/
  | lose

def Move.grants : Move → ℕ
  | .call (.setShare _) => 1
  | .call (.request ..) => 2
  | _ => 0

namespace Party

def call (mask : CaseMapping → String → String → String → String) (p : Party) (c : PeerCall) :
    Party × List IrcCommand :=
  ({ p with session := p.session.call mask c, peer := c.follow p.peer },
    (p.session.sends mask c).filter (reaches p.peer))

def act (mask : CaseMapping → String → String → String → String) (p : Party) :
    Move → Party × List IrcCommand
  | .call c => p.call mask c
  | .deliver nick user host currentNick presence =>
    match p.inbox with
    | [] => (p, [])
    | line :: rest =>
      call mask { p with inbox := rest }
        (.observe ⟨none, some (.nickname nick user host), line⟩ currentNick presence false)
  | .lose => ({ p with inbox := p.inbox.tail }, [])

/-- The other client stays in sight, and its queries come as it sent them. -/
def Allows (p : Party) : Move → Prop
  | .call (.observe message currentNick _ replayed) =>
    ∀ sender, querier message currentNick replayed = some sender → nicknameKey sender ≠ p.peer
  | .call c => c.Spares p.peer
  | .deliver nick .. => nicknameKey nick = p.peer
  | .lose => True

def isQuery : IrcCommand → Bool
  | .privmsg .. => true
  | _ => false

def credit (p : Party) : ℕ := p.session.state.credit p.peer + p.inbox.countP isQuery

theorem cost_eq (key : String) (lines : List IrcCommand) : cost key lines =
    (lines.filter (reaches key)).length + (lines.filter (reaches key)).countP isQuery := by
  have hasks : ∀ line, (isQuery line && reaches key line) = asks key line := by
    intro line
    cases line <;> rfl
  unfold cost
  rw [List.countP_eq_length_filter, List.countP_filter]
  simp only [hasks]

variable (mask) in
theorem call_spends {p : Party} (h : p.session.Kept) {c : PeerCall} (hc : c.Spares p.peer) :
    (p.call mask c).2.length + (p.call mask c).2.countP isQuery + (p.call mask c).1.credit ≤
      p.credit + c.grants p.peer := by
  have hspends := PeerAvatars.call_spends mask h.keyed h.bounded p.session.now hc
  rw [cost_eq] at hspends
  unfold credit call PeerSession.call PeerSession.sends
  dsimp only
  omega

theorem grants_deliver (source : Option Prefix) (line : IrcCommand) (currentNick : String)
    (presence : PresenceIndex) (key : String) :
    (PeerCall.observe ⟨none, source, line⟩ currentNick presence false).grants key ≤
      if isQuery line then 1 else 0 := by
  unfold PeerCall.grants
  dsimp only
  cases line with
  | privmsg target text =>
    change _ ≤ 1
    split_ifs
    · exact le_rfl
    · exact Nat.zero_le _
  | _ => exact Nat.zero_le _

theorem act_kept {p : Party} (h : p.session.Kept) (m : Move) : (p.act mask m).1.session.Kept := by
  cases m with
  | call c => exact h.call c
  | deliver nick user host currentNick presence =>
    unfold act
    dsimp only
    split
    · exact h
    · exact PeerSession.Kept.call h _
  | lose => exact h

variable (mask) in
theorem act_spends {p : Party} (h : p.session.Kept) {m : Move} (hm : p.Allows m) :
    (p.act mask m).2.length + (p.act mask m).2.countP isQuery + (p.act mask m).1.credit ≤
      p.credit + m.grants := by
  cases m with
  | call c =>
    have hspares : c.Spares p.peer := by
      cases c <;> first | exact hm | exact trivial
    have hgrants : c.grants p.peer ≤ (Move.call c).grants := by
      cases c with
      | observe message currentNick presence replayed =>
        unfold PeerCall.grants
        dsimp only
        cases hq : querier message currentNick replayed with
        | none => exact le_rfl
        | some sender =>
          rw [Option.any_some, if_neg (by simpa using hm sender hq)]
          exact Nat.zero_le _
      | _ => exact le_rfl
    exact (call_spends mask h hspares).trans (Nat.add_le_add_left hgrants _)
  | deliver nick user host currentNick presence =>
    unfold act
    dsimp only
    split
    · exact (Nat.zero_add _).le
    · rename_i line rest hinbox
      have hspends := call_spends mask (p := { p with inbox := rest }) h
        (c := .observe ⟨none, some (.nickname nick user host), line⟩ currentNick presence false)
        trivial
      have hgrants := grants_deliver (some (.nickname nick user host)) line currentNick presence
        p.peer
      have hcredit : p.credit = credit { p with inbox := rest } + if isQuery line then 1 else 0 := by
        unfold credit
        rw [hinbox, List.countP_cons]
        exact (Nat.add_assoc ..).symm
      rw [hcredit]
      refine hspends.trans ?_
      exact Nat.add_le_add_left hgrants _
  | lose =>
    have htail : p.inbox.tail.countP isQuery ≤ p.inbox.countP isQuery :=
      (List.tail_sublist _).countP_le
    unfold act credit
    dsimp only
    have hzero : ([] : List IrcCommand).countP isQuery = 0 := rfl
    rw [List.length_nil]
    omega

end Party

/-- Two clients, and how many avatar messages they sent each other. -/
structure Pair where
  left : Party
  right : Party
  exchanged : ℕ := 0

namespace Pair

def swap (pair : Pair) : Pair := ⟨pair.right, pair.left, pair.exchanged⟩

def move (mask : CaseMapping → String → String → String → String) (pair : Pair) (m : Move) : Pair :=
  let r := pair.left.act mask m
  { left := r.1
    right := { pair.right with inbox := pair.right.inbox ++ r.2 }
    exchanged := pair.exchanged + r.2.length }

def step (mask : CaseMapping → String → String → String → String) (pair : Pair)
    (i : Bool × Move) : Pair :=
  if i.1 then pair.move mask i.2 else (pair.swap.move mask i.2).swap

def Allows (pair : Pair) (i : Bool × Move) : Prop :=
  if i.1 then pair.left.Allows i.2 else pair.right.Allows i.2

def start (left right : PeerSession) (leftPeer rightPeer : String) : Pair where
  left := { session := left, peer := leftPeer }
  right := { session := right, peer := rightPeer }

def total (pair : Pair) : ℕ := pair.exchanged + pair.left.credit + pair.right.credit

theorem total_swap (pair : Pair) : pair.swap.total = pair.total := by
  unfold total swap
  dsimp only
  omega

theorem move_total {pair : Pair} (h : pair.left.session.Kept) {m : Move}
    (hm : pair.left.Allows m) : (pair.move mask m).total ≤ pair.total + m.grants := by
  have hspends := Party.act_spends mask h hm
  unfold total move
  dsimp only
  have hright : Party.credit { pair.right with
      inbox := pair.right.inbox ++ (pair.left.act mask m).2 } =
        pair.right.credit + (pair.left.act mask m).2.countP Party.isQuery := by
    unfold Party.credit
    rw [List.countP_append]
    exact (Nat.add_assoc ..).symm
  rw [hright]
  omega

def Kept (pair : Pair) : Prop := pair.left.session.Kept ∧ pair.right.session.Kept

theorem step_kept {pair : Pair} (h : pair.Kept) (i : Bool × Move) : (pair.step mask i).Kept := by
  unfold step
  split_ifs
  · exact ⟨Party.act_kept h.1 i.2, h.2⟩
  · exact ⟨h.1, Party.act_kept h.2 i.2⟩

variable (mask) in
theorem step_total {pair : Pair} (h : pair.Kept) {i : Bool × Move} (hi : pair.Allows i) :
    (pair.step mask i).total ≤ pair.total + i.2.grants := by
  unfold step
  unfold Allows at hi
  split_ifs at hi ⊢
  · exact move_total h.1 hi
  · rw [total_swap, ← total_swap pair]
    exact move_total h.2 hi

theorem run_total {pair : Pair} (h : pair.Kept) {moves : List (Bool × Move)}
    (hm : Along Allows (step mask) pair moves) :
    (exec (step mask) pair moves).total ≤ pair.total + (moves.map fun i => i.2.grants).sum := by
  induction moves generalizing pair with
  | nil => exact le_rfl
  | cons i moves ih =>
    have hstep := step_total mask h hm.1
    have hrest := ih (step_kept h i) hm.2
    rw [exec_cons, List.map_cons, List.sum_cons]
    omega

theorem start_total (utf8 utf8' : Bool) (share share' : Option String)
    (cache cache' : PeerAvatarCache) (leftPeer rightPeer : String) :
    (start (PeerSession.start utf8 share cache) (PeerSession.start utf8' share' cache')
      leftPeer rightPeer).total = 6 := rfl

end Pair

/-- Who asked for our avatar is taken to know what the last notice told them since they are to be
told of changes, and is told until they know what we share or leave; everything is within its
limits. Two clients that stay in sight of each other send each other six messages at most, and one
more for each change of what they share and two for each request of their users. -/
theorem avatar_sharing (mask : CaseMapping → String → String → String → String) :
    (∀ (utf8 : Bool) (share : Option String) (cache : PeerAvatarCache) (calls : List PeerCall),
      (PeerSession.after mask utf8 share cache calls).UpToDate mask ∧
        (PeerSession.after mask utf8 share cache calls).Limited) ∧
    ∀ (utf8 utf8' : Bool) (share share' : Option String) (cache cache' : PeerAvatarCache)
      (leftPeer rightPeer : String) (moves : List (Bool × Move)),
      Along Pair.Allows (Pair.step mask) (Pair.start (PeerSession.start utf8 share cache)
        (PeerSession.start utf8' share' cache') leftPeer rightPeer) moves →
      (exec (Pair.step mask) (Pair.start (PeerSession.start utf8 share cache)
        (PeerSession.start utf8' share' cache') leftPeer rightPeer) moves).exchanged ≤
          6 + (moves.map fun i => i.2.grants).sum := by
  constructor
  · intro utf8 share cache calls
    have hkept := PeerSession.kept_after mask utf8 share cache calls
    exact ⟨hkept.upToDate, hkept.limited⟩
  · intro utf8 utf8' share share' cache cache' leftPeer rightPeer moves hmoves
    have hkept : (Pair.start (PeerSession.start utf8 share cache)
        (PeerSession.start utf8' share' cache') leftPeer rightPeer).Kept :=
      ⟨PeerSession.kept_start .., PeerSession.kept_start ..⟩
    have htotal := Pair.run_total hkept hmoves
    rw [Pair.start_total] at htotal
    unfold Pair.total at htotal
    omega

def inChannel : PresenceIndex :=
  ({} : PresenceIndex).replaceChannel .ascending "#a" ["alice", "bob"]

def plainMask (_ : CaseMapping) (nick user host : String) : String :=
  nick ++ "!" ++ user ++ "@" ++ host

def KeyOrder.plain : KeyOrder := ⟨fun keys => keys, fun _ => .refl _⟩

def aliceAsks : List (Bool × Move) :=
  [(true, .call (.request "bob" "alice" inChannel)),
    (true, .call (.tick "alice" inChannel .plain)),
    (false, .deliver "alice" "u" "h" "bob" inChannel)]

theorem avatar_sharing_asked :
    (exec (Pair.step plainMask) (Pair.start (PeerSession.start true none {})
      (PeerSession.start true (some "https://b.example") {}) "bob" "alice") aliceAsks).exchanged = 2 ∧
    (exec (Pair.step plainMask) (Pair.start (PeerSession.start true none {})
      (PeerSession.start true (some "https://b.example") {}) "bob" "alice") aliceAsks).exchanged ≤
        6 + (aliceAsks.map fun i => i.2.grants).sum := by
  have hname : nicknameKey "alice" = "alice" := by decide +kernel
  exact ⟨by decide +kernel, (avatar_sharing plainMask).2 true true none (some "https://b.example")
    {} {} "bob" "alice" aliceAsks ⟨trivial, trivial, hname, trivial⟩⟩

def bobAsks : PeerCall :=
  .observe ⟨none, some (.nickname "bob" "u" "h"), .privmsg "alice" queryText⟩ "alice" inChannel false

/-- Bob is answered, leaves, comes back and asks again before another answer may be given: he is
taken to know nothing, though the last notice he got told him. A server that takes him out of the
channel leaves him an asker. -/
theorem asker_is_taken_to_know_nothing :
    (¬ ∀ (calls : List PeerCall) (key : String) (asker : Asker),
      (PeerSession.after plainMask true (some "https://a.example") {}
        calls).state.askers.lookup key = some asker →
      asker.known = (lastTold true key (collect (PeerSession.sends plainMask)
        (PeerSession.call plainMask) (PeerSession.start true (some "https://a.example") {})
        calls)).getD none) ∧
    ¬ ∀ (calls : List PeerCall) (message : IrcMessage) (presence : PresenceIndex)
      (channel nick : String), message.command = .kick channel nick none →
      presence.shares nick (some channel) = false →
      ((PeerSession.after plainMask true (some "https://a.example") {} calls).call plainMask
        (.lifecycle message presence "alice")).state.askers.lookup (nicknameKey nick) = none := by
  constructor
  · intro h
    have hbob := h [bobAsks, .lifecycle ⟨none, some (.nickname "bob" "u" "h"), .part "#a" none⟩
      inChannel "alice", bobAsks] "bob" { nickname := "bob" } (by decide +kernel)
    revert hbob
    decide +kernel
  · intro h
    have hbob := h [bobAsks] ⟨none, some (.serverName "irc.example"), .kick "#a" "bob" none⟩
      inChannel "#a" "bob" rfl (by decide +kernel)
    revert hbob
    decide +kernel

end CayenChat.Avatars
