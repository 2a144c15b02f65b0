import Mathlib
import CayenChat.Lib.Map
import CayenChat.Wire.Message
import CayenChat.Wire.Names

/-! # The index of who is present

Who is present in which joined channel, indexed both ways. A NAMES snapshot
replaces the membership of a channel; the lines that name a user carry the
identity of the user across snapshots.
-/

namespace CayenChat

abbrev UserId := ℕ

/-- One user's presence on the connection. -/
structure Presence where
  key : String
  nick : String
  channels : List String
  deriving DecidableEq, Repr

/-- The users in a channel, with the channel as its last snapshot spelled it. -/
structure Members where
  key : String := ""
  name : String := ""
  users : Finset UserId := ∅
  deriving DecidableEq

structure PresenceIndex where
  next : ℕ := 0
  byNick : Map String UserId := ∅
  users : Map UserId Presence := ∅
  channels : Map String Members := ∅
  casemapping : CaseMapping := .rfc1459

/-- The order in which one call goes through its hash sets and hash maps. -/
structure Iteration where
  ids : Finset UserId → List UserId
  mem_ids : ∀ {s id}, id ∈ ids s ↔ id ∈ s
  channels : List Members → List Members
  channels_perm : ∀ l, (channels l).Perm l

def ascending (s : Finset UserId) : List UserId :=
  (List.range (s.sup (fun n => n) + 1)).filter (decide <| · ∈ s)

theorem mem_ascending {s : Finset UserId} {id : UserId} : id ∈ ascending s ↔ id ∈ s := by
  simp only [ascending, List.mem_filter, List.mem_range, decide_eq_true_eq, and_iff_right_iff_imp]
  exact fun h => Nat.lt_succ_of_le (Finset.le_sup (f := fun n => n) h)

def Iteration.ascending : Iteration where
  ids := CayenChat.ascending
  mem_ids := mem_ascending
  channels l := l
  channels_perm _ := List.Perm.refl _

namespace Presence

def spell (nickname : String) (presence : Presence) : Presence :=
  if presence.nick = nickname then presence else { presence with nick := nickname }

def enter (key : String) (presence : Presence) : Presence :=
  if presence.channels.contains key then presence
  else { presence with channels := presence.channels ++ [key] }

/-- One more channel under its new name, unless it is held under it already. -/
def keep (moved : Map String String) (kept : List String) (old : String) : List String :=
  match moved.lookup old with
  | some new => if kept.contains new then kept else kept ++ [new]
  | none => kept

def rekey (moved : Map String String) (presence : Presence) : Presence :=
  { presence with channels := presence.channels.foldl (keep moved) [] }

end Presence

namespace PresenceIndex

def channelKey (p : PresenceIndex) (channel : String) : String := p.casemapping.fold channel

/-- One channel under its new key: the channels renamed so far and those held from now on. -/
def regroup (casemapping : CaseMapping) (acc : Map String String × Map String Members)
    (members : Members) : Map String String × Map String Members :=
  let key := casemapping.fold members.name
  let held := (acc.2.lookup key).getD {}
  let merged := if held.key = "" then { held with key := key, name := members.name } else held
  (acc.1.insert members.key merged.key,
    acc.2.insert key { merged with users := merged.users ∪ members.users })

/-- Channel names are compared under another mapping from now on. -/
def setCasemapping (p : PresenceIndex) (order : Iteration) (casemapping : CaseMapping) :
    PresenceIndex :=
  if p.casemapping = casemapping then p
  else
    let (moved, channels) := (order.channels (Map.values p.channels)).foldl
      (regroup casemapping) (∅, ∅)
    { p with
      casemapping := casemapping
      channels := channels
      users := Map.mapValues (Presence.rekey moved) p.users }

def user (p : PresenceIndex) (nickname : String) : Option UserId :=
  p.byNick.lookup (nicknameKey nickname)

def presenceOf (p : PresenceIndex) (nickname : String) : Option Presence :=
  (p.user nickname).bind fun id => p.users.lookup id

def inChannel (p : PresenceIndex) (channel nickname : String) : Bool :=
  (p.user nickname).any fun id =>
    (p.channels.lookup (p.channelKey channel)).any fun members => decide (id ∈ members.users)

def channelKeysOf (p : PresenceIndex) (nickname : String) : List String :=
  (p.presenceOf nickname).elim [] Presence.channels

def onlyIn (p : PresenceIndex) (channel : String) : List String :=
  let users := (p.channels.lookup (p.channelKey channel)).elim ∅ Members.users
  let only := ((ascending users).filterMap fun id => p.users.lookup id).filter fun presence =>
    presence.channels.length == 1
  (only.map Presence.nick).insertionSort (· ≤ ·)

def shares (p : PresenceIndex) (nickname : String) (except : Option String) : Bool :=
  let except := except.map p.channelKey
  (p.presenceOf nickname).any fun presence =>
    presence.channels.any fun channel => some channel != except

/-- The nicknames we no longer share a channel with after a line; asked before the index follows
the line. -/
def departed (p : PresenceIndex) (message : IrcMessage) (actor : String) (ours : String → Bool) :
    List String :=
  let gone (channel leaving : String) :=
    if ours leaving then (p.onlyIn channel).filter (!ours ·)
    else if p.shares leaving (some channel) then []
    else [leaving]
  match message.command with
  | .quit _ => if ours actor then [] else [actor]
  | .part channel _ => gone channel actor
  | .kick channel nickname _ => gone channel nickname
  | _ => []

/-- A user is gone from the network. -/
def forget (p : PresenceIndex) (id : UserId) : PresenceIndex :=
  match p.users.lookup id with
  | some presence =>
    { p with
      users := p.users.erase id
      byNick := p.byNick.erase presence.key
      channels := presence.channels.foldl (fun channels channel =>
        Map.adjust channels channel fun members =>
          { members with users := members.users.erase id }) p.channels }
  | none => p

/-- A user is not in a channel any more, and gone when it was the last one. -/
def leave (p : PresenceIndex) (id : UserId) (channelKey : String) : PresenceIndex :=
  match p.users.lookup id with
  | some presence =>
    let channels := presence.channels.filter (· != channelKey)
    let p := { p with users := p.users.insert id { presence with channels := channels } }
    if channels.isEmpty then p.forget id else p
  | none => p

/-- One entry of a snapshot: the index that knows its user, and the users present so far. -/
def enlist (acc : PresenceIndex × Finset UserId) (member : String) :
    PresenceIndex × Finset UserId :=
  let (p, present) := acc
  let nickname := trimStartMatches ['~', '&', '@', '%', '+'] member
  if nickname = "" then acc
  else
    let key := nicknameKey nickname
    match p.byNick.lookup key with
    | some id =>
      ({ p with users := Map.adjust p.users id (Presence.spell nickname) }, insert id present)
    | none =>
      ({ p with
          next := p.next + 1
          byNick := p.byNick.insert key p.next
          users := p.users.insert p.next { key := key, nick := nickname, channels := [] } },
        insert p.next present)

/-- A snapshot replaces the membership of a channel; known users keep their number. -/
def replaceChannel (p : PresenceIndex) (order : Iteration) (channel : String)
    (members : List String) : PresenceIndex :=
  let channelKey := p.channelKey channel
  let (p, present) := members.foldl enlist (p, ∅)
  let entry := (p.channels.lookup channelKey).getD {}
  let key := if entry.key = "" then channelKey else entry.key
  let users := (order.ids present).foldl (fun users id =>
    Map.adjust users id (Presence.enter key)) p.users
  let channels := p.channels.insert channelKey { key := key, name := channel, users := present }
  (order.ids (entry.users \ present)).foldl (fun p id => p.leave id channelKey)
    { p with users := users, channels := channels }

/-- We left a channel: it is forgotten, with everybody only there. -/
def removeChannel (p : PresenceIndex) (order : Iteration) (channel : String) : PresenceIndex :=
  let channelKey := p.channelKey channel
  match p.channels.lookup channelKey with
  | some members =>
    (order.ids members.users).foldl (fun p id => p.leave id channelKey)
      { p with channels := p.channels.erase channelKey }
  | none => p

/-- A presence goes by another nickname. -/
def rename (p : PresenceIndex) (old new : String) : PresenceIndex :=
  match p.byNick.lookup (nicknameKey old) with
  | none => p
  | some id =>
    let p := { p with byNick := p.byNick.erase (nicknameKey old) }
    let key := nicknameKey new
    let stale := p.byNick.lookup key
    let p := { p with byNick := p.byNick.erase key }
    let p := match stale with
      | some stale => if stale ≠ id then p.forget stale else p
      | none => p
    { p with
      byNick := p.byNick.insert key id
      users := Map.adjust p.users id fun presence => { presence with key := key, nick := new } }

def quit (p : PresenceIndex) (nickname : String) : PresenceIndex :=
  match p.user nickname with
  | some id => p.forget id
  | none => p

/-- Whether both directions agree and nothing is orphaned. -/
def consistent (p : PresenceIndex) : Bool :=
  (p.users.entries.all fun ⟨id, presence⟩ =>
    !presence.channels.isEmpty && p.byNick.lookup presence.key == some id &&
      presence.channels.all fun channel =>
        (p.channels.lookup channel).any fun members => decide (id ∈ members.users)) &&
  p.byNick.entries.length == p.users.entries.length &&
  (p.channels.entries.all fun ⟨_, members⟩ =>
    decide (∀ id ∈ members.users, ((p.users.lookup id).any fun presence =>
      presence.channels.any (· == p.channelKey members.name)) = true))

end PresenceIndex

/-- The calls that change the index. -/
inductive PresenceCall
  | setCasemapping (casemapping : CaseMapping)
  | replaceChannel (channel : String) (members : List String)
  | removeChannel (channel : String)
  | rename (old new : String)
  | quit (nickname : String)
  deriving DecidableEq, Repr

/-- The index after a call. -/
def PresenceIndex.step (p : PresenceIndex) (i : Iteration × PresenceCall) : PresenceIndex :=
  match i.2 with
  | .setCasemapping casemapping => p.setCasemapping i.1 casemapping
  | .replaceChannel channel members => p.replaceChannel i.1 channel members
  | .removeChannel channel => p.removeChannel i.1 channel
  | .rename old new => p.rename old new
  | .quit nickname => p.quit nickname

end CayenChat
