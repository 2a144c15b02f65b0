import CayenChat.Accounts.Mirror
import CayenChat.Lib.Machine

/-! # Departures during a query

Who left the queried channel since the query was sent and is not back is noted
in the query, or nothing of its reply is used any more. The calls of a
connection keep this, and keep the copy made from the events.
-/

namespace CayenChat

open Accounts

namespace Accounts

def queried (a : Accounts) (channel : String) : Bool :=
  a.outstanding.any fun o => a.casemapping.same channel o.channel

end Accounts

namespace AccountCall

/-- Who leaves the queried channel, as a folded nickname; a nickname that is given up counts. -/
def leaves (a : Accounts) : AccountCall → Option String
  | .observe m _ _ =>
    match m.command, m.sourceNickname with
    | .part channel _, some nickname =>
      if a.queried channel then some (nicknameKey nickname) else none
    | .kick channel nickname _, _ => if a.queried channel then some (nicknameKey nickname) else none
    | .quit _, some nickname => some (nicknameKey nickname)
    | .nick _, some old => some (nicknameKey old)
    | _, _ => none
  | _ => none

/-- Who joins the queried channel, or takes a nickname. -/
def returns (a : Accounts) : AccountCall → Option String
  | .observe m _ _ =>
    match m.command, m.sourceNickname with
    | .join channel _ _, some nickname =>
      if a.queried channel then some (nicknameKey nickname) else none
    | .nick newNick, some _ => some (nicknameKey newNick)
    | _, _ => none
  | _ => none

def asks (a : Accounts) : AccountCall → Bool
  | .nextWho now => (a.nextWho now).2.isSome
  | _ => false

def remaps (a : Accounts) : AccountCall → Bool
  | .setCasemapping casemapping => a.casemapping ≠ casemapping
  | _ => false

end AccountCall

/-- The table with a copy made from its events, and with those who left the queried channel since
the query was sent and are not back. -/
structure AccountWatch where
  accounts : Accounts := {}
  copy : AccountCopy := .empty
  gone : Finset String := ∅

namespace AccountWatch

def step (w : AccountWatch) (i : UserOrder × AccountCall) : AccountWatch where
  accounts := (w.accounts.call i).1
  copy := if i.2.remaps w.accounts then .empty else w.copy.replay (w.accounts.call i).2
  gone :=
    if i.2.asks w.accounts then ∅
    else (w.gone ∪ (i.2.leaves w.accounts).toFinset) \ (i.2.returns w.accounts).toFinset

end AccountWatch

namespace Accounts

def Covers (a : Accounts) (gone : Finset String) : Prop :=
  ∀ o, a.outstanding = some o → o.departedOverflowed = true ∨ gone ⊆ o.departed

section Covering

variable {a a' : Accounts} {gone gone' : Finset String} {nickname channel : String}

theorem Covers.congr (h : Covers a gone) (ho : a'.outstanding = a.outstanding) : Covers a' gone := by
  unfold Covers
  rw [ho]
  exact h

theorem Covers.mono (h : Covers a gone) (hs : gone' ⊆ gone) : Covers a gone' := fun o ho =>
  (h o ho).imp_right hs.trans

theorem covers_of_none (h : a.outstanding = none) : Covers a gone := fun o ho => by
  rw [h] at ho
  cases ho

theorem departed_covers (h : Covers a gone) {channel : Option String} {s : Finset String}
    (hs : ∀ o, a.outstanding = some o → ∀ key ∈ s, key = nicknameKey nickname ∧
      (channel.all fun channel => a.casemapping.same channel o.channel) = true) :
    Covers (a.departed nickname channel) (gone ∪ s) := by
  unfold departed
  split
  · rename_i ho
    exact covers_of_none ho
  · rename_i o ho
    have hs := hs o ho
    dsimp only
    split_ifs with hc hk hb
    · intro o' ho'
      rw [ho, Option.some.injEq] at ho'
      subst ho'
      refine (h o ho).imp_right fun hg => Finset.union_subset hg fun key hkey => ?_
      rwa [(hs key hkey).1]
    · intro o' ho'
      cases ho'
      refine (h o ho).imp_right fun hg =>
        Finset.union_subset (hg.trans (Finset.subset_insert _ _)) fun key hkey => ?_
      rw [(hs key hkey).1]
      exact Finset.mem_insert_self _ _
    · intro o' ho'
      cases ho'
      exact .inl rfl
    · refine h.mono (Finset.union_subset (Finset.Subset.refl _) fun key hkey => ?_)
      exact absurd (hs key hkey).2 hc

theorem returned_covers (h : Covers a gone) {channel : Option String} {s : Finset String}
    (hs : ∀ o, a.outstanding = some o →
      (channel.all fun channel => a.casemapping.same channel o.channel) = true →
        nicknameKey nickname ∈ s) :
    Covers (a.returned nickname channel) (gone \ s) := by
  unfold returned
  split
  · rename_i ho
    exact covers_of_none ho
  · rename_i o ho
    split_ifs with hc
    · intro o' ho'
      cases ho'
      refine (h o ho).imp_right fun hg key hkey => ?_
      obtain ⟨hkg, hks⟩ := Finset.mem_sdiff.mp hkey
      refine Finset.mem_erase.mpr ⟨?_, hg hkg⟩
      rintro rfl
      exact hks (hs o ho hc)
    · exact h.mono Finset.sdiff_subset

theorem forget_outstanding (a : Accounts) (key : String) :
    (a.forget key).1.outstanding = a.outstanding := by
  unfold forget
  split <;> rfl

theorem learn_outstanding (a : Accounts) (nickname : String) (account : Option (Option String))
    (realname : Option String) (channels : List String) :
    (a.learn nickname account realname channels).1.outstanding = a.outstanding := by
  unfold learn
  dsimp only
  split_ifs
  · rfl
  · rfl
  · exact forget_outstanding _ _
  · rfl
  · rfl

theorem leave_outstanding (a : Accounts) (key channel : String) :
    (a.leave key channel).1.outstanding = a.outstanding := by
  unfold leave
  split
  · rfl
  · dsimp only
    split_ifs
    · exact forget_outstanding _ _
    · rfl

theorem leaveAll_outstanding (a : Accounts) (keys : List String) (channel : String) :
    (a.leaveAll keys channel).1.outstanding = a.outstanding := by
  unfold leaveAll
  induction keys using List.reverseRecOn with
  | nil => rfl
  | append_singleton keys key ih =>
    rw [List.foldl_concat]
    exact (leave_outstanding _ _ _).trans ih

theorem forgetChannel_covers (h : Covers a gone) (order : UserOrder) (key : String) :
    Covers (a.forgetChannel order channel).1
      (gone ∪ (if a.queried channel then some key else none).toFinset) := by
  unfold forgetChannel
  refine Covers.congr (a := { a with
    outstanding := a.outstanding.filter fun o => !a.casemapping.same o.channel channel }) ?_
    (leaveAll_outstanding _ _ _)
  cases ho : a.outstanding with
  | none => exact covers_of_none rfl
  | some o =>
    by_cases hc : a.casemapping.same o.channel channel = true
    · exact covers_of_none (by simp [hc])
    · have hq : a.queried channel = false := by
        rw [queried, ho, Option.any_some, CaseMapping.same_comm]
        exact Bool.eq_false_iff.mpr hc
      have hf : a.outstanding.filter (fun o => !a.casemapping.same o.channel channel) =
          a.outstanding := by simp [ho, hc]
      rw [hq, ← ho, hf]
      exact h.mono (by simp)

theorem observeJoin_covers (h : Covers a gone) (account realname : Option String) :
    Covers (a.observeJoin nickname channel account realname).1
      (gone \ (if a.queried channel then some (nicknameKey nickname) else none).toFinset) := by
  have ho : (a.observeJoin nickname channel account realname).1.outstanding =
      (a.returned nickname (some channel)).outstanding := by
    unfold observeJoin
    dsimp only
    split_ifs
    · exact learn_outstanding _ _ _ _ _
    · rfl
  refine Covers.congr (returned_covers h fun o ho hc => ?_) ho
  have hq : a.queried channel = true := by
    rw [queried, ho]
    exact hc
  simp [hq]

theorem observeLeave_covers (h : Covers a gone) (order : UserOrder) (currentNick : String) :
    Covers (a.observeLeave order currentNick nickname channel).1
      (gone ∪ (if a.queried channel then some (nicknameKey nickname) else none).toFinset) := by
  by_cases hs : sameNickname nickname currentNick = true
  · rw [observeLeave, if_pos hs]
    exact forgetChannel_covers h order _
  · rw [observeLeave, if_neg hs]
    refine Covers.congr (departed_covers h fun o ho key hkey => ?_) (leave_outstanding _ _ _)
    rw [queried, ho, Option.any_some] at hkey
    split_ifs at hkey with hc
    · exact ⟨by simpa using hkey, hc⟩
    · simp at hkey

theorem observeNick_covers (h : Covers a gone) (old newNick : String) :
    Covers (a.observeNick old newNick).1
      ((gone ∪ {nicknameKey old}) \ {nicknameKey newNick}) := by
  have hd : Covers (a.departed old none) (gone ∪ {nicknameKey old}) :=
    departed_covers h fun o _ key hkey => ⟨Finset.mem_singleton.mp hkey, rfl⟩
  have hr : Covers ((a.departed old none).returned newNick none)
      ((gone ∪ {nicknameKey old}) \ {nicknameKey newNick}) :=
    returned_covers hd fun o _ _ => Finset.mem_singleton_self _
  refine Covers.congr hr ?_
  unfold observeNick
  dsimp only
  split
  · exact forget_outstanding _ _
  · exact forget_outstanding _ _

theorem observe_covers (h : Covers a gone) (order : UserOrder) (m : IrcMessage)
    (currentNick : String) (presence : PresenceIndex) :
    Covers (a.observe order m currentNick presence).1
      ((gone ∪ ((AccountCall.observe m currentNick presence).leaves a).toFinset) \
        ((AccountCall.observe m currentNick presence).returns a).toFinset) := by
  simp only [observe, AccountCall.leaves, AccountCall.returns]
  generalize m.command = command, m.sourceNickname = source
  cases command <;> cases source <;>
    simp only [Option.toFinset_none, Option.toFinset_some, Finset.union_empty, Finset.sdiff_empty]
  case join.some => exact observeJoin_covers h _ _
  case part.some => exact observeLeave_covers h _ _
  case kick.none => exact observeLeave_covers h _ _
  case kick.some => exact observeLeave_covers h _ _
  case quit.some nickname =>
    refine Covers.congr (departed_covers h fun o _ key hkey => ?_) (forget_outstanding _ _)
    exact ⟨Finset.mem_singleton.mp hkey, rfl⟩
  case nick.some => exact observeNick_covers h _ _
  case account.some => exact h.congr (learn_outstanding _ _ _ _ _)
  all_goals exact h

theorem names_outstanding (a : Accounts) (order : UserOrder) (channel : String)
    (users : List String) : (a.names order channel users).1.outstanding = a.outstanding :=
  leaveAll_outstanding _ _ _

theorem joined_outstanding (a : Accounts) (channel : String) :
    (a.joined channel).outstanding = a.outstanding := by
  unfold joined
  dsimp only
  split_ifs <;> rfl

theorem nextWho_covers (h : Covers a gone) (now : ℕ) :
    Covers (a.nextWho now).1 (if (a.nextWho now).2.isSome then ∅ else gone) := by
  have hf : Covers { a with
      outstanding := a.outstanding.filter fun o => !(whoTimeout ≤ now - o.sent) } gone :=
    fun o ho => h o (Option.filter_eq_some_iff.mp ho).1
  unfold nextWho
  by_cases hs : (a.outstanding.filter fun o => !(whoTimeout ≤ now - o.sent)).isSome = true
  · rw [if_pos hs]
    exact hf
  · rw [if_neg hs]
    cases a.queue with
    | nil => exact hf
    | cons channel queue => exact fun o _ => .inr (Finset.empty_subset _)

theorem setCasemapping_covers (h : Covers a gone) (casemapping : CaseMapping) :
    Covers (a.setCasemapping casemapping) gone := by
  unfold setCasemapping
  split_ifs
  · exact covers_of_none rfl
  · exact h

theorem isupport_outstanding (a : Accounts) (m : IrcMessage) :
    (a.isupport m).outstanding = a.outstanding := by
  have htoken (a : Accounts) (token : String) :
      (a.isupportToken token).outstanding = a.outstanding := by
    unfold isupportToken
    dsimp only
    split_ifs <;> rfl
  unfold isupport
  split
  · rename_i args _
    induction (args.drop 1).flatMap splitWhitespace using List.reverseRecOn with
    | nil => rfl
    | append_singleton tokens token ih => rw [List.foldl_concat, htoken, ih]
  · rfl

theorem observeWho_covers (h : Covers a gone) (m : IrcMessage) :
    Covers ((a.observeWho m).getD (a, [])).1 gone := by
  unfold observeWho
  split
  · split_ifs
    · split
      · split_ifs
        · exact h
        · exact h.congr (learn_outstanding _ _ _ _ _)
        · exact h.congr (learn_outstanding _ _ _ _ _)
      · exact h
    · exact covers_of_none rfl
    · exact h
  · exact h

theorem Covers.ignored (h : Covers a gone) {m : IrcMessage} {args : List String} {nickname : String}
    {r : Accounts × List AccountEvent} (hm : numeric m = some (354, args))
    (hn : args[2]? = some nickname) (hg : nicknameKey nickname ∈ gone)
    (hr : a.observeWho m = some r) : r = (a, []) := by
  unfold observeWho at hr
  rw [hm] at hr
  cases ho : a.outstanding with
  | none =>
    rw [ho] at hr
    cases hr
  | some o =>
    have hc : o.departedOverflowed = true ∨ nicknameKey nickname ∈ o.departed :=
      (h o ho).imp_right fun hs => hs hg
    simp only [ho, hn, true_and, Nat.reduceEqDiff, false_and, if_false] at hr
    split_ifs at hr
    cases hv : args[3]? with
    | none =>
      rw [hv] at hr
      exact (Option.some.inj hr).symm
    | some account =>
      rw [hv] at hr
      dsimp only at hr
      rw [if_pos hc, Option.some.injEq] at hr
      exact hr.symm

end Covering

end Accounts

namespace AccountWatch

/-- The copy and the departures are right about the table. -/
structure Good (w : AccountWatch) : Prop where
  sound : w.accounts.Sound
  mirrors : Mirrors w.copy w.accounts
  covers : w.accounts.Covers w.gone

theorem good_initial : Good {} where
  sound := by
    constructor
    · intro key known hl
      cases hl
    · intro key known hl
      cases hl
    · intro key known hl
      cases hl
    · exact Nat.zero_le _
  mirrors _ _ := rfl
  covers := covers_of_none rfl

theorem setCasemapping_of_remaps {a : Accounts} {casemapping : CaseMapping}
    (h : (AccountCall.setCasemapping casemapping).remaps a = true) :
    (a.setCasemapping casemapping).users = ∅ := by
  rw [AccountCall.remaps, decide_eq_true_eq] at h
  rw [setCasemapping, if_pos h]

theorem call_tells {a : Accounts} (h : a.Sound) {i : UserOrder × AccountCall}
    (hr : i.2.remaps a = false) : Tells a (a.call i).1 (a.call i).2 := by
  obtain ⟨order, call⟩ := i
  cases call with
  | observe m currentNick presence => exact observe_tells h order m currentNick presence
  | observeWho m => exact observeWho_tells h m
  | names channel users => exact names_tells h order channel users
  | joined channel => exact tells_nothing h (joined_users channel)
  | nextWho now => exact tells_nothing h (nextWho_users now)
  | setCasemapping casemapping =>
    rw [AccountCall.remaps, decide_eq_false_iff_not] at hr
    refine tells_nothing h ?_
    change (a.setCasemapping casemapping).users = a.users
    rw [setCasemapping, if_neg hr]
  | isupport m => exact tells_nothing h (isupport_users m)

theorem covers_quiet {a : Accounts} {gone : Finset String} (h : a.Covers gone) :
    a.Covers ((gone ∪ (none : Option String).toFinset) \ (none : Option String).toFinset) := by
  simpa using h

theorem call_covers {a : Accounts} {gone : Finset String} (h : a.Covers gone)
    (i : UserOrder × AccountCall) :
    Covers (a.call i).1 (if i.2.asks a then ∅
      else (gone ∪ (i.2.leaves a).toFinset) \ (i.2.returns a).toFinset) := by
  obtain ⟨order, call⟩ := i
  cases call with
  | observe m currentNick presence => exact observe_covers h order m currentNick presence
  | nextWho now =>
    refine (nextWho_covers h now).mono ?_
    simp only [AccountCall.asks, AccountCall.leaves, AccountCall.returns, Option.toFinset_none,
      Finset.union_empty, Finset.sdiff_empty, subset_refl]
  | observeWho m => exact covers_quiet (observeWho_covers h m)
  | names channel users => exact covers_quiet (h.congr (names_outstanding a order channel users))
  | joined channel => exact covers_quiet (h.congr (joined_outstanding a channel))
  | setCasemapping casemapping => exact covers_quiet (setCasemapping_covers h casemapping)
  | isupport m => exact covers_quiet (h.congr (isupport_outstanding a m))

theorem Good.step {w : AccountWatch} (h : w.Good) (i : UserOrder × AccountCall) : (w.step i).Good := by
  unfold AccountWatch.step
  by_cases hr : i.2.remaps w.accounts = true
  · obtain ⟨order, call⟩ := i
    cases call with
    | setCasemapping casemapping =>
      have hu := setCasemapping_of_remaps hr
      refine ⟨good_initial.sound.congr hu, fun key _ => ?_, call_covers h.covers _⟩
      rw [if_pos hr]
      change none = shown (w.accounts.setCasemapping casemapping) key
      rw [shown, hu]
      rfl
    | _ => cases hr
  · have ht := call_tells h.sound (Bool.eq_false_iff.mpr hr)
    refine ⟨ht.sound, ?_, call_covers h.covers i⟩
    rw [if_neg hr]
    exact ht.mirrors w.copy h.mirrors

theorem good (is : List (UserOrder × AccountCall)) : (Machine.exec AccountWatch.step {} is).Good :=
  Machine.exec_invariant' Good (fun _ i h => h.step i) good_initial

end AccountWatch

section Examples

def said (nickname : String) (command : IrcCommand) : UserOrder × AccountCall :=
  (⟨AList.keys, fun _ => .refl _⟩,
    .observe { source := some (.nickname nickname "u" "h"), command } "me" {})

def plainly (call : AccountCall) : UserOrder × AccountCall :=
  (⟨AList.keys, fun _ => .refl _⟩, call)

def bobReply : IrcMessage :=
  { command := .raw "354" ["me", "1", "bob", "bob-acct", "Bob"] }

def bobLeaves : List (UserOrder × AccountCall) :=
  [plainly (.isupport { command := .response .rplIsupport ["me", "WHOX", "are supported"] }),
    plainly (.joined "#a"), plainly (.nextWho 0),
    said "alice" (.join "#a" (some "acct") (some "Alice")), said "bob" (.part "#a" none)]

def mirrored (is : List (UserOrder × AccountCall)) : Accounts × AccountCopy :=
  Machine.exec (fun m i => ((m.1.call i).1, m.2.replay (m.1.call i).2)) ({}, .empty) is

def mappingChanges : List (UserOrder × AccountCall) :=
  [said "alice" (.join "#a" (some "acct") (some "Alice")), plainly (.setCasemapping .ascii)]

def namelessLogsOut : List (UserOrder × AccountCall) :=
  [said "" (.join "#a" (some "acct") (some "")), said "" (.account "*")]

def daveTakesName : List (UserOrder × AccountCall) := bobLeaves ++ [said "dave" (.nick "bob")]

end Examples

end CayenChat
