import CayenChat.Accounts.Table

/-! # A copy of the table made from its events

The events of a call take a copy of the table to a copy of what it is after the
call. Every user held has something known and a channel shared with us.
-/

namespace CayenChat

abbrev AccountCopy := String → Option (Option String × Option String)

namespace AccountCopy

def apply (copy : AccountCopy) : AccountEvent → AccountCopy
  | .userAccount nickname account realname =>
    Function.update copy (nicknameKey nickname) (some (account, realname))
  | .userAccountForgotten nickname => Function.update copy (nicknameKey nickname) none

def replay (copy : AccountCopy) (events : List AccountEvent) : AccountCopy :=
  events.foldl apply copy

def empty : AccountCopy := fun _ => none

@[simp] theorem replay_nil (copy : AccountCopy) : copy.replay [] = copy := rfl

@[simp] theorem replay_append (copy : AccountCopy) (events more : List AccountEvent) :
    copy.replay (events ++ more) = (copy.replay events).replay more :=
  List.foldl_append ..

end AccountCopy

namespace Accounts

def shown (a : Accounts) : AccountCopy := fun key =>
  (a.users.lookup key).map fun known => (known.account, known.realname)

/-- The table holds what is worth holding, within its bound. -/
structure Sound (a : Accounts) : Prop where
  spelled : ∀ key known, a.users.lookup key = some known → nicknameKey known.nickname = key
  known : ∀ key known, a.users.lookup key = some known →
    known.account.isSome = true ∨ known.realname.isSome = true
  shared : ∀ key known, a.users.lookup key = some known → known.channels.Nonempty
  bounded : a.users.entries.length ≤ maxUsers

def Mirrors (copy : AccountCopy) (a : Accounts) : Prop := ∀ key ≠ "", copy key = a.shown key

/-- The events tell a copy what became of the table. -/
structure Tells (a a' : Accounts) (events : List AccountEvent) : Prop where
  sound : a'.Sound
  mirrors : ∀ copy, Mirrors copy a → Mirrors (copy.replay events) a'

section Telling

variable {a a' a'' : Accounts} {events more : List AccountEvent} {key nickname channel : String}
  {known known' : Known} {order : UserOrder}

theorem Tells.trans (h : Tells a a' events) (h' : Tells a' a'' more) :
    Tells a a'' (events ++ more) where
  sound := h'.sound
  mirrors copy hc := by
    rw [AccountCopy.replay_append]
    exact h'.mirrors _ (h.mirrors copy hc)

theorem Sound.congr (h : a.Sound) (hu : a'.users = a.users) : a'.Sound := by
  constructor <;> rw [hu]
  · exact h.spelled
  · exact h.known
  · exact h.shared
  · exact h.bounded

theorem tells_nothing (h : a.Sound) (hu : a'.users = a.users) : Tells a a' [] where
  sound := h.congr hu
  mirrors copy hc key hk := by
    rw [AccountCopy.replay_nil, hc key hk, shown, shown, hu]

theorem Sound.erase (h : a.Sound) (key : String) :
    Sound { a with users := a.users.erase key } where
  spelled k known hl := by
    rw [Map.lookup_erase] at hl
    split_ifs at hl
    exact h.spelled k known hl
  known k known hl := by
    rw [Map.lookup_erase] at hl
    split_ifs at hl
    exact h.known k known hl
  shared k known hl := by
    rw [Map.lookup_erase] at hl
    split_ifs at hl
    exact h.shared k known hl
  bounded := Map.length_erase_le.trans h.bounded

theorem shown_erase (a : Accounts) (key : String) :
    shown { a with users := a.users.erase key } = Function.update a.shown key none := by
  funext k
  rw [shown, Map.lookup_erase, Function.update_apply]
  split_ifs <;> rfl

theorem shown_insert (a : Accounts) (key : String) (known : Known) :
    shown { a with users := a.users.insert key known } =
      Function.update a.shown key (some (known.account, known.realname)) := by
  funext k
  rw [shown, Map.lookup_insert, Function.update_apply]
  split_ifs <;> rfl

theorem Mirrors.update {copy : AccountCopy} (h : Mirrors copy a)
    {value : Option (Option String × Option String)}
    (hs : a'.shown = Function.update a.shown key value) :
    Mirrors (Function.update copy key value) a' := by
  intro k hk
  rw [hs, Function.update_apply, Function.update_apply]
  split_ifs
  · rfl
  · exact h k hk

theorem Tells.erase (h : a.Sound) (hn : nicknameKey nickname = key) :
    Tells a { a with users := a.users.erase key } [.userAccountForgotten nickname] where
  sound := h.erase key
  mirrors copy hc := by
    rw [AccountCopy.replay, List.foldl_cons, List.foldl_nil, AccountCopy.apply, hn]
    exact hc.update (shown_erase a key)

theorem Sound.insert (h : a.Sound) (hn : nicknameKey known.nickname = key)
    (hk : known.account.isSome = true ∨ known.realname.isSome = true)
    (hc : known.channels.Nonempty)
    (hb : (a.users.insert key known).entries.length ≤ maxUsers) :
    Sound { a with users := a.users.insert key known } where
  spelled k v hl := by
    rw [Map.lookup_insert] at hl
    split_ifs at hl with he
    · cases hl
      rw [hn, he]
    · exact h.spelled k v hl
  known k v hl := by
    rw [Map.lookup_insert] at hl
    split_ifs at hl with he
    · cases hl
      exact hk
    · exact h.known k v hl
  shared k v hl := by
    rw [Map.lookup_insert] at hl
    split_ifs at hl with he
    · cases hl
      exact hc
    · exact h.shared k v hl
  bounded := hb

theorem Tells.insert (h : Sound { a with users := a.users.insert key known })
    (hn : nicknameKey known.nickname = key) :
    Tells a { a with users := a.users.insert key known } [report known] where
  sound := h
  mirrors copy hc := by
    rw [AccountCopy.replay, List.foldl_cons, List.foldl_nil, report, AccountCopy.apply, hn]
    exact hc.update (shown_insert a key known)

theorem Tells.same (h : Sound { a with users := a.users.insert key known })
    (hs : a.shown key = some (known.account, known.realname)) :
    Tells a { a with users := a.users.insert key known } [] where
  sound := h
  mirrors copy hc := by
    rw [AccountCopy.replay_nil]
    intro k hk
    rw [shown_insert, ← hs, Function.update_eq_self]
    exact hc k hk

theorem forget_tells (h : a.Sound) (key : String) :
    Tells a (a.forget key).1 (a.forget key).2 := by
  unfold forget
  split
  · rename_i known hl
    exact .erase h (h.spelled key known hl)
  · exact tells_nothing h rfl

theorem erase_insert (m : Map String Known) (key : String) (known : Known) :
    (m.insert key known).erase key = m.erase key := by
  apply AList.ext
  change List.kerase key (m.insert key known).entries = _
  rw [AList.entries_insert]
  exact List.kerase_cons_eq rfl

theorem forget_entered_tells (h : a.Sound) (hn : nicknameKey known.nickname = key) :
    Tells a (forget { a with users := a.users.insert key known } key).1
      (forget { a with users := a.users.insert key known } key).2 := by
  simp only [forget, AList.lookup_insert, erase_insert]
  exact .erase h hn

theorem leave_tells (h : a.Sound) (key channel : String) :
    Tells a (a.leave key channel).1 (a.leave key channel).2 := by
  unfold leave
  split
  · exact tells_nothing h rfl
  · rename_i known hl
    have hn := h.spelled key known hl
    dsimp only
    split_ifs with hc
    · exact forget_entered_tells h hn
    · refine .same (h.insert hn (h.known key known hl) (Finset.nonempty_iff_ne_empty.mpr hc) ?_) ?_
      · rw [Map.length_insert_of_lookup hl]
        exact h.bounded
      · rw [shown, hl]
        rfl

theorem leaveAll_tells (h : a.Sound) (keys : List String) (channel : String) :
    Tells a (a.leaveAll keys channel).1 (a.leaveAll keys channel).2 := by
  unfold leaveAll
  induction keys using List.reverseRecOn with
  | nil => exact tells_nothing h rfl
  | append_singleton keys key ih =>
    rw [List.foldl_concat]
    exact ih.trans (leave_tells ih.sound key channel)

theorem learned_sound (h : a.Sound) {account : Option (Option String)} {realname : Option String}
    {channels : List String} (hn : nicknameKey known.nickname = key)
    (hw : ¬((a.users.lookup key).isNone && !a.worthKeeping account realname channels) = true)
    (hk : ¬(known.account = none ∧ known.realname = none))
    (hc : known.channels = ((a.users.lookup key).getD {}).channels ∪ channels.toFinset) :
    Sound { a with users := a.users.insert key known } := by
  have hk : known.account.isSome = true ∨ known.realname.isSome = true := by
    by_contra hno
    rw [not_or, Option.not_isSome_iff_eq_none, Option.not_isSome_iff_eq_none] at hno
    exact hk hno
  cases hl : a.users.lookup key with
  | none =>
    simp only [hl, Option.isNone_none, Bool.true_and, Bool.not_eq_true', Bool.not_eq_false,
      worthKeeping, Bool.and_eq_true, decide_eq_true_eq] at hw
    refine h.insert hn hk ?_ (Map.length_insert_le.trans hw.1.2)
    rw [hc]
    exact (List.toFinset_nonempty_iff _).mpr hw.1.1 |>.mono Finset.subset_union_right
  | some before =>
    refine h.insert hn hk ?_ ?_
    · rw [hc, hl]
      exact (h.shared key before hl).mono Finset.subset_union_left
    · rw [Map.length_insert_of_lookup hl]
      exact h.bounded

theorem learn_tells (h : a.Sound) (nickname : String) (account : Option (Option String))
    (realname : Option String) (channels : List String) :
    Tells a (a.learn nickname account realname channels).1
      (a.learn nickname account realname channels).2 := by
  unfold learn
  dsimp only
  split_ifs with hw hnone hfresh htold
  · exact tells_nothing h rfl
  · -- only the empty nickname is forgotten without an event
    refine ⟨h.erase _, fun copy hc k hk => ?_⟩
    rw [AccountCopy.replay_nil, hc k hk, shown_erase, Function.update_apply]
    split_ifs with he
    · cases hl : a.users.lookup (nicknameKey nickname) with
      | none => rw [he, shown, hl]; rfl
      | some before =>
        have hs := h.spelled _ before hl
        rw [hl, Option.getD_some, beq_iff_eq] at hfresh
        rw [hfresh] at hs
        exact absurd (he.trans hs.symm) hk
    · rfl
  · exact forget_entered_tells h rfl
  · exact .insert (learned_sound h rfl hw hnone rfl) rfl
  · refine .same (learned_sound h rfl hw hnone rfl) ?_
    simp only [Bool.or_eq_true, beq_iff_eq, decide_eq_true_eq, not_or, not_not] at htold
    obtain ⟨hfresh, hsame⟩ := htold
    cases hl : a.users.lookup (nicknameKey nickname) with
    | none =>
      rw [hl] at hfresh
      exact absurd rfl hfresh
    | some before =>
      rw [hl] at hsame
      rw [shown, hl, Option.map_some]
      exact congrArg some hsame

@[simp] theorem departed_users (nickname : String) (channel : Option String) :
    (a.departed nickname channel).users = a.users := by
  unfold departed
  split
  · rfl
  · dsimp only
    split_ifs <;> rfl

@[simp] theorem returned_users (nickname : String) (channel : Option String) :
    (a.returned nickname channel).users = a.users := by
  unfold returned
  split
  · rfl
  · split_ifs <;> rfl

theorem forgetChannel_tells (h : a.Sound) (order : UserOrder) (channel : String) :
    Tells a (a.forgetChannel order channel).1 (a.forgetChannel order channel).2 := by
  have h' : Tells a { a with
      queue := a.queue.filter fun queued => !a.casemapping.same queued channel
      outstanding := a.outstanding.filter fun o => !a.casemapping.same o.channel channel } [] :=
    tells_nothing h rfl
  exact h'.trans (leaveAll_tells h'.sound _ _)

theorem Sound.adjust (h : a.Sound) (key channel : String) :
    Sound { a with users := Map.adjust a.users key fun known =>
      { known with channels := Insert.insert channel known.channels } } ∧
    shown { a with users := Map.adjust a.users key fun known =>
      { known with channels := Insert.insert channel known.channels } } = a.shown := by
  unfold Map.adjust
  cases hl : a.users.lookup key with
  | none => exact ⟨h, rfl⟩
  | some known =>
    constructor
    · refine h.insert (h.spelled key known hl) (h.known key known hl)
        (Finset.insert_nonempty channel known.channels) ?_
      rw [Map.length_insert_of_lookup hl]
      exact h.bounded
    · rw [shown_insert]
      refine Function.update_eq_self_iff.mpr ?_
      rw [shown, hl]
      rfl

theorem observeJoin_tells (h : a.Sound) (nickname channel : String)
    (account realname : Option String) :
    Tells a (a.observeJoin nickname channel account realname).1
      (a.observeJoin nickname channel account realname).2 := by
  have h' := tells_nothing h (returned_users nickname (some channel))
  unfold observeJoin
  dsimp only
  split_ifs
  · exact h'.trans (learn_tells h'.sound _ _ _ _)
  · have ha := h'.sound.adjust (nicknameKey nickname)
      ((a.returned nickname (some channel)).channelKey channel)
    refine ⟨ha.1, fun copy hc k hk => ?_⟩
    rw [ha.2]
    exact h'.mirrors copy hc k hk

theorem observeLeave_tells (h : a.Sound) (order : UserOrder)
    (currentNick nickname channel : String) :
    Tells a (a.observeLeave order currentNick nickname channel).1
      (a.observeLeave order currentNick nickname channel).2 := by
  unfold observeLeave
  split_ifs
  · exact forgetChannel_tells h order channel
  · have h' := tells_nothing h (departed_users nickname (some channel))
    exact h'.trans (leave_tells h'.sound _ _)

theorem forget_lookup (a : Accounts) (key k : String) :
    (a.forget key).1.users.lookup k = if k = key then none else a.users.lookup k := by
  unfold forget
  split
  · exact Map.lookup_erase
  · rename_i hl
    split_ifs with hk
    · rw [hk, hl]
    · rfl

theorem replay_forget (h : a.Sound) {k : String} (hk : k ≠ key) (copy : AccountCopy) :
    copy.replay (a.forget key).2 k = copy k := by
  unfold forget
  split
  · rename_i known hl
    rw [AccountCopy.replay, List.foldl_cons, List.foldl_nil, AccountCopy.apply,
      h.spelled key known hl, Function.update_of_ne hk]
  · rfl

theorem moved_tells (h : a.Sound) (hl : a.users.lookup key = some known) (newNick : String) :
    let r := forget { a with users := a.users.erase key } (nicknameKey newNick)
    Tells a { r.1 with users :=
        r.1.users.insert (nicknameKey newNick) { known with nickname := newNick } }
      (r.2 ++ [.userAccountForgotten known.nickname, report { known with nickname := newNick }]) := by
  intro r
  have he := h.erase key
  have hr := forget_tells he (nicknameKey newNick)
  constructor
  · refine hr.sound.insert rfl (h.known key known hl) (h.shared key known hl) ?_
    have hlen : r.1.users.entries.length ≤ (a.users.erase key).entries.length := by
      change (forget _ _).1.users.entries.length ≤ _
      unfold forget
      split
      · exact Map.length_erase_le
      · exact le_rfl
    have hb := h.bounded
    have hd := Map.length_erase_of_lookup hl
    have hi := Map.length_insert_le (m := r.1.users) (a := nicknameKey newNick)
      (v := { known with nickname := newNick })
    exact hi.trans (by omega)
  · intro copy hc k hk
    rw [AccountCopy.replay_append, AccountCopy.replay, List.foldl_cons, List.foldl_cons,
      List.foldl_nil, report, AccountCopy.apply, AccountCopy.apply, shown_insert,
      Function.update_apply, Function.update_apply, Function.update_apply, h.spelled key known hl]
    split_ifs with hnew hold
    · rfl
    · rw [shown, forget_lookup, if_neg hnew, Map.lookup_erase, if_pos hold]
      rfl
    · rw [replay_forget he hnew, shown, forget_lookup, if_neg hnew, Map.lookup_erase, if_neg hold,
        hc k hk]
      rfl

theorem observeNick_tells (h : a.Sound) (old newNick : String) :
    Tells a (a.observeNick old newNick).1 (a.observeNick old newNick).2 := by
  have hu : ((a.departed old none).returned newNick none).users = a.users := by
    rw [returned_users, departed_users]
  have h' := tells_nothing h hu
  unfold observeNick
  generalize (a.departed old none).returned newNick none = a' at h' ⊢
  dsimp only
  split
  · rename_i hl
    -- erasing a name nobody has changes nothing
    have he : Tells a' { a' with users := a'.users.erase (nicknameKey old) } [] := by
      refine ⟨h'.sound.erase _, fun copy hc k hk => ?_⟩
      rw [AccountCopy.replay_nil, hc k hk, shown_erase, Function.update_apply]
      split_ifs with hk'
      · rw [hk', shown, hl]
        rfl
      · rfl
    exact h'.trans (he.trans (forget_tells he.sound _))
  · rename_i known hl
    exact h'.trans (moved_tells h'.sound hl newNick)

theorem observe_tells (h : a.Sound) (order : UserOrder) (m : IrcMessage) (currentNick : String)
    (presence : PresenceIndex) :
    Tells a (a.observe order m currentNick presence).1
      (a.observe order m currentNick presence).2 := by
  unfold observe
  split
  · exact observeJoin_tells h _ _ _ _
  · exact observeLeave_tells h _ _ _ _
  · exact observeLeave_tells h _ _ _ _
  · rename_i nickname _ _
    have h' := tells_nothing h (departed_users nickname none)
    exact h'.trans (forget_tells h'.sound _)
  · exact observeNick_tells h _ _
  · exact learn_tells h _ _ _ _
  · exact tells_nothing h rfl

theorem Sound.adjustAll (h : a.Sound) (keys : List String) (channel : String) :
    Sound { a with users := keys.foldl (fun m key => Map.adjust m key fun known =>
      { known with channels := Insert.insert channel known.channels }) a.users } ∧
    shown { a with users := keys.foldl (fun m key => Map.adjust m key fun known =>
      { known with channels := Insert.insert channel known.channels }) a.users } = a.shown := by
  induction keys using List.reverseRecOn with
  | nil => exact ⟨h, rfl⟩
  | append_singleton keys key ih =>
    rw [List.foldl_concat]
    have ha := ih.1.adjust key channel
    exact ⟨ha.1, ha.2.trans ih.2⟩

theorem names_tells (h : a.Sound) (order : UserOrder) (channel : String) (users : List String) :
    Tells a (a.names order channel users).1 (a.names order channel users).2 := by
  have ha := h.adjustAll ((order.keys a.users).filter
    (users.map fun user => nicknameKey (displayNickname user)).contains) (a.channelKey channel)
  have h' : Tells a _ [] := ⟨ha.1, fun copy hc k hk => by
    rw [AccountCopy.replay_nil, ha.2]
    exact hc k hk⟩
  exact h'.trans (leaveAll_tells ha.1 _ _)

theorem joined_users (channel : String) : (a.joined channel).users = a.users := by
  unfold joined
  dsimp only
  split_ifs <;> rfl

theorem nextWho_users (now : ℕ) : (a.nextWho now).1.users = a.users := by
  unfold nextWho
  dsimp only
  split_ifs
  · rfl
  · split <;> rfl

theorem isupport_users (m : IrcMessage) : (a.isupport m).users = a.users := by
  have htoken (a : Accounts) (token : String) : (a.isupportToken token).users = a.users := by
    unfold isupportToken
    dsimp only
    split_ifs <;> rfl
  unfold isupport
  split
  · rename_i args _
    induction (args.drop 1).flatMap splitWhitespace using List.reverseRecOn with
    | nil => rfl
    | append_singleton tokens token ih => rw [List.foldl_concat, htoken, ih]
  · rfl

theorem observeWho_tells (h : a.Sound) (m : IrcMessage) :
    Tells a ((a.observeWho m).getD (a, [])).1 ((a.observeWho m).getD (a, [])).2 := by
  unfold observeWho
  split
  · split_ifs
    · split
      · split_ifs
        · exact tells_nothing h rfl
        · exact learn_tells h _ _ _ _
        · exact learn_tells h _ _ _ _
      · exact tells_nothing h rfl
    · exact tells_nothing h rfl
    · exact tells_nothing h rfl
  · exact tells_nothing h rfl

end Telling

end Accounts

end CayenChat
