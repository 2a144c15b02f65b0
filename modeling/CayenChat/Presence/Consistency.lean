import CayenChat.Presence.Snapshot

/-! # The index stays consistent

The nicknames and the users are inverse to each other, users and channels
agree on who is where, and every user is in a channel. Every call keeps this.
-/

namespace CayenChat

namespace PresenceIndex

/-- Both directions agree: nicknames with users, users with channels. -/
structure Linked (p : PresenceIndex) : Prop where
  named : p.Named
  fresh : p.Fresh
  key_nick : ∀ {i pr}, p.users.lookup i = some pr → nicknameKey pr.nick = pr.key
  nodup : ∀ {i pr}, p.users.lookup i = some pr → pr.channels.Nodup
  mem_iff : ∀ {i pr c}, p.users.lookup i = some pr →
    (c ∈ pr.channels ↔ ∃ m, p.channels.lookup c = some m ∧ i ∈ m.users)
  no_orphan : ∀ {c m i}, p.channels.lookup c = some m → i ∈ m.users →
    ∃ pr, p.users.lookup i = some pr
  keyed : ∀ {c m}, p.channels.lookup c = some m → m.key = c ∧ p.casemapping.fold m.name = c

/-- Both directions agree and every user is in a channel. -/
structure Consistent (p : PresenceIndex) : Prop extends Linked p where
  somewhere : ∀ {i pr}, p.users.lookup i = some pr → pr.channels ≠ []

variable {p q p' : PresenceIndex} {id i : UserId} {c k channel : String} {names : List String}
  {present : Finset UserId} {order : Iteration}

theorem empty_consistent : Consistent {} where
  named k id := by simp
  fresh i pr h := by simp at h
  key_nick h := by simp at h
  nodup h := by simp at h
  mem_iff h := by simp at h
  no_orphan h := by simp at h
  keyed h := by simp at h
  somewhere h := by simp at h

theorem Enlists.user (h : Enlists names p q present) {pr : Presence}
    (hq : q.users.lookup i = some pr) :
    (∃ pr₀, p.users.lookup i = some pr₀ ∧
      pr = { pr₀ with nick := (lastSpelled names pr₀.key).getD pr₀.nick }) ∨
    (p.users.lookup i = none ∧ p.next ≤ i ∧ i ∈ present ∧ pr.channels = [] ∧
      lastSpelled names pr.key = some pr.nick) := by
  cases hp : p.users.lookup i with
  | some pr₀ =>
    rw [h.known i pr₀ hp] at hq
    exact Or.inl ⟨pr₀, rfl, (Option.some.inj hq).symm⟩
  | none => exact Or.inr ⟨rfl, h.new i pr hq hp⟩

theorem Enlists.linked (h : Enlists names p q present) (hp : p.Linked) : q.Linked where
  named := h.named
  fresh := h.fresh
  key_nick {i pr} hq := by
    rcases h.user hq with ⟨pr₀, hp₀, rfl⟩ | ⟨_, _, _, _, hl⟩
    · cases hl : lastSpelled names pr₀.key with
      | some x => exact nicknameKey_lastSpelled hl
      | none => exact hp.key_nick hp₀
    · exact nicknameKey_lastSpelled hl
  nodup {i pr} hq := by
    rcases h.user hq with ⟨pr₀, hp₀, rfl⟩ | ⟨_, _, _, hc, _⟩
    · have hd := hp.nodup hp₀
      exact hd
    · rw [hc]; exact List.nodup_nil
  mem_iff {i pr c} hq := by
    rw [h.channels]
    rcases h.user hq with ⟨pr₀, hp₀, rfl⟩ | ⟨hn, _, _, hc, _⟩
    · have hm := hp.mem_iff (c := c) hp₀
      exact hm
    · simp only [hc, List.not_mem_nil, false_iff, not_exists, not_and]
      intro m hm hi
      obtain ⟨pr₀, hp₀⟩ := hp.no_orphan hm hi
      rw [hn] at hp₀
      cases hp₀
  no_orphan {c m i} hm hi := by
    rw [h.channels] at hm
    obtain ⟨pr₀, hp₀⟩ := hp.no_orphan hm hi
    exact ⟨_, h.known i pr₀ hp₀⟩
  keyed {c m} hm := by
    rw [h.channels] at hm
    rw [h.casemapping]
    exact hp.keyed hm

/-- A snapshot, users and channels at once. -/
structure Replaced (channel : String) (names : List String) (p p' : PresenceIndex) (q : PresenceIndex)
    (present : Finset UserId) : Prop where
  enlists : Enlists names p q present
  users : ∀ i, p'.users.lookup i =
    if i ∈ present then (q.users.lookup i).map (Presence.enter (p.channelKey channel))
    else (q.users.lookup i).bind (Presence.outside (p.channelKey channel))
  channels : ∀ c, p'.channels.lookup c = if c = p.channelKey channel
    then some ⟨p.channelKey channel, channel, present⟩ else p.channels.lookup c
  next : p'.next = q.next
  casemapping : p'.casemapping = p.casemapping
  named : p'.Named

theorem replaceChannel_replaced (hp : p.Consistent) (members : List String) :
    ∃ q present, Replaced channel (listed members) p (p.replaceChannel order channel members)
      q present := by
  have he := foldl_enlist hp.named hp.fresh members
  unfold replaceChannel
  generalize members.foldl enlist (p, ∅) = acc at he ⊢
  obtain ⟨q, present⟩ := acc
  dsimp only at he ⊢
  set c := p.channelKey channel
  set entry := (q.channels.lookup c).getD {} with hentry
  have hkey : (if entry.key = "" then c else entry.key) = c := by
    rw [hentry, he.channels]
    cases hm : p.channels.lookup c with
    | some m =>
      rw [Option.getD_some, (hp.keyed hm).1]
      split_ifs <;> rfl
    | none => rfl
  rw [hkey]
  -- the users with the channel entered, before the others leave it
  set users := (order.ids present).foldl (fun users id =>
    Map.adjust users id (Presence.enter c)) q.users
  have hu (i : UserId) : users.lookup i =
      if i ∈ present then (q.users.lookup i).map (Presence.enter c) else q.users.lookup i := by
    have hf := Map.lookup_foldl_adjust (m := q.users) (b := i) (f := Presence.enter c)
      (fun _ => Presence.enter_enter) (order.ids present)
    simpa only [order.mem_ids] using hf
  have hl := leaves_foldl (c := c) (order.ids (entry.users \ present))
    (p := { q with
      users := users
      channels := q.channels.insert c { key := c, name := channel, users := present } })
  refine ⟨q, present, he, fun i => ?_, fun d => ?_, hl.next,
    hl.casemapping.trans he.casemapping, hl.named (he.named.of_keys rfl fun i => ?_)⟩
  · simp only [hl.users, order.mem_ids, Finset.mem_sdiff, hu]
    by_cases hin : i ∈ present
    · simp only [hin, not_true_eq_false, and_false, if_true, if_false]
      rfl
    · simp only [hin, not_false_eq_true, and_true, if_false]
      split_ifs with hd
      · rfl
      · -- who was not in the channel does not leave it
        cases hq : q.users.lookup i with
        | none => rfl
        | some pr =>
          rcases he.user hq with ⟨pr₀, hp₀, rfl⟩ | ⟨_, _, hin', _⟩
          · rw [Option.bind_some]
            refine Eq.symm (Presence.outside_of_notMem ?_ ?_)
            · intro hcm
              obtain ⟨m, hm, hi⟩ := (hp.mem_iff hp₀).mp hcm
              rw [hentry, he.channels, hm, Option.getD_some] at hd
              exact hd hi
            · have hs := hp.somewhere hp₀
              exact hs
          · exact absurd hin' hin
  · rw [hl.channels, ← he.channels]
    exact Map.lookup_insert
  · dsimp only
    rw [hu]
    split_ifs
    · rw [Option.map_map]
      exact congrArg (Option.map · _) (funext fun _ => Presence.enter_key)
    · rfl

theorem Replaced.consistent (h : Replaced channel names p p' q present) (hp : p.Consistent) :
    p'.Consistent := by
  have hq : q.Linked := h.enlists.linked hp.toLinked
  -- what a user of the new index was before the channel was entered or left
  have hu {i : UserId} {pr : Presence} (hi : p'.users.lookup i = some pr) :
      ∃ pr₀, q.users.lookup i = some pr₀ ∧ pr.key = pr₀.key ∧ pr.nick = pr₀.nick ∧
        pr.channels.Nodup ∧ pr.channels ≠ [] ∧
        ∀ d, d ∈ pr.channels ↔ if d = p.channelKey channel then i ∈ present else d ∈ pr₀.channels := by
    rw [h.users] at hi
    split_ifs at hi with hin
    · obtain ⟨pr₀, hq₀, rfl⟩ := Option.map_eq_some_iff.mp hi
      refine ⟨pr₀, hq₀, Presence.enter_key, Presence.enter_nick, Presence.nodup_enter (hq.nodup hq₀),
        List.ne_nil_of_mem (Presence.mem_enter.mpr (Or.inr rfl)), fun d => ?_⟩
      rw [Presence.mem_enter]
      split_ifs with hd
      · simp [hd, hin]
      · rw [or_iff_left hd]
    · obtain ⟨pr₀, hq₀, ho⟩ := Option.bind_eq_some_iff.mp hi
      obtain ⟨rfl, hne⟩ := Presence.outside_eq_some.mp ho
      refine ⟨pr₀, hq₀, rfl, rfl, (hq.nodup hq₀).filter _, hne, fun d => ?_⟩
      rw [List.mem_filter, bne_iff_ne]
      split_ifs with hd
      · simp [hd, hin]
      · rw [and_iff_left hd]
  constructor
  constructor
  · exact h.named
  · intro i pr hi
    obtain ⟨pr₀, hq₀, _⟩ := hu hi
    exact h.next ▸ hq.fresh i pr₀ hq₀
  · intro i pr hi
    obtain ⟨pr₀, hq₀, hk, hn, _⟩ := hu hi
    rw [hk, hn, hq.key_nick hq₀]
  · intro i pr hi
    obtain ⟨pr₀, hq₀, _, _, hd, _⟩ := hu hi
    exact hd
  · intro i pr d hi
    obtain ⟨pr₀, hq₀, _, _, _, _, hc⟩ := hu hi
    rw [hc, h.channels]
    split_ifs with hd
    · simp
    · rw [hq.mem_iff hq₀, h.enlists.channels]
  · intro d m i hm hi
    rw [h.channels] at hm
    rw [h.users]
    split_ifs at hm with hd
    · cases hm
      obtain ⟨pr, hp', _⟩ := (h.enlists.mem_present i).mp hi
      exact ⟨_, by rw [if_pos hi, hp', Option.map_some]⟩
    · rw [← h.enlists.channels] at hm
      obtain ⟨pr, hq₀⟩ := hq.no_orphan hm hi
      split_ifs with hin
      · exact ⟨_, by rw [hq₀, Option.map_some]⟩
      · have hdc : d ∈ pr.channels := (hq.mem_iff hq₀).mpr ⟨m, hm, hi⟩
        refine ⟨_, Option.bind_eq_some_iff.mpr ⟨pr, hq₀, Presence.outside_eq_some.mpr ⟨rfl, ?_⟩⟩⟩
        exact List.ne_nil_of_mem (List.mem_filter.mpr ⟨hdc, by simpa using hd⟩)
  · intro d m hm
    rw [h.channels] at hm
    rw [h.casemapping]
    split_ifs at hm with hd
    · cases hm
      exact ⟨hd.symm, hd.symm⟩
    · exact hp.keyed hm
  · intro i pr hi
    obtain ⟨pr₀, hq₀, _, _, _, hne, _⟩ := hu hi
    exact hne

/-- A channel is removed: everybody is outside of it. -/
structure Removed (c : String) (p p' : PresenceIndex) : Prop where
  users : ∀ i, p'.users.lookup i = (p.users.lookup i).bind (Presence.outside c)
  channels : ∀ d, p'.channels.lookup d = if d = c then none else p.channels.lookup d
  next : p'.next = p.next
  casemapping : p'.casemapping = p.casemapping
  named : p'.Named

theorem removeChannel_removed (hp : p.Consistent) :
    Removed (p.channelKey channel) p (p.removeChannel order channel) := by
  -- who is not in the channel is outside of it already
  have hout {i : UserId} (hi : ∀ m, p.channels.lookup (p.channelKey channel) = some m →
      i ∉ m.users) : p.users.lookup i =
      (p.users.lookup i).bind (Presence.outside (p.channelKey channel)) := by
    cases hu : p.users.lookup i with
    | none => rfl
    | some pr =>
      refine (Presence.outside_of_notMem (fun hc => ?_) (hp.somewhere hu)).symm
      obtain ⟨m, hm, him⟩ := (hp.mem_iff hu).mp hc
      exact hi m hm him
  unfold removeChannel
  dsimp only
  cases hm : p.channels.lookup (p.channelKey channel) with
  | none =>
    refine ⟨fun i => hout fun m h => ?_, fun d => ?_, rfl, rfl, hp.named⟩
    · rw [hm] at h; cases h
    · dsimp only
      split_ifs with hd
      · rw [hd, hm]
      · rfl
  | some m =>
    have hl := leaves_foldl (c := p.channelKey channel) (order.ids m.users)
      (p := { p with channels := p.channels.erase (p.channelKey channel) })
    refine ⟨fun i => ?_, fun d => ?_, hl.next, hl.casemapping,
      hl.named (hp.named.of_keys rfl fun _ => rfl)⟩
    · simp only [hl.users, order.mem_ids]
      split_ifs with hi
      · rfl
      · exact hout fun m' h => by rw [hm] at h; cases h; exact hi
    · rw [hl.channels]
      exact Map.lookup_erase

theorem Removed.consistent (h : Removed c p p') (hp : p.Consistent) : p'.Consistent := by
  have hu {i : UserId} {pr : Presence} (hi : p'.users.lookup i = some pr) :
      ∃ pr₀, p.users.lookup i = some pr₀ ∧
        pr = { pr₀ with channels := pr₀.channels.filter (· != c) } ∧ pr.channels ≠ [] := by
    rw [h.users] at hi
    obtain ⟨pr₀, hp₀, ho⟩ := Option.bind_eq_some_iff.mp hi
    exact ⟨pr₀, hp₀, Presence.outside_eq_some.mp ho⟩
  constructor
  constructor
  · exact h.named
  · intro i pr hi
    obtain ⟨pr₀, hp₀, _⟩ := hu hi
    exact h.next ▸ hp.fresh i pr₀ hp₀
  · intro i pr hi
    obtain ⟨pr₀, hp₀, rfl, _⟩ := hu hi
    have hn := hp.key_nick hp₀
    exact hn
  · intro i pr hi
    obtain ⟨pr₀, hp₀, rfl, _⟩ := hu hi
    exact (hp.nodup hp₀).filter _
  · intro i pr d hi
    obtain ⟨pr₀, hp₀, rfl, _⟩ := hu hi
    rw [List.mem_filter, bne_iff_ne, h.channels, hp.mem_iff hp₀]
    split_ifs with hd <;> simp [hd]
  · intro d m i hm hi
    rw [h.channels] at hm
    split_ifs at hm with hd
    obtain ⟨pr, hp₀⟩ := hp.no_orphan hm hi
    have hdc : d ∈ pr.channels := (hp.mem_iff hp₀).mpr ⟨m, hm, hi⟩
    rw [h.users]
    refine ⟨_, Option.bind_eq_some_iff.mpr ⟨pr, hp₀, Presence.outside_eq_some.mpr ⟨rfl, ?_⟩⟩⟩
    exact List.ne_nil_of_mem (List.mem_filter.mpr ⟨hdc, by simpa using hd⟩)
  · intro d m hm
    rw [h.channels] at hm
    rw [h.casemapping]
    split_ifs at hm with hd
    exact hp.keyed hm
  · intro i pr hi
    obtain ⟨pr₀, _, _, hne⟩ := hu hi
    exact hne

theorem Linked.lookup_channels (hp : p.Linked) {m : Members} (hm : p.channels.lookup c = some m)
    (hi : id ∈ m.users) : ∃ pr, p.users.lookup id = some pr ∧ c ∈ pr.channels := by
  obtain ⟨pr, hu⟩ := hp.no_orphan hm hi
  exact ⟨pr, hu, (hp.mem_iff hu).mpr ⟨m, hm, hi⟩⟩

theorem Consistent.forget (hp : p.Consistent) : (p.forget id).Consistent := by
  have hc (c : String) : (p.forget id).channels.lookup c =
      (p.channels.lookup c).map (Members.without id) :=
    forget_channels fun c m hm hi => hp.lookup_channels hm hi
  have hu {i : UserId} {pr : Presence} (hi : (p.forget id).users.lookup i = some pr) :
      i ≠ id ∧ p.users.lookup i = some pr := by
    rw [forget_users] at hi
    split_ifs at hi with he
    exact ⟨he, hi⟩
  constructor
  constructor
  · exact hp.named.forget
  · intro i pr hi
    rw [forget_next]
    exact hp.fresh i pr (hu hi).2
  · exact fun hi => hp.key_nick (hu hi).2
  · exact fun hi => hp.nodup (hu hi).2
  · intro i pr c hi
    obtain ⟨hne, hi⟩ := hu hi
    rw [hp.mem_iff hi, hc]
    cases p.channels.lookup c with
    | none => simp
    | some m => simp [Members.without, hne]
  · intro c m i hm hi
    rw [hc] at hm
    obtain ⟨m, hm', rfl⟩ := Option.map_eq_some_iff.mp hm
    obtain ⟨hne, hi⟩ := Finset.mem_erase.mp hi
    obtain ⟨pr, hp₀⟩ := hp.no_orphan hm' hi
    exact ⟨pr, by rw [forget_users, if_neg hne, hp₀]⟩
  · intro c m hm
    rw [hc] at hm
    rw [forget_casemapping]
    obtain ⟨m, hm', rfl⟩ := Option.map_eq_some_iff.mp hm
    have hk := hp.keyed hm'
    exact hk
  · exact fun hi => hp.somewhere (hu hi).2

theorem Consistent.quit (hp : p.Consistent) (nickname : String) :
    (p.quit nickname).Consistent := by
  unfold PresenceIndex.quit
  split
  · exact hp.forget
  · exact hp

/-- A presence renamed; whoever held the new nickname is gone. -/
structure Renamed (old new : String) (id : UserId) (p p' : PresenceIndex) : Prop where
  known : p.byNick.lookup (nicknameKey old) = some id
  users : ∀ i, p'.users.lookup i =
    if i = id then (p.users.lookup id).map fun pr => { pr with key := nicknameKey new, nick := new }
    else if p.byNick.lookup (nicknameKey new) = some i then none else p.users.lookup i
  names : ∀ c, (p'.channels.lookup c).map Members.name = (p.channels.lookup c).map Members.name
  next : p'.next = p.next
  casemapping : p'.casemapping = p.casemapping

theorem Linked.forget_names (hp : p.Linked) :
    ((p.forget id).channels.lookup c).map Members.name =
      (p.channels.lookup c).map Members.name := by
  rw [forget_channels fun c m hm hi => hp.lookup_channels hm hi, Option.map_map]
  rfl

theorem forget_of_some {pr : Presence} (hu : p.users.lookup id = some pr)
    (b : Map String UserId) :
    ({ p with byNick := b } : PresenceIndex).forget id =
      { p.forget id with byNick := b.erase pr.key } := by
  simp only [forget, hu]

/-- A nickname made free for a presence: another one that held it is gone. -/
structure Freed (k : String) (id : UserId) (p q : PresenceIndex) : Prop where
  consistent : q.Consistent
  users : ∀ i, q.users.lookup i =
    if i ≠ id ∧ p.byNick.lookup k = some i then none else p.users.lookup i
  names : ∀ c, (q.channels.lookup c).map Members.name = (p.channels.lookup c).map Members.name
  next : q.next = p.next
  casemapping : q.casemapping = p.casemapping

theorem rename_freed (hp : p.Consistent) {old new : String}
    (hk : p.byNick.lookup (nicknameKey old) = some id) :
    ∃ q b, Freed (nicknameKey new) id p q ∧
      (∀ k, AList.lookup k b = if k = nicknameKey new then some id
        else if k = nicknameKey old then none else q.byNick.lookup k) ∧
      p.rename old new = { q with
        byNick := b
        users := Map.adjust q.users id fun pr => { pr with key := nicknameKey new, nick := new } } := by
  -- without another holder only the nickname moves
  have hkeep (hs : ∀ i, p.byNick.lookup (nicknameKey new) = some i → i = id) :
      Freed (nicknameKey new) id p p := by
    refine ⟨hp, fun i => ?_, fun c => rfl, rfl, rfl⟩
    rw [if_neg]
    rintro ⟨hi, hn⟩
    exact hi (hs i hn)
  unfold rename
  simp only [hk, Map.lookup_erase]
  by_cases hkn : nicknameKey new = nicknameKey old
  · refine ⟨p, _, hkeep fun i hi => ?_, fun k => ?_, by rw [if_pos hkn]⟩
    · rw [hkn, hk] at hi
      exact (Option.some.inj hi).symm
    · simp only [Map.lookup_insert, Map.lookup_erase, hkn]
      split_ifs <;> rfl
  · rw [if_neg hkn]
    cases hs : p.byNick.lookup (nicknameKey new) with
    | none =>
      refine ⟨p, _, hkeep fun i hi => ?_, fun k => ?_, rfl⟩
      · rw [hs] at hi; cases hi
      · simp only [Map.lookup_insert, Map.lookup_erase]
        split_ifs <;> rfl
    | some stale =>
      obtain ⟨pr, hu, hpk⟩ : ∃ pr, p.users.lookup stale = some pr ∧ pr.key = nicknameKey new := by
        simpa using (hp.named _ _).mp hs
      have hne : stale ≠ id := by
        rintro rfl
        have hko := (hp.named _ _).mp hk
        rw [hu, Option.map_some, hpk] at hko
        exact hkn (Option.some.inj hko)
      have hf : (p.forget stale).byNick = p.byNick.erase (nicknameKey new) := by
        simp only [forget, hu, hpk]
      dsimp only
      rw [if_pos hne, forget_of_some hu]
      refine ⟨p.forget stale, _, ⟨hp.forget, fun i => ?_, fun c => hp.forget_names, forget_next,
        forget_casemapping⟩, fun k => ?_, rfl⟩
      · simp only [forget_users, hs, Option.some.injEq]
        by_cases hi : i = stale
        · rw [if_pos hi, if_pos ⟨hi ▸ hne, hi.symm⟩]
        · rw [if_neg hi, if_neg fun h => hi h.2.symm]
      · simp only [Map.lookup_insert, Map.lookup_erase, hf, hpk]
        split_ifs <;> rfl

theorem rename_renamed (hp : p.Consistent) {old new : String}
    (hk : p.byNick.lookup (nicknameKey old) = some id) :
    Renamed old new id p (p.rename old new) ∧ (p.rename old new).Consistent := by
  obtain ⟨q, b, hq, hb, he⟩ := rename_freed hp hk
  rw [he]
  obtain ⟨pr, hu, hpk⟩ : ∃ pr, p.users.lookup id = some pr ∧ pr.key = nicknameKey old := by
    simpa using (hp.named _ _).mp hk
  have hqid : q.users.lookup id = some pr := by
    rw [hq.users, if_neg fun h => h.1 rfl, hu]
  have hfree {i : UserId} {pr' : Presence} (hi : i ≠ id) (hq' : q.users.lookup i = some pr') :
      pr'.key ≠ nicknameKey new ∧ pr'.key ≠ nicknameKey old := by
    constructor
    · intro hn
      rw [hq.users] at hq'
      split_ifs at hq' with hs
      exact hs ⟨hi, (hp.named _ _).mpr (by rw [hq', Option.map_some, hn])⟩
    · intro hn
      exact hi (hq.consistent.named.inj hq' hqid (hn.trans hpk.symm))
  have hus (i : UserId) : (Map.adjust q.users id fun pr =>
      { pr with key := nicknameKey new, nick := new }).lookup i =
      if i = id then some { pr with key := nicknameKey new, nick := new }
      else q.users.lookup i := by
    rw [Map.lookup_adjust]
    split_ifs with hi
    · rw [hi, hqid, Option.map_some]
    · rfl
  set users := Map.adjust q.users id fun pr => { pr with key := nicknameKey new, nick := new }
  -- a user of the index after the rename was there before, in the same channels
  have hwas {i : UserId} {pr' : Presence} (h : users.lookup i = some pr') :
      ∃ pr₀, q.users.lookup i = some pr₀ ∧ pr'.channels = pr₀.channels ∧
        nicknameKey pr'.nick = pr'.key := by
    rw [hus] at h
    split_ifs at h with hi
    · cases h
      exact ⟨pr, hi ▸ hqid, rfl, rfl⟩
    · exact ⟨pr', h, rfl, hq.consistent.key_nick h⟩
  refine ⟨⟨hk, fun i => ?_, hq.names, hq.next, hq.casemapping⟩, ⟨?_, ?_, ?_, ?_, ?_, ?_, ?_⟩, ?_⟩
  · dsimp only
    rw [hus, hq.users, hu]
    by_cases hi : i = id
    · rw [if_pos hi, if_pos hi, Option.map_some]
    · simp only [hi, ne_eq, not_false_eq_true, true_and, if_false]
  · intro k i
    dsimp only
    rw [hb, hus]
    by_cases hi : i = id
    · subst hi
      simp only [if_true, Option.map_some, Option.some.injEq]
      by_cases hkn : k = nicknameKey new
      · simp [hkn]
      · rw [if_neg hkn, eq_comm (a := nicknameKey new), iff_false_right hkn]
        split_ifs with hko
        · simp
        · rw [hq.consistent.named, hqid]
          simpa [hpk] using Ne.symm hko
    · rw [if_neg hi]
      cases hqi : q.users.lookup i with
      | none =>
        have hn : q.byNick.lookup k ≠ some i := by simp [hq.consistent.named k i, hqi]
        split_ifs <;> simp [Ne.symm hi, hn]
      | some pr' =>
        obtain ⟨hn, ho⟩ := hfree hi hqi
        have hl := hq.consistent.named k i
        rw [hqi] at hl
        split_ifs with hkn hko
        · simp [hkn, hn, Ne.symm hi]
        · simp [hko, ho]
        · exact hl
  · intro i pr' h
    obtain ⟨pr₀, hq₀, _⟩ := hwas h
    exact hq.consistent.fresh i pr₀ hq₀
  · intro i pr' h
    obtain ⟨_, _, _, hn⟩ := hwas h
    exact hn
  · intro i pr' h
    obtain ⟨pr₀, hq₀, hc, _⟩ := hwas h
    exact hc ▸ hq.consistent.nodup hq₀
  · intro i pr' c h
    obtain ⟨pr₀, hq₀, hc, _⟩ := hwas h
    rw [hc]
    exact hq.consistent.mem_iff hq₀
  · intro c m i hm hi
    obtain ⟨pr₀, hq₀⟩ := hq.consistent.no_orphan hm hi
    dsimp only
    rw [hus, hq₀]
    split_ifs <;> exact ⟨_, rfl⟩
  · exact hq.consistent.keyed
  · intro i pr' h
    obtain ⟨pr₀, hq₀, hc, _⟩ := hwas h
    exact hc ▸ hq.consistent.somewhere hq₀

end PresenceIndex

end CayenChat
