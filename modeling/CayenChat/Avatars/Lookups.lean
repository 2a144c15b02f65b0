import CayenChat.Avatars.Metadata
import CayenChat.Lib.Machine

/-! # The lookups of joiners

How many lookups the table holds, how many of them are sent, how often and for
whom. Every call takes lookups out of the table or gives them up, except for a
joiner, a new nickname, a rate limit, and the lookup that a tick sends.
-/

namespace CayenChat.Avatars

open Machine

/-! ## What is watched -/

def lookupTarget : IrcCommand → Option String
  | .raw verb [nickname, get, key] =>
    if verb = "METADATA" ∧ get = "GET" ∧ key = avatarKey then some nickname else none
  | _ => none

namespace Call

def asked (s : MetadataState) : Call → List (String × ℕ)
  | .tick now joined =>
    ((s.tick now joined).2.send.filterMap lookupTarget).map fun nickname => (nickname, now)
  | _ => []

def names : Call → Option (String × String)
  | .lifecycle message .. =>
    match message.sourceNickname, message.command with
    | some actor, .nick new => some (actor, new)
    | _, _ => none
  | _ => none

/-- The joiner who is to be looked up. -/
def joiner (s : MetadataState) : Call → Option String
  | .lifecycle message presence currentNick replayed _ =>
    match message.sourceNickname, message.command with
    | some actor, .join .. =>
      if s.subscribed && !replayed && !sameNickname actor currentNick &&
        !presence.shares actor none then some actor else none
    | _, _ => none
  | _ => none

/-- The nickname whose lookup a rate limit of the server is about. -/
def rateLimited (s : MetadataState) : Call → Option String
  | .observe message _ currentNick _ =>
    match message.command with
    | .raw verb (command :: code :: rest) =>
      if verb = "FAIL" ∧ command = "METADATA" ∧ code = "RATE_LIMITED" ∧
          s.own.filter (fun _ => MetadataState.namesUs code rest.dropLast currentNick) = none then
        rest.dropLast.head?
      else none
    | _ => none
  | _ => none

/-- The folded nicknames nobody has since their user left or took another one. -/
def vacate (vacant : Finset String) : Call → Finset String
  | .lifecycle message presence currentNick replayed _ =>
    match message.sourceNickname with
    | none => vacant
    | some actor =>
      match message.command with
      | .join .. => if replayed then vacant else vacant.erase (nicknameKey actor)
      | .nick new => (insert (nicknameKey actor) vacant).erase (nicknameKey new)
      | _ => vacant ∪
          ((presence.departed message actor (sameNickname · currentNick)).map nicknameKey).toFinset
  | _ => vacant

/-- Whether a lookup for the folded nickname that is in the table after the call is a new one: there
was none, or its user respelled the nickname before it was sent. -/
def renews (s : MetadataState) (key : String) (c : Call) : Prop :=
  (∀ l ∈ s.lookups, l.key ≠ key) ∨
    ∃ names ∈ c.names, nicknameKey names.1 = key ∧ nicknameKey names.2 = key ∧
      ∃ l ∈ s.lookups, l.key = key ∧ l.state = .waiting

instance (s : MetadataState) (key : String) (c : Call) : Decidable (c.renews s key) := by
  unfold renews
  infer_instance

end Call

/-- The state with what was sent in the run so far. -/
structure Watch where
  state : MetadataState
  /-- The times of the lookups that were sent. -/
  times : List ℕ := []
  /-- How often the lookup for a folded nickname was sent that is in the table. -/
  sent : String → ℕ := fun _ => 0
  /-- The folded nicknames nobody has since their user left or took another one. -/
  vacant : Finset String := ∅

namespace Watch

def step (w : Watch) (c : Call) : Watch where
  state := (w.state.call c).1
  times := w.times ++ (c.asked w.state).map Prod.snd
  sent key := (if c.renews w.state key then 0 else w.sent key) +
    ((c.asked w.state).map fun asked => nicknameKey asked.1).count key
  vacant := c.vacate w.vacant

/-- The limits of the lookups. -/
structure Limited (w : Watch) : Prop where
  table : w.state.lookups.length ≤ maxLookups
  inFlight : w.state.inFlight ≤ maxLookupsInFlight
  once : (w.state.lookups.map fun l => nicknameKey l.nickname).Nodup
  spaced : w.times.Pairwise fun earlier later => earlier + lookupInterval ≤ later
  attempts : ∀ key, w.sent key ≤ maxLookupAttempts

def Wanted (w : Watch) (c : Call) : Prop :=
  ∀ asked ∈ c.asked w.state, nicknameKey asked.1 ∉ w.vacant

/-- Where lookups enter the table or are taken up again without a check, there is room for them:
a joiner whose lookup was given up comes back while fewer are in flight than may be; a user whose
lookup was sent takes another nickname while the table is not full; a rate limit is not about a
lookup that was given up for a nickname nobody has. -/
@[mk_iff] structure Admitted (w : Watch) (c : Call) : Prop where
  back : ∀ nickname ∈ c.joiner w.state, nicknameKey nickname ∉ w.state.known →
    (∃ l ∈ w.state.lookups, l.key = nicknameKey nickname ∧ l.state = .abandoned) →
      w.state.inFlight < maxLookupsInFlight
  renamed : ∀ names ∈ c.names,
    (∃ l ∈ w.state.lookups, l.key = nicknameKey names.1 ∧ l.state = .sent) →
      (∀ l ∈ w.state.lookups, l.key ≠ nicknameKey names.2) →
        w.state.lookups.length < maxLookups
  limited : ∀ nickname ∈ c.rateLimited w.state,
    (∃ l ∈ w.state.lookups, l.key = nicknameKey nickname ∧ l.state = .abandoned ∧
      l.attempts < maxLookupAttempts) → nicknameKey nickname ∉ w.vacant

instance (w : Watch) (c : Call) : Decidable (w.Wanted c) := by
  unfold Wanted
  infer_instance

instance (w : Watch) (c : Call) : Decidable (w.Admitted c) :=
  decidable_of_iff' _ (admitted_iff w c)

end Watch

/-! ## What becomes of the table -/

section Table

variable {L L' L'' : List Lookup} {l l' : Lookup} {vacant vacant' : Finset String}
  {sent sent' : String → ℕ}

/-- A lookup that stays what it is, or is given up. -/
structure Lookup.Keeps (l l' : Lookup) : Prop where
  nickname : l'.nickname = l.nickname
  key : l'.key = l.key
  attempts : l'.attempts = l.attempts
  state : l'.state = l.state ∨ l'.state = .abandoned

theorem Lookup.Keeps.refl (l : Lookup) : l.Keeps l := ⟨rfl, rfl, rfl, .inl rfl⟩

/-- Lookups are taken out of the table or given up. -/
inductive Lapses : List Lookup → List Lookup → Prop
  | nil : Lapses [] []
  | drop {L L' : List Lookup} (l : Lookup) : Lapses L L' → Lapses (l :: L) L'
  | keep {L L' : List Lookup} {l l' : Lookup} : l.Keeps l' → Lapses L L' →
      Lapses (l :: L) (l' :: L')

namespace Lapses

theorem refl (L : List Lookup) : Lapses L L := by
  induction L with
  | nil => exact nil
  | cons l L ih => exact keep (.refl l) ih

theorem of_eq (h : L' = L) : Lapses L L' := h ▸ refl L

theorem length_le (h : Lapses L L') : L'.length ≤ L.length := by
  induction h with
  | nil => exact Nat.le_refl _
  | drop l h ih => exact ih.trans (Nat.le_succ _)
  | keep hl h ih => exact Nat.succ_le_succ ih

theorem keys_sublist (h : Lapses L L') : (L'.map Lookup.key).Sublist (L.map Lookup.key) := by
  induction h with
  | nil => exact List.Sublist.refl _
  | drop l h ih => exact ih.cons _
  | keep hl h ih =>
    rw [List.map_cons, List.map_cons, hl.key]
    exact ih.cons_cons _

theorem exists_keeps (h : Lapses L L') (hl : l' ∈ L') : ∃ l ∈ L, l.Keeps l' := by
  induction h with
  | nil => cases hl
  | drop l h ih =>
    obtain ⟨m, hm, hk⟩ := ih hl
    exact ⟨m, List.mem_cons_of_mem _ hm, hk⟩
  | keep hk h ih =>
    rcases List.mem_cons.mp hl with rfl | hl
    · exact ⟨_, List.mem_cons_self, hk⟩
    · obtain ⟨m, hm, hk⟩ := ih hl
      exact ⟨m, List.mem_cons_of_mem _ hm, hk⟩

theorem countP_sent_le (h : Lapses L L') :
    L'.countP (·.state = .sent) ≤ L.countP (·.state = .sent) := by
  induction h with
  | nil => exact Nat.le_refl _
  | drop l h ih =>
    rw [List.countP_cons]
    exact ih.trans (Nat.le_add_right _ _)
  | @keep L L' l l' hl h ih =>
    rw [List.countP_cons, List.countP_cons]
    apply Nat.add_le_add ih
    rcases hl.state with he | he
    · rw [he]
    · simp [he]

theorem eraseP (p : Lookup → Bool) (L : List Lookup) : Lapses L (L.eraseP p) := by
  induction L with
  | nil => exact nil
  | cons l L ih =>
    rw [List.eraseP_cons]
    cases p l with
    | true => exact drop l (refl L)
    | false => exact keep (.refl l) ih

theorem middle (pre : List Lookup) (l : Lookup) (post : List Lookup) :
    Lapses (pre ++ l :: post) (pre ++ post) := by
  induction pre with
  | nil => exact drop l (refl post)
  | cons m pre ih => exact keep (.refl m) ih

theorem adjustFirst {p : Lookup → Bool} {f : Lookup → Lookup} (hf : ∀ l : Lookup, l.Keeps (f l))
    (L : List Lookup) : Lapses L (adjustFirst p f L) := by
  induction L with
  | nil => exact nil
  | cons l L ih =>
    rw [Avatars.adjustFirst]
    split
    · exact keep (hf l) (refl L)
    · exact keep (.refl l) ih

theorem expired (now : ℕ) (L : List Lookup) :
    Lapses L (L.filterMap (MetadataState.expireLookup now)) := by
  induction L with
  | nil => exact nil
  | cons l L ih =>
    rw [List.filterMap_cons]
    unfold MetadataState.expireLookup
    cases hl : l.state with
    | sent =>
      dsimp only
      apply keep _ ih
      split
      · exact ⟨rfl, rfl, rfl, .inr rfl⟩
      · exact .refl l
    | abandoned =>
      dsimp only
      by_cases hdue : now < l.due
      · rw [if_pos hdue]
        exact keep (.refl l) ih
      · rw [if_neg hdue]
        exact drop l ih
    | waiting => exact keep (.refl l) ih

end Lapses

section

variable {α : Type*} {p : α → Bool} {f : α → α} {a : α} {pre post : List α}

theorem adjustFirst_middle (hpre : ∀ x ∈ pre, p x = false) (ha : p a = true) :
    adjustFirst p f (pre ++ a :: post) = pre ++ f a :: post := by
  induction pre with
  | nil => simp [adjustFirst, ha]
  | cons x pre ih =>
    have hx := hpre x List.mem_cons_self
    have ih := ih fun y hy => hpre y (List.mem_cons_of_mem _ hy)
    simp [adjustFirst, hx, ih]

theorem eraseP_middle (hpre : ∀ x ∈ pre, p x = false) (ha : p a = true) :
    (pre ++ a :: post).eraseP p = pre ++ post := by
  rw [List.eraseP_append_right _ fun x hx => by simp [hpre x hx], List.eraseP_cons_of_pos ha]

theorem find_middle {xs : List α} (h : xs.find? p = some a) :
    ∃ pre post, xs = pre ++ a :: post ∧ (∀ x ∈ pre, p x = false) ∧ p a = true := by
  obtain ⟨ha, pre, post, rfl, hpre⟩ := List.find?_eq_some_iff_append.mp h
  exact ⟨pre, post, rfl, fun x hx => by simpa using hpre x hx, ha⟩

end

/-- What holds of each lookup of the table. -/
structure Entry (vacant : Finset String) (sent : String → ℕ) (l : Lookup) : Prop where
  named : l.key = nicknameKey l.nickname
  counted : sent l.key = l.attempts
  attempts : l.attempts ≤ maxLookupAttempts
  another : l.state = .waiting → l.attempts < maxLookupAttempts
  gone : l.key ∈ vacant → l.state = .abandoned

/-- The table within its limits. -/
structure Table (vacant : Finset String) (sent : String → ℕ) (L : List Lookup) : Prop where
  entry : ∀ l ∈ L, Entry vacant sent l
  once : (L.map Lookup.key).Nodup
  room : L.length ≤ maxLookups
  flight : L.countP (·.state = .sent) ≤ maxLookupsInFlight

theorem Entry.keeps (h : Entry vacant sent l) (hk : l.Keeps l') : Entry vacant sent l' where
  named := by rw [hk.key, hk.nickname, h.named]
  counted := by rw [hk.key, hk.attempts, h.counted]
  attempts := hk.attempts ▸ h.attempts
  another hw := by
    rcases hk.state with he | he
    · exact hk.attempts ▸ h.another (he ▸ hw)
    · rw [he] at hw
      cases hw
  gone hg := by
    rcases hk.state with he | he
    · exact he.trans (h.gone (hk.key ▸ hg))
    · exact he

namespace Table

theorem lapses (h : Table vacant sent L) (hl : Lapses L L') : Table vacant sent L' where
  entry l' hm := by
    obtain ⟨l, hl, hk⟩ := hl.exists_keeps hm
    exact (h.entry l hl).keeps hk
  once := h.once.sublist hl.keys_sublist
  room := hl.length_le.trans h.room
  flight := hl.countP_sent_le.trans h.flight

theorem congr (h : Table vacant sent L) (hs : ∀ l ∈ L, sent' l.key = sent l.key)
    (hv : ∀ l ∈ L, l.key ∈ vacant' → l.key ∈ vacant ∨ l.state = .abandoned) :
    Table vacant' sent' L where
  entry l hl :=
    { named := (h.entry l hl).named
      counted := (hs l hl).trans (h.entry l hl).counted
      attempts := (h.entry l hl).attempts
      another := (h.entry l hl).another
      gone := fun hg => (hv l hl hg).elim (h.entry l hl).gone id }
  once := h.once
  room := h.room
  flight := h.flight

theorem ne_of_mem {pre post : List Lookup} (h : Table vacant sent (pre ++ l :: post)) :
    ∀ m ∈ pre ++ post, m.key ≠ l.key := by
  have hnodup := h.once
  rw [List.map_append, List.map_cons, List.nodup_middle, List.nodup_cons, ← List.map_append]
    at hnodup
  intro m hm he
  exact hnodup.1 (he ▸ List.mem_map_of_mem hm)

theorem eq_of_key (h : Table vacant sent L) (hl : l ∈ L) (hl' : l' ∈ L) (hk : l.key = l'.key) :
    l = l' := List.inj_on_of_nodup_map h.once hl hl' hk

theorem set {pre post : List Lookup} (h : Table vacant sent (pre ++ l :: post))
    (hk : l'.key = l.key) (he : Entry vacant' sent' l')
    (ho : ∀ m ∈ pre ++ l :: post, m.key ≠ l.key → Entry vacant' sent' m)
    (hf : l'.state = .sent → l.state = .sent ∨
      (pre ++ l :: post).countP (·.state = .sent) < maxLookupsInFlight) :
    Table vacant' sent' (pre ++ l' :: post) where
  entry m hm := by
    have hne := h.ne_of_mem
    rcases List.mem_append.mp hm with hm | hm
    · exact ho m (List.mem_append_left _ hm) (hne m (List.mem_append_left _ hm))
    · rcases List.mem_cons.mp hm with rfl | hm
      · exact he
      · exact ho m (List.mem_append_right _ (List.mem_cons_of_mem _ hm))
          (hne m (List.mem_append_right _ hm))
  once := by
    have hnodup := h.once
    rw [List.map_append, List.map_cons] at hnodup ⊢
    rwa [hk]
  room := by simpa using h.room
  flight := by
    have hflight := h.flight
    simp only [List.countP_append, List.countP_cons] at hflight hf ⊢
    by_cases hs : l'.state = .sent
    · rcases hf hs with hl | hlt
      · simpa [hs, hl] using hflight
      · simp only [hs, decide_true, if_true]
        split_ifs at hlt <;> omega
    · simp only [hs, decide_false, Bool.false_eq_true, if_false]
      split_ifs at hflight <;> omega

theorem push (h : Table vacant sent L) (hk : ∀ m ∈ L, m.key ≠ l.key)
    (he : Entry vacant sent l) (hw : l.state = .waiting) (hroom : L.length < maxLookups) :
    Table vacant sent (L ++ [l]) where
  entry m hm := by
    rcases List.mem_append.mp hm with hm | hm
    · exact h.entry m hm
    · rw [List.mem_singleton.mp hm]
      exact he
  once := by
    rw [List.map_append, List.nodup_append]
    refine ⟨h.once, List.nodup_singleton _, ?_⟩
    intro key hmem key' hmem'
    obtain ⟨m, hm, rfl⟩ := List.mem_map.mp hmem
    rw [List.mem_singleton.mp hmem']
    exact hk m hm
  room := by
    rw [List.length_append, List.length_singleton]
    exact hroom
  flight := by simpa [hw] using h.flight

end Table

end Table

/-! ## What the calls do -/

namespace MetadataState

variable {s s' s'' : MetadataState}

/-- Lookups are taken out or given up, and the next one may be sent when it might before. -/
structure Eases (s s' : MetadataState) : Prop where
  lookups : Lapses s.lookups s'.lookups
  next : s'.nextLookup = s.nextLookup

theorem Eases.of_eq (hl : s'.lookups = s.lookups) (hn : s'.nextLookup = s.nextLookup) :
    s.Eases s' := ⟨Lapses.of_eq hl, hn⟩

theorem Eases.congr (h : s.Eases s') (hl : s''.lookups = s'.lookups)
    (hn : s''.nextLookup = s'.nextLookup) : s.Eases s'' :=
  ⟨hl ▸ h.lookups, hn.trans h.next⟩

theorem avatar_lookups (s : MetadataState) (target : String) (value : Option String) :
    (s.avatar target value).1.lookups = s.lookups ∧
      (s.avatar target value).1.nextLookup = s.nextLookup := by
  unfold avatar
  split
  · exact ⟨rfl, rfl⟩
  dsimp only
  split <;> split <;> exact ⟨rfl, rfl⟩

theorem answered_eases (s : MetadataState) (key : String) (reply : Bool) :
    s.Eases (s.answered key reply).1 := by
  unfold answered
  split
  · dsimp only
    split
    · exact ⟨Lapses.eraseP _ _, rfl⟩
    · exact ⟨Lapses.eraseP _ _, rfl⟩
    · exact ⟨Lapses.eraseP _ _, rfl⟩
    · exact Eases.of_eq rfl rfl
  · exact Eases.of_eq rfl rfl

theorem report_eases (s : MetadataState) (target : String) (value : Option String) (reply : Bool)
    (currentNick : String) : s.Eases (s.report target value reply currentNick).1 := by
  unfold report
  split
  · obtain ⟨hl, hn⟩ := avatar_lookups { s with own := if reply then none else s.own } currentNick
      value
    exact Eases.of_eq hl hn
  · dsimp only
    split
    · have hanswered := answered_eases s (nicknameKey target) reply
      split
      · obtain ⟨hl, hn⟩ := avatar_lookups (s.answered (nicknameKey target) reply).1 target value
        exact hanswered.congr hl hn
      · exact hanswered
    · obtain ⟨hl, hn⟩ := avatar_lookups s target value
      exact Eases.of_eq hl hn

theorem ownFailure_eases (s : MetadataState) (own : OwnRequest) (code : String)
    (params : List String) (description currentNick : String) :
    s.Eases (s.ownFailure own code params description currentNick).1 := by
  unfold ownFailure
  dsimp only
  split
  · exact Eases.of_eq rfl rfl
  split
  · obtain ⟨hl, hn⟩ := avatar_lookups { s with own := none } currentNick none
    exact Eases.of_eq hl hn
  · exact Eases.of_eq rfl rfl

theorem lookupFailure_eases (s : MetadataState) {code : String} (target : String)
    (params : List String) (now : ℕ) (hc : code ≠ "RATE_LIMITED") :
    s.Eases (s.lookupFailure code target params now) := by
  unfold lookupFailure
  dsimp only
  split
  · rw [if_neg fun h => hc h.1]
    exact ⟨Lapses.eraseP _ _, rfl⟩
  · exact Eases.of_eq rfl rfl

theorem defer_lookups (s : MetadataState) (args : List String) (now : ℕ)
    (joined : String → Bool) : (s.defer args now joined).1.lookups = s.lookups ∧
      (s.defer args now joined).1.nextLookup = s.nextLookup := by
  unfold defer
  split
  · exact ⟨rfl, rfl⟩
  · dsimp only
    split_ifs <;> exact ⟨rfl, rfl⟩

theorem observeNumeric_eases {code : ℕ} {args : List String} {now : ℕ} {currentNick : String}
    {joined : String → Bool} {r : MetadataState × Handled}
    (hr : s.observeNumeric code args now currentNick joined = some r) : s.Eases r.1 := by
  unfold observeNumeric at hr
  dsimp only at hr
  split at hr
  · split at hr
    · split at hr
      · cases hr
        exact report_eases ..
      · cases hr
        exact Eases.of_eq rfl rfl
    · cases hr
      exact Eases.of_eq rfl rfl
  · split at hr
    · split at hr
      · cases hr
        exact report_eases ..
      · cases hr
        exact Eases.of_eq rfl rfl
    · cases hr
      exact Eases.of_eq rfl rfl
  · cases hr
    exact Eases.of_eq rfl rfl
  · cases hr
    exact Eases.of_eq rfl rfl
  · cases hr
    exact Eases.of_eq rfl rfl
  · cases hr
    obtain ⟨hl, hn⟩ := defer_lookups s args now joined
    exact Eases.of_eq hl hn
  · cases hr

theorem failure_eases (s : MetadataState) (args : List String) (now : ℕ) (currentNick : String) :
    s.Eases (s.failure args now currentNick).1 ∨ ∃ rest target,
      args = "RATE_LIMITED" :: rest ∧
      s.own.filter (fun _ => namesUs "RATE_LIMITED" rest.dropLast currentNick) = none ∧
      rest.dropLast.head? = some target ∧
      (s.failure args now currentNick).1 =
        s.lookupFailure "RATE_LIMITED" target rest.dropLast now := by
  cases args with
  | nil => exact .inl (Eases.of_eq rfl rfl)
  | cons code rest =>
    unfold failure
    dsimp only
    split
    · exact .inl (ownFailure_eases ..)
    · rename_i hown
      split
      · cases ht : rest.dropLast.head? with
        | none => exact .inl (Eases.of_eq rfl rfl)
        | some target =>
          by_cases hc : code = "RATE_LIMITED"
          · subst hc
            exact .inr ⟨rest, target, rfl, hown, ht, rfl⟩
          · exact .inl (lookupFailure_eases s target _ now hc)
      · exact .inl (Eases.of_eq rfl rfl)

theorem observe_eases {message : IrcMessage} {now : ℕ} {currentNick : String}
    {joined : String → Bool} {r : MetadataState × Handled}
    (hr : s.observe message now currentNick joined = some r) :
    s.Eases r.1 ∨ ∃ target params,
      (Call.observe message now currentNick joined).rateLimited s = some target ∧
      r.1 = s.lookupFailure "RATE_LIMITED" target params now := by
  unfold observe at hr
  split at hr
  · rename_i verb args hcommand
    split at hr
    · left
      split at hr
      · split at hr
        · cases hr
          exact report_eases ..
        · cases hr
          exact Eases.of_eq rfl rfl
      · cases hr
        exact Eases.of_eq rfl rfl
    · split at hr
      · rename_i hfail
        cases hr
        rcases failure_eases s args.tail now currentNick with h | ⟨rest, target, ha, ho, ht, he⟩
        · exact .inl h
        · right
          refine ⟨target, rest.dropLast, ?_, he⟩
          obtain ⟨rfl, hhead⟩ := hfail
          have hargs : args = "METADATA" :: "RATE_LIMITED" :: rest := by
            rw [List.eq_cons_of_mem_head? hhead, ha]
          unfold Call.rateLimited
          dsimp only
          rw [hcommand, hargs]
          exact (if_pos ⟨rfl, rfl, rfl, ho⟩).trans ht
      · obtain ⟨numeric, -, hr⟩ := Option.bind_eq_some_iff.mp hr
        exact .inl (observeNumeric_eases hr)
  · obtain ⟨numeric, -, hr⟩ := Option.bind_eq_some_iff.mp hr
    exact .inl (observeNumeric_eases hr)

/-! ## Who is present -/

theorem forgetGone_lookups (s : MetadataState) (gone : List String) :
    (s.forgetGone gone).1.lookups = s.lookups ∧
      (s.forgetGone gone).1.nextLookup = s.nextLookup := by
  unfold forgetGone
  induction gone using List.reverseRecOn with
  | nil => exact ⟨rfl, rfl⟩
  | append_singleton gone nick ih =>
    rw [List.foldl_concat]
    split <;> exact ih

theorem renamed_lookups (s : MetadataState) (old new : String) (now : ℕ) :
    (s.renamed old new now).1.lookups = (s.renameLookup old new now).lookups ∧
      (s.renamed old new now).1.nextLookup = (s.renameLookup old new now).nextLookup := by
  unfold renamed
  dsimp only
  split
  · exact ⟨rfl, rfl⟩
  · exact forgetGone_lookups ..

/-- What a line about who is present does: nothing, a joiner is looked up, a nickname changes
hands, or users are gone. -/
theorem lifecycle_cases (s : MetadataState) (message : IrcMessage) (presence : PresenceIndex)
    (currentNick : String) (replayed : Bool) (now : ℕ) :
    let c := Call.lifecycle message presence currentNick replayed now
    let t := (s.lifecycle message presence currentNick replayed now).1
    (t = s ∧ c.names = none ∧ ∀ vacant, c.vacate vacant ⊆ vacant) ∨
    (∃ actor, c.joiner s = some actor ∧ c.names = none ∧ t = (s.scheduleLookup actor now).1 ∧
      ∀ vacant, c.vacate vacant = vacant.erase (nicknameKey actor)) ∨
    (∃ old new, c.names = some (old, new) ∧ t.lookups = (s.renameLookup old new now).lookups ∧
      t.nextLookup = (s.renameLookup old new now).nextLookup ∧
      ∀ vacant, c.vacate vacant = (insert (nicknameKey old) vacant).erase (nicknameKey new)) ∨
    ∃ gone : List String, c.names = none ∧
      t.lookups = (gone.foldl (fun s nick => s.cancelLookup (nicknameKey nick) now) s).lookups ∧
      t.nextLookup =
        (gone.foldl (fun s nick => s.cancelLookup (nicknameKey nick) now) s).nextLookup ∧
      ∀ vacant, c.vacate vacant = vacant ∪ (gone.map nicknameKey).toFinset := by
  dsimp only
  unfold lifecycle Call.names Call.vacate Call.joiner
  dsimp only
  cases hactor : message.sourceNickname with
  | none => exact .inl ⟨rfl, rfl, fun _ => Finset.Subset.refl _⟩
  | some actor =>
    dsimp only
    cases hcommand : message.command with
    | join =>
      dsimp only
      split
      · rename_i hjoin
        refine .inr (.inl ⟨actor, rfl, rfl, rfl, fun vacant => ?_⟩)
        have hreplayed : replayed = false := by
          cases replayed with
          | false => rfl
          | true => simp at hjoin
        rw [hreplayed]
        rfl
      · refine .inl ⟨rfl, rfl, fun vacant => ?_⟩
        split
        · exact Finset.Subset.refl _
        · exact Finset.erase_subset _ _
    | nick new =>
      obtain ⟨hl, hn⟩ := renamed_lookups s actor new now
      exact .inr (.inr (.inl ⟨actor, new, rfl, hl, hn, fun _ => rfl⟩))
    | _ =>
      refine .inr (.inr (.inr ⟨_, rfl, ?_, ?_, fun _ => rfl⟩))
      · exact (forgetGone_lookups ..).1
      · exact (forgetGone_lookups ..).2

theorem cancelLookup_cases (s : MetadataState) (key : String) (now : ℕ) :
    ((∀ l ∈ s.lookups, l.key ≠ key) ∧ s.cancelLookup key now = s) ∨
    ∃ pre l post, s.lookups = pre ++ l :: post ∧ l.key = key ∧
      s.lookups.find? (·.key = key) = some l ∧
      (l.state = .waiting ∧ (s.cancelLookup key now).lookups = pre ++ post ∨
        l.state = .sent ∧ (s.cancelLookup key now).lookups =
          pre ++ { l with state := .abandoned, due := now + lookupTimeout } :: post ∨
        l.state = .abandoned ∧ s.cancelLookup key now = s) := by
  unfold cancelLookup
  cases hfind : s.lookups.find? (·.key = key) with
  | none =>
    left
    refine ⟨fun l hl => ?_, rfl⟩
    simpa using List.find?_eq_none.mp hfind l hl
  | some l =>
    right
    obtain ⟨pre, post, hsplit, hpre, hkey⟩ := find_middle hfind
    refine ⟨pre, l, post, hsplit, of_decide_eq_true hkey, rfl, ?_⟩
    dsimp only
    cases hstate : l.state with
    | waiting => exact .inl ⟨rfl, by rw [hsplit]; exact eraseP_middle hpre hkey⟩
    | sent => exact .inr (.inl ⟨rfl, by rw [hsplit]; exact adjustFirst_middle hpre hkey⟩)
    | abandoned => exact .inr (.inr ⟨rfl, rfl⟩)

theorem cancelLookup_lapses (s : MetadataState) (key : String) (now : ℕ) :
    Lapses s.lookups (s.cancelLookup key now).lookups := by
  unfold cancelLookup
  split
  · exact Lapses.refl _
  · split
    · exact Lapses.eraseP _ _
    · apply Lapses.adjustFirst
      intro l
      exact ⟨rfl, rfl, rfl, .inr rfl⟩
    · exact Lapses.refl _

theorem cancelLookup_next (s : MetadataState) (key : String) (now : ℕ) :
    (s.cancelLookup key now).nextLookup = s.nextLookup := by
  unfold cancelLookup
  split
  · rfl
  · split <;> rfl

/-! ## Within the limits -/

section Table

variable {vacant vacant' : Finset String} {sent sent' : String → ℕ} {key : String} {now : ℕ}

theorem cancelLookup_table (key : String) (now : ℕ) (h : Table vacant sent s.lookups) :
    Table (insert key vacant) sent (s.cancelLookup key now).lookups := by
  have hcongr : ∀ {L : List Lookup}, Table vacant sent L →
      (∀ l ∈ L, l.key = key → l.state = .abandoned) → Table (insert key vacant) sent L := by
    intro L hL hk
    refine hL.congr (fun _ _ => rfl) fun l hl hg => ?_
    rcases Finset.mem_insert.mp hg with he | hg
    · exact .inr (hk l hl he)
    · exact .inl hg
  rcases cancelLookup_cases s key now with ⟨hnone, he⟩ | ⟨pre, l, post, hs, rfl, -, hcase⟩
  · rw [he]
    exact hcongr h fun l hl hk => absurd hk (hnone l hl)
  · rw [hs] at h
    have hothers : ∀ m ∈ pre ++ post, m.key ≠ l.key := h.ne_of_mem
    rcases hcase with ⟨-, he⟩ | ⟨hsent, he⟩ | ⟨hab, he⟩
    · rw [he]
      refine hcongr (h.lapses ?_) fun m hm hk => absurd hk (hothers m hm)
      exact Lapses.middle pre l post
    · rw [he]
      have hl := h.entry l (by simp)
      refine h.set rfl ⟨hl.named, hl.counted, hl.attempts, (by rintro ⟨⟩), fun _ => rfl⟩ ?_ ?_
      · intro m hm hne
        have hm := h.entry m hm
        exact ⟨hm.named, hm.counted, hm.attempts, hm.another,
          fun hg => hm.gone ((Finset.mem_insert.mp hg).resolve_left hne)⟩
      · rintro ⟨⟩
    · rw [he, hs]
      refine hcongr h fun m hm hk => ?_
      rw [h.eq_of_key hm (by simp) hk, hab]

theorem cancelLookups_table (h : Table vacant sent s.lookups) (gone : List String) :
    Table (vacant ∪ (gone.map nicknameKey).toFinset) sent
      (gone.foldl (fun s nick => s.cancelLookup (nicknameKey nick) now) s).lookups := by
  induction gone generalizing s vacant with
  | nil => simpa using h
  | cons nick gone ih =>
    have h := ih (cancelLookup_table (nicknameKey nick) now h)
    rwa [List.map_cons, List.toFinset_cons, Finset.union_insert, ← Finset.insert_union]

theorem cancelLookups_next (s : MetadataState) (gone : List String) (now : ℕ) :
    (gone.foldl (fun s nick => s.cancelLookup (nicknameKey nick) now) s).nextLookup =
      s.nextLookup := by
  induction gone generalizing s with
  | nil => rfl
  | cons nick gone ih => exact (ih _).trans (cancelLookup_next ..)

theorem lookupFailure_table (now : ℕ) (h : Table vacant sent s.lookups) {target : String}
    (params : List String)
    (hgone : (∃ l ∈ s.lookups, l.key = nicknameKey target ∧ l.state = .abandoned ∧
      l.attempts < maxLookupAttempts) → nicknameKey target ∉ vacant) :
    Table vacant sent (s.lookupFailure "RATE_LIMITED" target params now).lookups := by
  unfold lookupFailure
  dsimp only
  split
  · rename_i l hfind
    split
    · rename_i hlimit
      obtain ⟨pre, post, hsplit, hpre, hnamed⟩ := find_middle hfind
      have hl := h.entry l (List.mem_of_find?_eq_some hfind)
      obtain ⟨hkey, hstate⟩ := of_decide_eq_true hnamed
      dsimp only
      rw [hsplit, adjustFirst_middle hpre hnamed]
      rw [hsplit] at h
      refine h.set rfl ⟨hl.named, hl.counted, hl.attempts, fun _ => hlimit.2, fun hg => ?_⟩
        (fun m hm _ => h.entry m hm) (by rintro ⟨⟩)
      refine absurd (hkey ▸ hg) (hgone ⟨l, List.mem_of_find?_eq_some hfind, hkey, ?_, hlimit.2⟩)
      exact hl.gone hg
    · exact h.lapses (Lapses.eraseP _ _)
  · exact h

theorem lookupFailure_next (s : MetadataState) (target : String) (params : List String) (now : ℕ) :
    ∀ next, s.nextLookup = some next → ∃ next',
      (s.lookupFailure "RATE_LIMITED" target params now).nextLookup = some next' ∧
        next ≤ next' := by
  intro next hn
  unfold lookupFailure
  dsimp only
  split
  · split
    · dsimp only
      rw [hn]
      exact ⟨_, rfl, Nat.le_max_right _ _⟩
    · exact ⟨next, hn, Nat.le_refl _⟩
  · exact ⟨next, hn, Nat.le_refl _⟩

/-- A joiner comes into the table while there is room, and a lookup is taken up again while fewer
are in flight than may be. -/
theorem scheduleLookup_table (h : Table vacant sent s.lookups) {nickname : String}
    (hsub : vacant' ⊆ vacant) (hhere : nicknameKey nickname ∉ vacant')
    (hsent : ∀ key, sent' key = if ∀ l ∈ s.lookups, l.key ≠ key then 0 else sent key)
    (hback : nicknameKey nickname ∉ s.known →
      (∃ l ∈ s.lookups, l.key = nicknameKey nickname ∧ l.state = .abandoned) →
        s.inFlight < maxLookupsInFlight) :
    Table vacant' sent' (s.scheduleLookup nickname now).1.lookups := by
  have hold : ∀ l ∈ s.lookups, sent' l.key = sent l.key := by
    intro l hl
    rw [hsent, if_neg]
    exact fun hall => hall l hl rfl
  have hkeep : Table vacant' sent' s.lookups := h.congr hold fun l _ hg => .inl (hsub hg)
  unfold scheduleLookup
  dsimp only
  split
  · exact hkeep
  rename_i hknown
  split
  · rename_i hany
    cases hfind : s.lookups.find? (·.key = nicknameKey nickname) with
    | none =>
      rw [List.find?_eq_none] at hfind
      obtain ⟨l, hl, hk⟩ := List.any_eq_true.mp hany
      exact absurd hk (hfind l hl)
    | some l =>
      obtain ⟨pre, post, hsplit, hpre, hkey⟩ := find_middle hfind
      have hl := hkeep.entry l (List.mem_of_find?_eq_some hfind)
      have hk := of_decide_eq_true hkey
      have hback := fun hab => hback hknown ⟨l, List.mem_of_find?_eq_some hfind, hk, hab⟩
      dsimp only
      unfold inFlight at hback
      rw [hsplit] at hback hkeep ⊢
      rw [adjustFirst_middle hpre hkey]
      by_cases hab : l.state = .abandoned
      · rw [if_pos hab]
        exact hkeep.set rfl ⟨hl.named, hl.counted, hl.attempts, (by rintro ⟨⟩),
          fun hg => absurd (hk ▸ hg) hhere⟩ (fun m hm _ => hkeep.entry m hm)
          fun _ => .inr (hback hab)
      · rw [if_neg hab]
        exact hkeep
  rename_i hnone
  split
  · exact hkeep
  · rename_i hroom
    have hne : ∀ l ∈ s.lookups, l.key ≠ nicknameKey nickname := by
      intro l hl hk
      exact hnone (List.any_eq_true.mpr ⟨l, hl, decide_eq_true hk⟩)
    refine hkeep.push hne ⟨rfl, ?_, Nat.zero_le _, fun _ => Nat.two_pos, fun hg => absurd hg hhere⟩
      rfl (not_le.mp hroom)
    exact (hsent _).trans (if_pos hne)

theorem renameLookup_table (h : Table vacant sent s.lookups) {old new : String}
    (hvacant : vacant' = (insert (nicknameKey old) vacant).erase (nicknameKey new))
    (hsent : ∀ key, sent' key = if (∀ l ∈ s.lookups, l.key ≠ key) ∨
      nicknameKey old = key ∧ nicknameKey new = key ∧
        (∃ l ∈ s.lookups, l.key = key ∧ l.state = .waiting) then 0 else sent key)
    (hroom : (∃ l ∈ s.lookups, l.key = nicknameKey old ∧ l.state = .sent) →
      (∀ l ∈ s.lookups, l.key ≠ nicknameKey new) → s.lookups.length < maxLookups) :
    Table vacant' sent' (s.renameLookup old new now).lookups := by
  have hkept : ∀ l ∈ s.lookups, (nicknameKey old = l.key → nicknameKey new = l.key →
      ∀ m ∈ s.lookups, m.key = l.key → m.state ≠ .waiting) → sent' l.key = sent l.key := by
    intro l hl hw
    rw [hsent, if_neg]
    rintro (hall | ⟨ho, hn, m, hm, hk, hs⟩)
    · exact hall l hl rfl
    · exact hw ho hn m hm hk hs
  have hsub : ∀ key, key ∈ vacant' → key = nicknameKey old ∨ key ∈ vacant := by
    intro key hk
    rw [hvacant] at hk
    exact Finset.mem_insert.mp (Finset.mem_of_mem_erase hk)
  have hcancelled := cancelLookup_table (nicknameKey old) now h
  have hnew : nicknameKey new ∉ vacant' := by
    rw [hvacant]
    exact Finset.notMem_erase _ _
  unfold renameLookup
  dsimp only
  rcases cancelLookup_cases s (nicknameKey old) now with
    ⟨hnone, he⟩ | ⟨pre, l, post, hs, hkey, hfind, hcase⟩
  · have hfind : s.lookups.find? (·.key = nicknameKey old) = none := by
      rw [List.find?_eq_none]
      intro l hl
      simpa using hnone l hl
    rw [hfind]
    refine h.congr (fun l hl => hkept l hl fun ho => absurd ho.symm (hnone l hl)) fun l hl hg => ?_
    exact .inl ((hsub _ hg).resolve_left (hnone l hl))
  rw [hfind]
  dsimp only
  have hmem : l ∈ s.lookups := List.mem_of_find?_eq_some hfind
  have hunique : ∀ m ∈ s.lookups, m.key = nicknameKey old → m = l := by
    intro m hm hk
    exact h.eq_of_key hm hmem (hk.trans hkey.symm)
  split
  · rename_i hab
    refine h.congr (fun m hm => hkept m hm fun ho _ m' hm' hk hw => ?_) fun m hm hg => ?_
    · rw [hunique m' hm' (hk.trans ho.symm), hab] at hw
      cases hw
    · rcases hsub _ hg with hk | hg
      · exact .inr (by rw [hunique m hm hk, hab])
      · exact .inl hg
  rename_i hnot
  have hcases : l.state = .waiting ∧ (s.cancelLookup (nicknameKey old) now).lookups = pre ++ post ∨
      l.state = .sent ∧
        (s.cancelLookup (nicknameKey old) now).lookups.map Lookup.key = s.lookups.map Lookup.key := by
    rcases hcase with hw | ⟨hw, he⟩ | ⟨hw, he⟩
    · exact .inl hw
    · exact .inr ⟨hw, by rw [he, hs, List.map_append, List.map_append]; rfl⟩
    · exact absurd hw hnot
  have hgone : l.state = .waiting →
      ∀ m ∈ (s.cancelLookup (nicknameKey old) now).lookups, m.key ≠ nicknameKey old := by
    intro hw m hm
    rcases hcases with ⟨-, he⟩ | ⟨hsent, -⟩
    · rw [he] at hm
      rw [hs] at h
      exact hkey ▸ h.ne_of_mem m hm
    · rw [hw] at hsent
      cases hsent
  have hbase : Table vacant' sent' (s.cancelLookup (nicknameKey old) now).lookups := by
    refine hcancelled.congr (fun m hm => ?_) fun m _ hg => ?_
    · obtain ⟨m', hm', hk⟩ := (cancelLookup_lapses s (nicknameKey old) now).exists_keeps hm
      rw [hk.key]
      refine hkept m' hm' fun ho _ m'' hm'' hk'' hw => ?_
      rw [hunique m'' hm'' (hk''.trans ho.symm)] at hw
      exact hgone hw m hm (hk.key.trans ho.symm)
    · rw [hvacant] at hg
      exact .inl (Finset.mem_of_mem_erase hg)
  split
  · exact hbase
  rename_i hnone
  have hne : ∀ m ∈ (s.cancelLookup (nicknameKey old) now).lookups, m.key ≠ nicknameKey new := by
    intro m hm hk
    exact hnone (List.any_eq_true.mpr ⟨m, hm, decide_eq_true hk⟩)
  refine hbase.push hne ⟨rfl, ?_, Nat.zero_le _, fun _ => Nat.two_pos, fun hg => absurd hg hnew⟩
    rfl ?_
  · refine (hsent _).trans (if_pos ?_)
    by_cases hall : ∀ m ∈ s.lookups, m.key ≠ nicknameKey new
    · exact .inl hall
    · push Not at hall
      obtain ⟨m, hm, hk⟩ := hall
      rcases hcases with ⟨hw, he⟩ | ⟨-, he⟩
      · rw [hs] at hm
        have hml : m = l := by
          rcases List.mem_append.mp hm with hp | hp
          · exact absurd hk (hne m (he ▸ List.mem_append_left _ hp))
          · rcases List.mem_cons.mp hp with hp | hp
            · exact hp
            · exact absurd hk (hne m (he ▸ List.mem_append_right _ hp))
        subst hml
        exact .inr ⟨hkey.symm.trans hk, rfl, m, hmem, hk, hw⟩
      · have hkeys : m.key ∈ s.lookups.map Lookup.key := List.mem_map_of_mem hm
        rw [← he] at hkeys
        obtain ⟨m', hm', hk'⟩ := List.mem_map.mp hkeys
        exact absurd (hk'.trans hk) (hne m' hm')
  · rcases hcases with ⟨-, he⟩ | ⟨hw, he⟩
    · have hlen := h.room
      rw [hs, List.length_append, List.length_cons] at hlen
      rw [he, List.length_append]
      omega
    · have hlen := congrArg List.length he
      rw [List.length_map, List.length_map] at hlen
      rw [hlen]
      refine hroom ⟨l, hmem, hkey, hw⟩ fun m hm hk => ?_
      have hkeys : m.key ∈ s.lookups.map Lookup.key := List.mem_map_of_mem hm
      rw [← he] at hkeys
      obtain ⟨m', hm', hk'⟩ := List.mem_map.mp hkeys
      exact hne m' hm' (hk'.trans hk)

theorem renameLookup_next (s : MetadataState) (old new : String) (now : ℕ) :
    (s.renameLookup old new now).nextLookup = s.nextLookup := by
  unfold renameLookup
  dsimp only
  split
  · rfl
  · split_ifs
    · rfl
    all_goals exact cancelLookup_next ..

theorem scheduleLookup_next (s : MetadataState) (nickname : String) (now : ℕ) :
    (s.scheduleLookup nickname now).1.nextLookup = s.nextLookup := by
  unfold scheduleLookup
  dsimp only
  split_ifs <;> rfl

def sentAt (now : ℕ) (l : Lookup) : Lookup :=
  { l with state := .sent, due := now + lookupTimeout, attempts := l.attempts + 1 }

theorem sendLookup_cases (s : MetadataState) (now : ℕ) :
    s.sendLookup now = (s, []) ∨ ∃ pre l post, s.lookups = pre ++ l :: post ∧
      l.state = .waiting ∧ s.nextLookup.all (· ≤ now) = true ∧ s.inFlight < maxLookupsInFlight ∧
      s.sendLookup now = ({ s with
        lookups := pre ++ sentAt now l :: post
        nextLookup := some (now + lookupInterval) },
        [metadataCommand [l.nickname, "GET", avatarKey]]) := by
  unfold sendLookup
  split
  · rename_i hmay
    cases hmin : (s.lookups.filter fun l => l.state = .waiting ∧ l.due ≤ now).argmin Lookup.due with
    | none => exact .inl rfl
    | some l =>
      right
      obtain ⟨hl, hdue⟩ := List.mem_filter.mp (List.argmin_mem hmin)
      cases hfind : s.lookups.find? (· = l) with
      | none => simpa using List.find?_eq_none.mp hfind l hl
      | some l' =>
        obtain ⟨pre, post, hsplit, hpre, heq⟩ := find_middle hfind
        obtain rfl := of_decide_eq_true heq
        refine ⟨pre, l', post, hsplit, (of_decide_eq_true hdue).1, hmay.1, hmay.2, ?_⟩
        dsimp only
        rw [← adjustFirst_middle (f := sentAt now) hpre heq, ← hsplit]
        rfl
  · exact .inl rfl

theorem tick_cases (s : MetadataState) (now : ℕ) (joined : String → Bool) :
    ∃ L, Lapses s.lookups L ∧
      ((s.tick now joined).1.lookups = L ∧ (s.tick now joined).1.nextLookup = s.nextLookup ∧
        (Call.tick now joined).asked s = [] ∨
      ∃ pre l post, L = pre ++ l :: post ∧ l.state = .waiting ∧
        s.nextLookup.all (· ≤ now) = true ∧ L.countP (·.state = .sent) < maxLookupsInFlight ∧
        (s.tick now joined).1.lookups = pre ++ sentAt now l :: post ∧
        (s.tick now joined).1.nextLookup = some (now + lookupInterval) ∧
        (Call.tick now joined).asked s = [(l.nickname, now)]) := by
  refine ⟨_, Lapses.expired now s.lookups, ?_⟩
  let t : MetadataState := { s with
    syncs := s.syncs.filter (now < ·.due)
    own := s.own.filter (now < ·.deadline)
    lookups := s.lookups.filterMap (expireLookup now) }
  have hlookups : (s.tick now joined).1.lookups = (t.sendLookup now).1.lookups := by
    unfold tick
    dsimp only
    split <;> rfl
  have hnext : (s.tick now joined).1.nextLookup = (t.sendLookup now).1.nextLookup := by
    unfold tick
    dsimp only
    split <;> rfl
  have hasked : (Call.tick now joined).asked s =
      ((t.sendLookup now).2.filterMap lookupTarget).map fun nickname => (nickname, now) := by
    have hsyncs : ∀ syncs : List PendingSync,
        (syncs.map fun sync => metadataCommand [sync.channel, "SYNC"]).filterMap lookupTarget =
          [] := by
      intro syncs
      rw [List.filterMap_eq_nil_iff]
      intro command hc
      obtain ⟨sync, -, rfl⟩ := List.mem_map.mp hc
      rfl
    unfold Call.asked tick
    dsimp only
    rw [List.filterMap_append, hsyncs, List.nil_append]
  rw [hlookups, hnext, hasked]
  rcases sendLookup_cases t now with he | ⟨pre, l, post, hs, hw, hall, hflight, he⟩
  · rw [he]
    exact .inl ⟨rfl, rfl, rfl⟩
  · rw [he]
    refine .inr ⟨pre, l, post, hs, hw, hall, hflight, rfl, rfl, ?_⟩
    simp [lookupTarget, metadataCommand]

end Table

end MetadataState

/-! ## Runs -/

namespace Watch

variable {w : Watch} {c : Call}

/-- What holds throughout a run. -/
structure Sound (w : Watch) : Prop where
  table : Table w.vacant w.sent w.state.lookups
  attempts : ∀ key, w.sent key ≤ maxLookupAttempts
  spaced : w.times.Pairwise fun earlier later => earlier + lookupInterval ≤ later
  next : ∀ time ∈ w.times,
    ∃ next, w.state.nextLookup = some next ∧ time + lookupInterval ≤ next

theorem Sound.limited (h : w.Sound) : w.Limited where
  table := h.table.room
  inFlight := h.table.flight
  once := by
    have hkeys : w.state.lookups.map (fun l => nicknameKey l.nickname) =
        w.state.lookups.map Lookup.key :=
      List.map_congr_left fun l hl => (h.table.entry l hl).named.symm
    rw [hkeys]
    exact h.table.once
  spaced := h.spaced
  attempts := h.attempts

theorem Sound.quiet (h : w.Sound) (ha : c.asked w.state = [])
    (ht : Table (c.vacate w.vacant) (fun key => if c.renews w.state key then 0 else w.sent key)
      (w.state.call c).1.lookups)
    (hn : ∀ next, w.state.nextLookup = some next →
      ∃ next', (w.state.call c).1.nextLookup = some next' ∧ next ≤ next') :
    (w.step c).Sound where
  table := by
    unfold step
    rw [ha]
    simpa using ht
  attempts key := by
    unfold step
    rw [ha]
    dsimp only
    split_ifs
    · exact Nat.zero_le _
    · exact h.attempts key
  spaced := by
    unfold step
    rw [ha]
    simpa using h.spaced
  next time hm := by
    unfold step at hm ⊢
    rw [ha] at hm
    obtain ⟨next, hnext, hle⟩ := h.next time (by simpa using hm)
    obtain ⟨next', hnext', hle'⟩ := hn next hnext
    exact ⟨next', hnext', hle.trans hle'⟩

theorem renews_iff (w : Watch) (key : String) (hn : c.names = none) :
    c.renews w.state key ↔ ∀ l ∈ w.state.lookups, l.key ≠ key := by
  unfold Call.renews
  rw [hn]
  simp

theorem sent_of_mem (hn : c.names = none) {l : Lookup} (hl : l ∈ w.state.lookups) :
    (if c.renews w.state l.key then 0 else w.sent l.key) = w.sent l.key := by
  rw [if_neg]
  rw [renews_iff _ _ hn]
  exact fun hall => hall l hl rfl

theorem Sound.carried (h : w.Sound) (hn : c.names = none) (hv : c.vacate w.vacant ⊆ w.vacant) :
    Table (c.vacate w.vacant) (fun key => if c.renews w.state key then 0 else w.sent key)
      w.state.lookups :=
  h.table.congr (fun _ hl => sent_of_mem hn hl) fun _ _ hg => .inl (hv hg)

theorem Sound.eases (h : w.Sound) (ha : c.asked w.state = []) (hn : c.names = none)
    (hv : c.vacate w.vacant ⊆ w.vacant) (he : w.state.Eases (w.state.call c).1) :
    (w.step c).Sound :=
  h.quiet ha ((h.carried hn hv).lapses he.lookups) fun next hnext =>
    ⟨next, he.next.trans hnext, Nat.le_refl _⟩

theorem Sound.observe (h : w.Sound) {message : IrcMessage} {now : ℕ} {currentNick : String}
    {joined : String → Bool}
    (ha : w.Admitted (.observe message now currentNick joined)) :
    (w.step (.observe message now currentNick joined)).Sound := by
  have hsub : (Call.observe message now currentNick joined).vacate w.vacant ⊆ w.vacant :=
    Finset.Subset.refl _
  have hcall : (w.state.call (.observe message now currentNick joined)).1 =
      (((w.state.observe message now currentNick joined).map fun r => (r.1, r.2.events)).getD
        (w.state, [])).1 := rfl
  cases hr : w.state.observe message now currentNick joined with
  | none =>
    rw [hr] at hcall
    apply h.eases rfl rfl hsub
    rw [hcall]
    exact MetadataState.Eases.of_eq rfl rfl
  | some r =>
    rw [hr] at hcall
    rcases MetadataState.observe_eases hr with he | ⟨target, params, ht, he⟩
    · apply h.eases rfl rfl hsub
      rw [hcall]
      exact he
    · have hlimited := MetadataState.lookupFailure_table now (h.carried rfl hsub) params
        (ha.limited target ht)
      rw [← he] at hlimited
      refine h.quiet rfl ?_ ?_
      · rw [hcall]
        exact hlimited
      · rw [hcall]
        change ∀ next, w.state.nextLookup = some next →
          ∃ next', r.1.nextLookup = some next' ∧ next ≤ next'
        rw [he]
        exact MetadataState.lookupFailure_next _ _ _ _

theorem Sound.lifecycle (h : w.Sound) {message : IrcMessage} {presence : PresenceIndex}
    {currentNick : String} {replayed : Bool} {now : ℕ}
    (ha : w.Admitted (.lifecycle message presence currentNick replayed now)) :
    (w.step (.lifecycle message presence currentNick replayed now)).Sound := by
  have hcall : (w.state.call (.lifecycle message presence currentNick replayed now)).1 =
      (w.state.lifecycle message presence currentNick replayed now).1 := rfl
  rcases w.state.lifecycle_cases message presence currentNick replayed now with
    ⟨he, hn, hv⟩ | ⟨actor, hj, hn, he, hv⟩ | ⟨old, new, hn, hl, hnext, hv⟩ |
    ⟨gone, hn, hl, hnext, hv⟩
  · apply h.eases rfl hn (hv _)
    rw [hcall, he]
    exact MetadataState.Eases.of_eq rfl rfl
  · refine h.quiet rfl ?_ fun next hnext => ⟨next, ?_, Nat.le_refl _⟩
    · rw [hcall, he]
      have hscheduled := fun key => if_congr (renews_iff w key hn)
        (Eq.refl 0) (Eq.refl (w.sent key))
      refine MetadataState.scheduleLookup_table h.table ?_ ?_ hscheduled (ha.back actor hj)
      · rw [hv]
        exact Finset.erase_subset _ _
      · rw [hv]
        exact Finset.notMem_erase _ _
    · rw [hcall, he, MetadataState.scheduleLookup_next, hnext]
  · refine h.quiet rfl ?_ fun next hnext' => ⟨next, ?_, Nat.le_refl _⟩
    · rw [hcall, hl]
      refine MetadataState.renameLookup_table h.table (hv _) (fun key => ?_) (ha.renamed _ hn)
      refine if_congr ?_ rfl rfl
      unfold Call.renews
      rw [hn]
      simp
    · rw [hcall, hnext, MetadataState.renameLookup_next, hnext']
  · refine h.quiet rfl ?_ fun next hnext' => ⟨next, ?_, Nat.le_refl _⟩
    · rw [hcall, hl, hv]
      refine MetadataState.cancelLookups_table ?_ gone
      exact h.table.congr (fun _ hl => sent_of_mem hn hl) fun _ _ hg => .inl hg
    · rw [hcall, hnext, MetadataState.cancelLookups_next, hnext']

theorem Sound.tick (h : w.Sound) (now : ℕ) (joined : String → Bool) :
    (w.step (.tick now joined)).Sound ∧ w.Wanted (.tick now joined) := by
  obtain ⟨L, hlapses, ⟨hl, hnext, ha⟩ | ⟨pre, l, post, rfl, hw, hall, hflight, hl, hnext, ha⟩⟩ :=
    w.state.tick_cases now joined
  · constructor
    · exact h.eases ha rfl (Finset.Subset.refl _) ⟨hl ▸ hlapses, hnext⟩
    · unfold Wanted
      rw [ha]
      simp
  have ht := (h.carried (c := .tick now joined) rfl (Finset.Subset.refl _)).lapses hlapses
  have hentry := ht.entry l (by simp)
  have hvacant : (Call.tick now joined).vacate w.vacant = w.vacant := rfl
  rw [hvacant] at ht hentry
  have hstep : (w.step (.tick now joined)).sent = fun key =>
      (if (Call.tick now joined).renews w.state key then 0 else w.sent key) +
        [nicknameKey l.nickname].count key := by
    unfold step
    rw [ha]
    rfl
  have htimes : (w.step (.tick now joined)).times = w.times ++ [now] := by
    unfold step
    rw [ha]
    rfl
  have hpast : ∀ time ∈ w.times, time + lookupInterval ≤ now := by
    intro time hm
    obtain ⟨next, hn, hle⟩ := h.next time hm
    rw [hn] at hall
    exact hle.trans (by simpa using hall)
  have hgone : l.key ∉ w.vacant := by
    intro hg
    have hab := hentry.gone hg
    rw [hw] at hab
    cases hab
  have hsent : (w.step (.tick now joined)).sent l.key = l.attempts + 1 := by
    have hcounted := hentry.counted
    rw [hstep]
    dsimp only at hcounted ⊢
    rw [hcounted, hentry.named, List.count_singleton_self]
  have hother : ∀ key, key ≠ l.key → (w.step (.tick now joined)).sent key =
      if (Call.tick now joined).renews w.state key then 0 else w.sent key := by
    intro key hk
    have hcount : [nicknameKey l.nickname].count key = 0 := by
      rw [List.count_eq_zero, List.mem_singleton, ← hentry.named]
      exact hk
    rw [hstep]
    dsimp only
    rw [hcount, Nat.add_zero]
  have htry : l.attempts + 1 ≤ maxLookupAttempts := hentry.another hw
  constructor
  · constructor
    · change Table w.vacant _ (w.state.tick now joined).1.lookups
      rw [hl]
      refine ht.set rfl ⟨hentry.named, hsent, htry, by rintro ⟨⟩, fun hg => absurd hg hgone⟩ ?_
        fun _ => .inr hflight
      intro m hm hne
      have hm := ht.entry m hm
      exact ⟨hm.named, (hother _ hne).trans hm.counted, hm.attempts, hm.another, hm.gone⟩
    · intro key
      by_cases hk : key = l.key
      · rw [hk, hsent]
        exact htry
      · rw [hother key hk]
        split_ifs
        · exact Nat.zero_le _
        · exact h.attempts key
    · rw [htimes, List.pairwise_append]
      refine ⟨h.spaced, List.pairwise_singleton _ _, fun time hm later hlater => ?_⟩
      rw [List.mem_singleton.mp hlater]
      exact hpast time hm
    · intro time hm
      refine ⟨now + lookupInterval, hnext, ?_⟩
      rw [htimes] at hm
      rcases List.mem_append.mp hm with hm | hm
      · exact (hpast time hm).trans (Nat.le_add_right _ _)
      · rw [List.mem_singleton.mp hm]
  · intro asked hm
    rw [ha] at hm
    rw [List.mem_singleton.mp hm, ← hentry.named]
    exact hgone

theorem Sound.step (h : w.Sound) (hc : c ≠ .reset) (ha : w.Admitted c) :
    (w.step c).Sound ∧ w.Wanted c := by
  have hquiet : c.asked w.state = [] → w.Wanted c := by
    intro hnone asked hm
    rw [hnone] at hm
    cases hm
  cases c with
  | tick now joined => exact h.tick now joined
  | observe message now currentNick joined => exact ⟨h.observe ha, hquiet rfl⟩
  | lifecycle message presence currentNick replayed now => exact ⟨h.lifecycle ha, hquiet rfl⟩
  | reset => exact absurd rfl hc
  | start now =>
    refine ⟨h.eases rfl rfl (Finset.Subset.refl _) ?_, hquiet rfl⟩
    unfold MetadataState.call MetadataState.start
    dsimp only
    split <;> exact MetadataState.Eases.of_eq rfl rfl
  | requestOwn request value available now =>
    refine ⟨h.eases rfl rfl (Finset.Subset.refl _) ?_, hquiet rfl⟩
    unfold MetadataState.call MetadataState.requestOwn
    dsimp only
    split_ifs <;> exact MetadataState.Eases.of_eq rfl rfl
  | forgetChannel channel =>
    exact ⟨h.eases rfl rfl (Finset.Subset.refl _) (MetadataState.Eases.of_eq rfl rfl), hquiet rfl⟩
  | setCasemapping casemapping =>
    exact ⟨h.eases rfl rfl (Finset.Subset.refl _) (MetadataState.Eases.of_eq rfl rfl), hquiet rfl⟩

theorem sound_new (utf8 : Bool) : Sound ⟨{ utf8 }, [], fun _ => 0, ∅⟩ where
  table :=
    { entry := by rintro l ⟨⟩
      once := List.nodup_nil
      room := Nat.zero_le _
      flight := Nat.zero_le _ }
  attempts _ := Nat.zero_le _
  spaced := List.Pairwise.nil
  next := by rintro time ⟨⟩

end Watch

def watch (utf8 : Bool) : Watch := { state := { utf8 } }

/-- In every run in which there is room where lookups enter the table or are taken up again without
a check, the lookups stay within their limits, and none is sent for a user who is gone. -/
theorem lookups_limited (utf8 : Bool) (calls : List Call) (hreset : .reset ∉ calls)
    (hadmitted : Along Watch.Admitted Watch.step (watch utf8) calls) :
    (exec Watch.step (watch utf8) calls).Limited ∧
      Along Watch.Wanted Watch.step (watch utf8) calls := by
  have hcalls : Along (fun _ c => c ≠ .reset) Watch.step (watch utf8) calls :=
    along_of_mem fun c hc _ he => hreset (he ▸ hc)
  have hboth := hcalls.and hadmitted
  constructor
  · exact (exec_invariant Watch.Sound (fun w c h hc => (h.step hc.1 hc.2).1)
      (Watch.sound_new utf8) hboth).limited
  · exact Along.of_invariant Watch.Sound (fun w c h hc => (h.step hc.1 hc.2).1)
      (fun w c h hc => (h.step hc.1 hc.2).2) (Watch.sound_new utf8) hboth

def Call.ofUser (nickname : String) (command : IrcCommand) (now : ℕ) : Call :=
  .lifecycle ⟨none, some (.nickname nickname "u" "h"), command⟩ {} "me" false now

def Call.tickAt (now : ℕ) : Call := .tick now fun _ => true

def joinersLookedUp (joiners sent : ℕ) : List Call :=
  .start 0 :: (List.range joiners).map (fun n =>
    .ofUser ("u" ++ toString n) (.join "#c" none none) 0) ++
    (List.range sent).map fun n => .tickAt (2000 + 500 * n)

def departedRateLimited : List Call :=
  joinersLookedUp 1 1 ++
    [.ofUser "u0" (.quit none) 2000,
      .observe ⟨none, none, .raw "FAIL" ["METADATA", "RATE_LIMITED", "u0", "avatar", "10", "slow"]⟩
        2000 "me" fun _ => true]

/-- A full table takes a user with a new nickname in. A lookup of a user who comes back is in
flight beside as many as may be. A user who quit is looked up again. -/
theorem lookups_not_limited :
    (¬ ∀ calls, .reset ∉ calls →
      (exec Watch.step (watch true) calls).state.lookups.length ≤ maxLookups) ∧
    (¬ ∀ calls, .reset ∉ calls →
      (exec Watch.step (watch true) calls).state.inFlight ≤ maxLookupsInFlight) ∧
    ¬ ∀ calls, .reset ∉ calls → Along Watch.Wanted Watch.step (watch true) calls := by
  refine ⟨fun h => ?_, fun h => ?_, fun h => ?_⟩
  · have hfull := h (joinersLookedUp 64 1 ++ [.ofUser "u0" (.nick "v0") 2000])
      (by simp [joinersLookedUp, Call.ofUser, Call.tickAt])
    revert hfull
    decide +kernel
  · have hback := h (joinersLookedUp 9 8 ++ [.ofUser "u0" (.quit none) 5500, .tickAt 6000,
      .ofUser "u0" (.join "#c" none none) 6000])
      (by simp [joinersLookedUp, Call.ofUser, Call.tickAt])
    revert hback
    decide +kernel
  · have hgone := h (departedRateLimited ++ [.tickAt 12000])
      (by simp [departedRateLimited, joinersLookedUp, Call.ofUser, Call.tickAt])
    revert hgone
    decide +kernel

/-- A user who is there and rate limited is looked up again. -/
theorem lookups_limited_retry :
    (exec Watch.step (watch true) (joinersLookedUp 1 1 ++
      [.observe ⟨none, none, .raw "FAIL" ["METADATA", "RATE_LIMITED", "u0", "avatar", "10", "slow"]⟩
        2000 "me" fun _ => true, .tickAt 12000])).Limited :=
  (lookups_limited true _ (by simp [joinersLookedUp, Call.ofUser, Call.tickAt])
    (by decide +kernel)).1

end CayenChat.Avatars
