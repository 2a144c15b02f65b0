import CayenChat.Presence.Index

/-! # What the calls do to the tables

The effect of each part of a call on the users, one user at a time, and on
the channels. The nicknames follow from the users, so that it is enough to
know that they do.
-/

namespace CayenChat

namespace Presence

def outside (c : String) (pr : Presence) : Option Presence :=
  let channels := pr.channels.filter (· != c)
  if channels.isEmpty then none else some { pr with channels := channels }

variable {pr pr' : Presence} {c d : String}

theorem spell_eq (nickname : String) : pr.spell nickname = { pr with nick := nickname } := by
  unfold spell
  split_ifs with h
  · rw [← h]
  · rfl

@[simp] theorem enter_key : (pr.enter c).key = pr.key := by unfold enter; split <;> rfl
@[simp] theorem enter_nick : (pr.enter c).nick = pr.nick := by unfold enter; split <;> rfl

theorem mem_enter : d ∈ (pr.enter c).channels ↔ d ∈ pr.channels ∨ d = c := by
  unfold enter
  split_ifs with h
  · have hc : c ∈ pr.channels := by simpa using h
    constructor
    · exact Or.inl
    · rintro (h | rfl)
      · exact h
      · exact hc
  · simp

theorem nodup_enter (h : pr.channels.Nodup) : (pr.enter c).channels.Nodup := by
  unfold enter
  split_ifs with hc
  · exact h
  · have hc : c ∉ pr.channels := by simpa using hc
    exact h.append (List.nodup_singleton c) (List.disjoint_singleton.mpr hc)

theorem enter_enter : (pr.enter c).enter c = pr.enter c := by
  rw [enter, if_pos]
  simpa using mem_enter.mpr (Or.inr rfl)

theorem outside_eq_some : pr.outside c = some pr' ↔
    pr' = { pr with channels := pr.channels.filter (· != c) } ∧ pr'.channels ≠ [] := by
  unfold outside
  dsimp only
  split_ifs with h
  · simp only [false_iff, not_and, not_not]
    rintro rfl
    exact List.isEmpty_iff.mp h
  · simp only [Option.some.injEq, eq_comm (a := pr')]
    exact (and_iff_left_of_imp fun he => he ▸ by simpa using h).symm

theorem outside_of_notMem (hc : c ∉ pr.channels) (h : pr.channels ≠ []) :
    pr.outside c = some pr := by
  refine outside_eq_some.mpr ⟨?_, h⟩
  rw [List.filter_eq_self.mpr fun d hd => by
    rw [bne_iff_ne]; rintro rfl; exact hc hd]

theorem outside_outside : (pr.outside c).bind (outside c) = pr.outside c := by
  cases h : pr.outside c with
  | none => rfl
  | some pr' =>
    obtain ⟨rfl, hne⟩ := outside_eq_some.mp h
    exact outside_of_notMem (by simp) hne

end Presence

def Members.without (id : UserId) (m : Members) : Members := { m with users := m.users.erase id }

namespace PresenceIndex

variable {p p' : PresenceIndex} {id i : UserId} {c k : String}

def Named (p : PresenceIndex) : Prop :=
  ∀ k id, p.byNick.lookup k = some id ↔ (p.users.lookup id).map Presence.key = some k

theorem Named.lookup (h : p.Named) {pr : Presence} (hp : p.users.lookup id = some pr) :
    p.byNick.lookup pr.key = some id :=
  (h _ _).mpr (by rw [hp, Option.map_some])

theorem Named.inj (h : p.Named) {pr pr' : Presence} (hp : p.users.lookup id = some pr)
    (hp' : p.users.lookup i = some pr') (hk : pr.key = pr'.key) : id = i := by
  have hi := h.lookup hp
  rw [hk, h.lookup hp'] at hi
  exact (Option.some.inj hi).symm

theorem Named.of_keys (h : p.Named) (hn : p'.byNick = p.byNick)
    (hu : ∀ i, (p'.users.lookup i).map Presence.key = (p.users.lookup i).map Presence.key) :
    p'.Named := fun k i => by rw [hn, hu, h]

theorem forget_users : (p.forget id).users.lookup i =
    if i = id then none else p.users.lookup i := by
  unfold forget
  cases h : p.users.lookup id with
  | some pr => exact Map.lookup_erase
  | none =>
    split_ifs with hi
    · rw [hi, h]
    · rfl

@[simp] theorem forget_next : (p.forget id).next = p.next := by unfold forget; split <;> rfl
@[simp] theorem forget_casemapping : (p.forget id).casemapping = p.casemapping := by
  unfold forget; split <;> rfl

theorem forget_channels
    (h : ∀ c m, p.channels.lookup c = some m → id ∈ m.users →
      ∃ pr, p.users.lookup id = some pr ∧ c ∈ pr.channels) :
    (p.forget id).channels.lookup c = (p.channels.lookup c).map (Members.without id) := by
  have hout {m : Members} (hm : id ∉ m.users) : m.without id = m := by
    rw [Members.without, Finset.erase_eq_of_notMem hm]
  unfold forget
  cases hp : p.users.lookup id with
  | some pr =>
    have ht (m : Members) : ((m.without id).without id) = m.without id :=
      hout (Finset.notMem_erase _ _)
    refine (Map.lookup_foldl_adjust ht pr.channels).trans ?_
    split_ifs with hc
    · rfl
    · cases hm : p.channels.lookup c with
      | none => rfl
      | some m =>
        rw [Option.map_some, hout fun hi => ?_]
        obtain ⟨pr', hp', hc'⟩ := h c m hm hi
        rw [hp] at hp'
        cases hp'
        exact hc hc'
  | none =>
    dsimp only
    cases hm : p.channels.lookup c with
    | none => rfl
    | some m =>
      rw [Option.map_some, hout fun hi => ?_]
      obtain ⟨pr', hp', _⟩ := h c m hm hi
      rw [hp] at hp'
      cases hp'

theorem Named.forget (h : p.Named) : (p.forget id).Named := by
  intro k i
  rw [forget_users]
  unfold PresenceIndex.forget
  cases hp : p.users.lookup id with
  | some pr =>
    dsimp only
    rw [Map.lookup_erase]
    by_cases hk : k = pr.key
    · subst hk
      simp only [if_true, reduceCtorEq, false_iff]
      split_ifs with hi
      · simp
      · intro hk'
        exact hi (Option.some.inj (((h _ _).mpr hk').symm.trans (h.lookup hp)))
    · rw [if_neg hk, h]
      split_ifs with hi
      · subst hi
        simpa [hp] using fun hk' => hk hk'.symm
      · rfl
  | none =>
    dsimp only
    rw [h]
    split_ifs with hi
    · rw [hi, hp]
    · rfl

/-- What users leaving a channel does to the tables. -/
structure Leaves (c : String) (ids : List UserId) (p p' : PresenceIndex) : Prop where
  users : ∀ i, p'.users.lookup i =
    if i ∈ ids then (p.users.lookup i).bind (Presence.outside c) else p.users.lookup i
  channels : p'.channels = p.channels
  next : p'.next = p.next
  casemapping : p'.casemapping = p.casemapping
  named : p.Named → p'.Named

theorem leave_leaves : Leaves c [id] p (p.leave id c) := by
  cases hp : p.users.lookup id with
  | none =>
    simp only [leave, hp]
    refine ⟨fun i => ?_, rfl, rfl, rfl, fun h => h⟩
    split_ifs with hi
    · rw [List.mem_singleton.mp hi, hp]; rfl
    · rfl
  | some pr =>
    let pr' : Presence := { pr with channels := pr.channels.filter (· != c) }
    let q : PresenceIndex := { p with users := p.users.insert id pr' }
    have hq (i : UserId) : q.users.lookup i = if i = id then some pr' else p.users.lookup i :=
      Map.lookup_insert
    have hqn (h : p.Named) : q.Named := h.of_keys rfl fun i => by
      rw [hq]
      split_ifs with hi
      · rw [hi, hp]; rfl
      · rfl
    have hl : p.leave id c = if pr'.channels.isEmpty then q.forget id else q := by
      simp only [leave, hp, q, pr']
    rw [hl]
    by_cases he : pr'.channels.isEmpty
    · have hout : pr.outside c = none := by rw [Presence.outside]; exact if_pos he
      have hqid : q.users.lookup id = some pr' := by rw [hq, if_pos rfl]
      rw [if_pos he]
      refine ⟨fun i => ?_, ?_, forget_next, forget_casemapping, fun h => (hqn h).forget⟩
      · simp only [forget_users, hq, List.mem_singleton]
        split_ifs with hi
        · rw [hi, hp, Option.bind_some, hout]
        · rfl
      · simp only [forget, hqid, List.isEmpty_iff.mp he, List.foldl_nil]
        rfl
    · have hout : pr.outside c = some pr' := by rw [Presence.outside]; exact if_neg he
      rw [if_neg he]
      refine ⟨fun i => ?_, rfl, rfl, rfl, hqn⟩
      simp only [hq, List.mem_singleton]
      split_ifs with hi
      · rw [hi, hp, Option.bind_some, hout]
      · rfl

theorem leaves_foldl (ids : List UserId) :
    Leaves c ids p (ids.foldl (fun p id => p.leave id c) p) := by
  induction ids generalizing p with
  | nil => exact ⟨fun i => by simp, rfl, rfl, rfl, fun h => h⟩
  | cons id ids ih =>
    have hl : Leaves c [id] p (p.leave id c) := leave_leaves
    have hr := ih (p := p.leave id c)
    refine ⟨fun i => ?_, hr.channels.trans hl.channels, hr.next.trans hl.next,
      hr.casemapping.trans hl.casemapping, fun h => hr.named (hl.named h)⟩
    rw [List.foldl_cons, hr.users, hl.users]
    by_cases hi : i = id <;> by_cases his : i ∈ ids <;>
      simp [hi, his, Option.bind_assoc, Presence.outside_outside]

end PresenceIndex

end CayenChat
