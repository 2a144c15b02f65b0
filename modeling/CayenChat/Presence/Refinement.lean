import CayenChat.Presence.Regrouping

/-! # The index refines a set of memberships

Every call does to the memberships, nicknames and numbers that the index
holds what it is meant to do, and the questions the index answers are answered
from them.
-/

namespace CayenChat

namespace PresenceIndex

variable {p p' q : PresenceIndex} {i id : UserId} {c n k : String} {pr : Presence}
  {call : PresenceCall} {order : Iteration}

theorem Named.lookup_iff (h : p.Named) :
    p.byNick.lookup k = some id ↔ ∃ pr, p.users.lookup id = some pr ∧ pr.key = k := by
  rw [h, Option.map_eq_some_iff]

/-- The memberships with identities an index holds. -/
def Consistent.roster (h : p.Consistent) : Roster where
  casemapping := p.casemapping
  spelled c := (p.channels.lookup c).map Members.name
  members := {x | ∃ i pr, p.users.lookup i = some pr ∧ pr.key = x.2 ∧ x.1 ∈ pr.channels}
  nick n := ((p.byNick.lookup n).bind fun id => p.users.lookup id).map Presence.nick
  ident n := p.byNick.lookup n
  given := {i | i < p.next}
  fold_spelled {c name} hs := by
    obtain ⟨m, hm, rfl⟩ := Option.map_eq_some_iff.mp hs
    exact (h.keyed hm).2
  held {c n} hx := by
    obtain ⟨i, pr, hu, _, hc⟩ := hx
    obtain ⟨m, hm, _⟩ := (h.mem_iff hu).mp hc
    rw [hm]
    rfl
  ident_isSome {n} := by
    rw [Option.isSome_iff_exists]
    constructor
    · rintro ⟨i, hi⟩
      obtain ⟨pr, hu, hk⟩ := h.named.lookup_iff.mp hi
      obtain ⟨c, hc⟩ := List.exists_mem_of_ne_nil _ (h.somewhere hu)
      exact ⟨c, i, pr, hu, hk, hc⟩
    · rintro ⟨c, i, pr, hu, hk, _⟩
      exact ⟨i, h.named.lookup_iff.mpr ⟨pr, hu, hk⟩⟩
  ident_inj {n n' id} hn hn' := by
    rw [h.named] at hn hn'
    exact Option.some.inj (hn.symm.trans hn')
  ident_given {n id} hn := by
    obtain ⟨pr, hu, _⟩ := h.named.lookup_iff.mp hn
    exact h.fresh id pr hu
  key_nick {n x} hx := by
    obtain ⟨pr, hu, rfl⟩ := Option.map_eq_some_iff.mp hx
    obtain ⟨i, hi, hu⟩ := Option.bind_eq_some_iff.mp hu
    obtain ⟨pr', hu', hk⟩ := h.named.lookup_iff.mp hi
    rw [hu] at hu'
    cases hu'
    rw [h.key_nick hu, hk]
  nick_isSome {n} := by
    rw [Option.isSome_map]
    constructor
    · intro hs
      obtain ⟨pr, hs⟩ := Option.isSome_iff_exists.mp hs
      obtain ⟨i, hi, hu⟩ := Option.bind_eq_some_iff.mp hs
      obtain ⟨pr', hu', hk⟩ := h.named.lookup_iff.mp hi
      obtain ⟨c, hc⟩ := List.exists_mem_of_ne_nil _ (h.somewhere hu')
      exact ⟨c, i, pr', hu', hk, hc⟩
    · rintro ⟨c, i, pr, hu, hk, _⟩
      rw [h.named.lookup_iff.mpr ⟨pr, hu, hk⟩, Option.bind_some, hu]
      rfl

namespace Consistent

variable (h : p.Consistent) (h' : p'.Consistent)

@[simp] theorem roster_casemapping : h.roster.casemapping = p.casemapping := rfl

theorem ident_iff : h.roster.ident n = some id ↔
    ∃ pr, p.users.lookup id = some pr ∧ pr.key = n := h.named.lookup_iff

theorem mem_present : n ∈ h.roster.present ↔ ∃ i pr, p.users.lookup i = some pr ∧ pr.key = n := by
  rw [Roster.present_iff]
  exact exists_congr fun i => h.ident_iff

theorem nick_of_lookup (hu : p.users.lookup i = some pr) :
    h.roster.nick pr.key = some pr.nick := by
  have hn : h.roster.nick pr.key =
      ((p.byNick.lookup pr.key).bind fun id => p.users.lookup id).map Presence.nick := rfl
  rw [hn, h.named.lookup hu, Option.bind_some, hu, Option.map_some]

theorem mem_members : (c, n) ∈ h.roster.members ↔
    ∃ m, p.channels.lookup c = some m ∧ ∃ i ∈ m.users, p.byNick.lookup n = some i := by
  constructor
  · rintro ⟨i, pr, hu, hk, hc⟩
    obtain ⟨m, hm, hi⟩ := (h.mem_iff hu).mp hc
    exact ⟨m, hm, i, hi, h.named.lookup_iff.mpr ⟨pr, hu, hk⟩⟩
  · rintro ⟨m, hm, i, hi, hn⟩
    obtain ⟨pr, hu, hk⟩ := h.named.lookup_iff.mp hn
    exact ⟨i, pr, hu, hk, (h.mem_iff hu).mpr ⟨m, hm, hi⟩⟩

/-- A call is a step of the roster, once every user after it is either carried over from before or
new. -/
theorem roster_step (hcm : p'.casemapping = h.roster.casemappingAfter call)
    (hs : ∀ c, h.roster.SpelledAfter call c ((p'.channels.lookup c).map Members.name))
    (hm : ∀ c n, (c, n) ∈ h'.roster.members ↔ (c, n) ∈ h.roster.membersAfter call)
    (hn : p.next ≤ p'.next)
    (hu : ∀ i pr', p'.users.lookup i = some pr' →
      h.roster.nickAfter call pr'.key = some pr'.nick ∧
      ((∃ pr, p.users.lookup i = some pr ∧ h.roster.Carries call pr.key pr'.key) ∨
        (p.next ≤ i ∧ ∀ n ∈ h.roster.present, ¬h.roster.Carries call n pr'.key))) :
    h.roster.Step call h'.roster where
  casemapping := hcm
  spelled := hs
  members := by
    ext ⟨c, n⟩
    exact hm c n
  nick n hp := by
    obtain ⟨i, pr', hu', rfl⟩ := h'.mem_present.mp hp
    rw [h'.nick_of_lookup hu', (hu i pr' hu').1]
  kept {n n'} hp hp' hc := by
    obtain ⟨i, pr', hu', rfl⟩ := h'.mem_present.mp hp'
    rcases (hu i pr' hu').2 with ⟨pr, hu₀, hc'⟩ | ⟨_, hnew⟩
    · rw [hc.unique hc' hp (h.mem_present.mpr ⟨i, pr, hu₀, rfl⟩)]
      rw [h.ident_iff.mpr ⟨pr, hu₀, rfl⟩]
      exact h'.ident_iff.mpr ⟨pr', hu', rfl⟩
    · exact absurd hc (hnew n hp)
  started {n' id} hnc hid := by
    obtain ⟨pr', hu', rfl⟩ := h'.ident_iff.mp hid
    rcases (hu id pr' hu').2 with ⟨pr, hu₀, hc⟩ | ⟨hlt, _⟩
    · exact absurd hc (hnc pr.key (h.mem_present.mpr ⟨id, pr, hu₀, rfl⟩))
    · exact Nat.not_lt.mpr hlt
  given := fun i (hi : i < p.next) => hi.trans_le hn

theorem step_refl (hcm : p.casemapping = h.roster.casemappingAfter call)
    (hs : ∀ c, h.roster.SpelledAfter call c (h.roster.spelled c))
    (hm : h.roster.membersAfter call = h.roster.members)
    (hn : ∀ n ∈ h.roster.present, h.roster.nickAfter call n = h.roster.nick n ∧
      h.roster.Carries call n n) : h.roster.Step call h.roster := by
  refine h.roster_step h hcm hs (fun c n => by rw [hm]) le_rfl fun i pr hu => ?_
  obtain ⟨ha, hc⟩ := hn pr.key (h.mem_present.mpr ⟨i, pr, hu, rfl⟩)
  exact ⟨ha.trans (h.nick_of_lookup hu), Or.inl ⟨pr, hu, hc⟩⟩

theorem quit_users (h : p.Consistent) {nickname : String} {pr : Presence} :
    (p.quit nickname).users.lookup i = some pr ↔
      p.users.lookup i = some pr ∧ pr.key ≠ nicknameKey nickname := by
  unfold PresenceIndex.quit
  cases hn : p.user nickname with
  | none =>
    refine (and_iff_left_of_imp fun hu hk => ?_).symm
    have hi : p.user nickname = some i := h.named.lookup_iff.mpr ⟨pr, hu, hk⟩
    rw [hn] at hi
    cases hi
  | some id =>
    obtain ⟨pr₀, hu₀, hk₀⟩ := h.named.lookup_iff.mp hn
    dsimp only
    rw [forget_users]
    split_ifs with hi
    · subst hi
      simpa [hu₀, ← hk₀, eq_comm] using fun he : pr = pr₀ => congrArg Presence.key he
    · refine (and_iff_left_of_imp fun hu hk => hi ?_).symm
      exact h.named.inj hu hu₀ (hk.trans hk₀.symm)

theorem quit_step (nickname : String) : h.roster.Step (.quit nickname) (h.quit nickname).roster := by
  have hf : (p.quit nickname).casemapping = p.casemapping ∧ (p.quit nickname).next = p.next ∧
      ∀ c, ((p.quit nickname).channels.lookup c).map Members.name =
        (p.channels.lookup c).map Members.name := by
    unfold PresenceIndex.quit
    split
    · exact ⟨forget_casemapping, forget_next, fun c => h.forget_names⟩
    · exact ⟨rfl, rfl, fun c => rfl⟩
  refine h.roster_step _ hf.1 hf.2.2 (fun c n => ?_) hf.2.1.ge fun i pr hu => ?_
  · constructor
    · rintro ⟨i, pr, hu, rfl, hc⟩
      obtain ⟨hu, hk⟩ := h.quit_users.mp hu
      exact ⟨⟨i, pr, hu, rfl, hc⟩, hk⟩
    · rintro ⟨⟨i, pr, hu, rfl, hc⟩, hk⟩
      exact ⟨i, pr, h.quit_users.mpr ⟨hu, hk⟩, rfl, hc⟩
  · obtain ⟨hu, _⟩ := h.quit_users.mp hu
    exact ⟨h.nick_of_lookup hu, Or.inl ⟨pr, hu, rfl⟩⟩

theorem removeChannel_step {channel : String} (hr : Removed (p.channelKey channel) p p') :
    h.roster.Step (.removeChannel channel) h'.roster := by
  have hu {i : UserId} {pr : Presence} : p'.users.lookup i = some pr ↔
      ∃ pr₀, p.users.lookup i = some pr₀ ∧
        pr = { pr₀ with channels := pr₀.channels.filter (· != p.channelKey channel) } ∧
        pr.channels ≠ [] := by
    rw [hr.users, Option.bind_eq_some_iff]
    simp only [Presence.outside_eq_some]
  refine h.roster_step h' hr.casemapping (fun c => ?_) (fun c n => ?_) hr.next.ge
    fun i pr hi => ?_
  · rw [hr.channels]
    change _ = if c = p.channelKey channel then none else (p.channels.lookup c).map Members.name
    split_ifs <;> rfl
  · constructor
    · rintro ⟨i, pr, hi, rfl, hc⟩
      obtain ⟨pr₀, hu₀, rfl, _⟩ := hu.mp hi
      obtain ⟨hc, hne⟩ := List.mem_filter.mp hc
      exact ⟨⟨i, pr₀, hu₀, rfl, hc⟩, bne_iff_ne.mp hne⟩
    · rintro ⟨⟨i, pr, hi, rfl, hc⟩, hne⟩
      have hm : c ∈ pr.channels.filter (· != p.channelKey channel) :=
        List.mem_filter.mpr ⟨hc, bne_iff_ne.mpr hne⟩
      exact ⟨i, _, hu.mpr ⟨pr, hi, rfl, List.ne_nil_of_mem hm⟩, rfl, hm⟩
  · obtain ⟨pr₀, hu₀, rfl, _⟩ := hu.mp hi
    have hn := h.nick_of_lookup hu₀
    exact ⟨hn, Or.inl ⟨pr₀, hu₀, rfl⟩⟩

theorem rename_step {old new : String} (hr : Renamed old new id p p') :
    h.roster.Step (.rename old new) h'.roster := by
  obtain ⟨pr, hu, hk⟩ := h.named.lookup_iff.mp hr.known
  have hold : nicknameKey old ∈ h.roster.present := h.mem_present.mpr ⟨id, pr, hu, hk⟩
  have hid : p'.users.lookup id = some { pr with key := nicknameKey new, nick := new } := by
    rw [hr.users, if_pos rfl, hu, Option.map_some]
  have hother {i : UserId} {pr' : Presence} (hi : i ≠ id) : p'.users.lookup i = some pr' ↔
      p.users.lookup i = some pr' ∧ pr'.key ≠ nicknameKey new := by
    rw [hr.users, if_neg hi]
    split_ifs with hn
    · obtain ⟨pr₀, hu₀, hk₀⟩ := h.named.lookup_iff.mp hn
      simpa [hu₀, ← hk₀, eq_comm] using fun he : pr' = pr₀ => congrArg Presence.key he
    · exact (and_iff_left_of_imp fun hu' hk' => hn (h.named.lookup_iff.mpr ⟨pr', hu', hk'⟩)).symm
  have hne {i : UserId} {pr' : Presence} (hi : i ≠ id) (hu' : p.users.lookup i = some pr') :
      pr'.key ≠ nicknameKey old := fun hk' => hi (h.named.inj hu' hu (hk'.trans hk.symm))
  refine h.roster_step h' hr.casemapping hr.names (fun c n => ?_) hr.next.ge fun i pr' hi => ?_
  · constructor
    · rintro ⟨i, pr', hi, rfl, hc⟩
      by_cases he : i = id
      · subst he
        rw [hid] at hi
        cases hi
        exact ⟨nicknameKey old, ⟨i, pr, hu, hk, hc⟩, Or.inl ⟨rfl, rfl⟩⟩
      · obtain ⟨hi, hkn⟩ := (hother he).mp hi
        exact ⟨pr'.key, ⟨i, pr', hi, rfl, hc⟩, Or.inr ⟨hne he hi, rfl, fun h => absurd h hkn⟩⟩
    · rintro ⟨n₀, ⟨i, pr', hi, hk', hc⟩, hn⟩
      dsimp only at hk' hc hn
      rcases hn with ⟨rfl, rfl⟩ | ⟨hko, rfl, hkn⟩
      · obtain rfl : i = id := h.named.inj hi hu (hk'.trans hk.symm)
        rw [hu] at hi
        cases hi
        exact ⟨i, _, hid, rfl, hc⟩
      · have he : i ≠ id := by
          rintro rfl
          rw [hu] at hi
          cases hi
          exact hko (hk'.symm.trans hk)
        exact ⟨i, pr', (hother he).mpr ⟨hi, fun h => hkn (hk'.symm.trans h) hold⟩, hk', hc⟩
  · by_cases he : i = id
    · subst he
      rw [hid] at hi
      cases hi
      exact ⟨if_pos ⟨hold, rfl⟩, Or.inl ⟨pr, hu, Or.inl ⟨hk, rfl⟩⟩⟩
    · obtain ⟨hi, hkn⟩ := (hother he).mp hi
      refine ⟨(if_neg fun h => hkn h.2).trans (h.nick_of_lookup hi), Or.inl ⟨pr', hi, ?_⟩⟩
      exact Or.inr ⟨hne he hi, rfl, fun h => absurd h hkn⟩

theorem rename_unknown {old : String} (new : String)
    (hn : p.byNick.lookup (nicknameKey old) = none) :
    h.roster.Step (.rename old new) h.roster := by
  have hold : nicknameKey old ∉ h.roster.present := fun hp => by
    obtain ⟨i, pr, hu, hk⟩ := h.mem_present.mp hp
    rw [h.named.lookup_iff.mpr ⟨pr, hu, hk⟩] at hn
    cases hn
  have hc {n : String} (hp : n ∈ h.roster.present) : h.roster.Carries (.rename old new) n n :=
    Or.inr ⟨fun he => hold (he ▸ hp), rfl, fun _ => hold⟩
  refine h.step_refl rfl (fun c => rfl) ?_ fun n hp => ⟨if_neg fun h => hold h.1, hc hp⟩
  ext ⟨c, n⟩
  constructor
  · rintro ⟨n₀, hm, hcn⟩
    rcases hcn with ⟨rfl, _⟩ | ⟨_, rfl, _⟩
    · exact absurd ⟨c, hm⟩ hold
    · exact hm
  · exact fun hm => ⟨n, hm, hc ⟨c, hm⟩⟩

theorem setCasemapping_same : h.roster.Step (.setCasemapping p.casemapping) h.roster := by
  refine h.step_refl rfl (fun c => ?_) ?_ fun n _ => ⟨rfl, rfl⟩
  · simp only [Roster.SpelledAfter, roster_casemapping, if_true]
  · ext ⟨c, n⟩
    constructor
    · rintro ⟨d, name, hd, rfl, hm⟩
      rwa [← h.roster.fold_spelled hd] at hm
    · intro hm
      obtain ⟨name, hn⟩ := Option.isSome_iff_exists.mp (h.roster.held hm)
      exact ⟨c, name, hn, h.roster.fold_spelled hn, hm⟩

theorem setCasemapping_step {casemapping : CaseMapping} (hc : p.casemapping ≠ casemapping)
    (hr : Remapped casemapping p p') : h.roster.Step (.setCasemapping casemapping) h'.roster := by
  obtain ⟨moved, hu, _⟩ := hr.users
  have hkey (n : String) (i : UserId) : p'.byNick.lookup n = some i ↔ p.byNick.lookup n = some i := by
    rw [h.named, h'.named, hu, Option.map_map]
    rfl
  refine h.roster_step h' hr.casemapping (fun c => ?_) (fun c n => ?_) hr.next.ge fun i pr hi => ?_
  · simp only [Roster.SpelledAfter, roster_casemapping, hc, if_false]
    cases hm : p'.channels.lookup c with
    | some m' =>
      obtain ⟨_, hf, d, m, hd, hn⟩ := hr.held c m' hm
      exact ⟨hf, d, by rw [hn]; exact congrArg (Option.map Members.name) hd⟩
    | none =>
      rintro d name hd rfl
      obtain ⟨m, hd', rfl⟩ := Option.map_eq_some_iff.mp hd
      obtain ⟨m', hm'⟩ := hr.taken d m hd'
      rw [hm] at hm'
      cases hm'
  · rw [h'.mem_members]
    constructor
    · rintro ⟨m', hm', i, hi, hn⟩
      obtain ⟨d, m, hd, hf, hi⟩ := (hr.members c i).mp ⟨m', hm', hi⟩
      refine ⟨d, m.name, congrArg (Option.map Members.name) hd, hf, ?_⟩
      exact h.mem_members.mpr ⟨m, hd, i, hi, (hkey n i).mp hn⟩
    · rintro ⟨d, name, hd, hf, hm⟩
      obtain ⟨m, hd', i, hi, hn⟩ := h.mem_members.mp hm
      obtain ⟨m₀, hd₀, rfl⟩ := Option.map_eq_some_iff.mp hd
      rw [hd'] at hd₀
      cases hd₀
      obtain ⟨m', hm', hi⟩ := (hr.members c i).mpr ⟨d, m, hd', hf, hi⟩
      exact ⟨m', hm', i, hi, (hkey n i).mpr hn⟩
  · rw [hu] at hi
    obtain ⟨pr₀, hu₀, rfl⟩ := Option.map_eq_some_iff.mp hi
    have hn := h.nick_of_lookup hu₀
    exact ⟨hn, Or.inl ⟨pr₀, hu₀, rfl⟩⟩

theorem replaceChannel_step {channel : String} {members : List String} {present : Finset UserId}
    (hr : Replaced channel (listed members) p p' q present) :
    h.roster.Step (.replaceChannel channel members) h'.roster := by
  have hq : q.Linked := hr.enlists.linked h.toLinked
  -- entering or leaving the channel changes neither key nor nickname
  have hwas {i : UserId} {pr : Presence} (hi : p'.users.lookup i = some pr) :
      ∃ pr₀, q.users.lookup i = some pr₀ ∧ pr.key = pr₀.key ∧ pr.nick = pr₀.nick := by
    rw [hr.users] at hi
    split_ifs at hi
    · obtain ⟨pr₀, hq₀, rfl⟩ := Option.map_eq_some_iff.mp hi
      exact ⟨pr₀, hq₀, Presence.enter_key, Presence.enter_nick⟩
    · obtain ⟨pr₀, hq₀, ho⟩ := Option.bind_eq_some_iff.mp hi
      obtain ⟨rfl, _⟩ := Presence.outside_eq_some.mp ho
      exact ⟨pr₀, hq₀, rfl, rfl⟩
  have hkey {i : UserId} {pr pr₀ : Presence} (hi : p'.users.lookup i = some pr)
      (hi₀ : p.users.lookup i = some pr₀) : pr.key = pr₀.key := by
    obtain ⟨pr', hq', hk, _⟩ := hwas hi
    rw [hr.enlists.known i pr₀ hi₀] at hq'
    cases hq'
    exact hk
  refine h.roster_step h' hr.casemapping (fun c => ?_) (fun c n => ?_)
    (hr.enlists.next.trans hr.next.ge) fun i pr hi => ?_
  · rw [hr.channels]
    change _ = if c = p.channelKey channel then some channel
      else (p.channels.lookup c).map Members.name
    split_ifs <;> rfl
  · rw [h'.mem_members, hr.channels]
    change _ ↔ if c = p.channelKey channel then n ∈ (listed members).map nicknameKey
      else (c, n) ∈ h.roster.members
    split_ifs with hc
    · simp only [Option.some.injEq, exists_eq_left']
      constructor
      · rintro ⟨i, hi, hn⟩
        obtain ⟨pr, hu, rfl⟩ := h'.named.lookup_iff.mp hn
        obtain ⟨pr₀, hq₀, hk, _⟩ := hwas hu
        obtain ⟨pr', hq', hl⟩ := (hr.enlists.mem_present i).mp hi
        rw [hq₀] at hq'
        cases hq'
        rwa [hk]
      · intro hn
        obtain ⟨x, hx, rfl⟩ := List.mem_map.mp hn
        obtain ⟨i, hi, hn⟩ := hr.enlists.listed x hx
        obtain ⟨pr, hq', hk⟩ := hr.enlists.named.lookup_iff.mp hn
        refine ⟨i, hi, h'.named.lookup_iff.mpr ⟨pr.enter (p.channelKey channel), ?_, ?_⟩⟩
        · rw [hr.users, if_pos hi, hq', Option.map_some]
        · rw [Presence.enter_key, hk]
    · rw [h.mem_members]
      refine exists_congr fun m => and_congr_right fun hm => exists_congr fun i =>
        and_congr_right fun hi => ?_
      have hm' : p'.channels.lookup c = some m := by rw [hr.channels, if_neg hc, hm]
      obtain ⟨pr, hu⟩ := h'.no_orphan hm' hi
      obtain ⟨pr₀, hu₀⟩ := h.no_orphan hm hi
      rw [h.named, h'.named, hu, hu₀, Option.map_some, Option.map_some, hkey hu hu₀]
  · obtain ⟨pr₀, hq₀, hk, hn⟩ := hwas hi
    change (lastSpelled (listed members) pr.key).or (h.roster.nick pr.key) = some pr.nick ∧ _
    rw [hk, hn]
    rcases hr.enlists.user hq₀ with ⟨pr₁, hu₁, rfl⟩ | ⟨hnone, hlt, _, _, hl⟩
    · refine ⟨?_, Or.inl ⟨pr₁, hu₁, rfl⟩⟩
      have hn₁ := h.nick_of_lookup hu₁
      dsimp only
      rw [hn₁]
      cases lastSpelled (listed members) pr₁.key <;> rfl
    · refine ⟨by rw [hl]; rfl, Or.inr ⟨hlt, fun n hp hc => ?_⟩⟩
      -- a user of that nickname would have been found in the list
      obtain ⟨j, pr₁, hu₁, rfl⟩ := h.mem_present.mp hp
      have hj := hq.named.inj (hr.enlists.known j pr₁ hu₁) hq₀ (Eq.symm hc)
      rw [hj, hnone] at hu₁
      cases hu₁

theorem roster_steps (i : Iteration × PresenceCall) : h.roster.Step i.2 (h.step i).roster := by
  obtain ⟨order, call⟩ := i
  cases call with
  | setCasemapping casemapping =>
    by_cases hc : p.casemapping = casemapping
    · subst hc
      have he : p.step (order, .setCasemapping p.casemapping) = p := if_pos rfl
      generalize_proofs h'
      revert h'
      rw [he]
      exact fun _ => h.setCasemapping_same
    · exact h.setCasemapping_step _ hc (setCasemapping_remapped h hc)
  | replaceChannel channel members =>
    obtain ⟨q, present, hr⟩ :=
      replaceChannel_replaced h members
    exact h.replaceChannel_step _ hr
  | removeChannel channel => exact h.removeChannel_step _ (removeChannel_removed h)
  | rename old new =>
    cases hk : p.byNick.lookup (nicknameKey old) with
    | none =>
      have he : p.step (order, .rename old new) = p := by simp only [PresenceIndex.step, rename, hk]
      generalize_proofs h'
      revert h'
      rw [he]
      exact fun _ => h.rename_unknown new hk
    | some id => exact h.rename_step _ (rename_renamed h hk).1
  | quit nickname => exact h.quit_step nickname

end Consistent

end PresenceIndex

end CayenChat
