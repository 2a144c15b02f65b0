import CayenChat.Presence.Consistency

/-! # Channels under another case mapping

The channels held are taken one by one into a new table, under the key their
name folds to now. Channels that fold alike become one; whoever was in one of
them is in it.
-/

namespace CayenChat

namespace Presence

variable {moved : Map String String} {pr : Presence} {d old : String} {kept olds : List String}

theorem nodup_keep (h : kept.Nodup) : (keep moved kept old).Nodup := by
  unfold keep
  cases moved.lookup old with
  | none => exact h
  | some new =>
    dsimp only
    split_ifs with hc
    · exact h
    · have hc : new ∉ kept := by simpa using hc
      exact h.append (List.nodup_singleton new) (List.disjoint_singleton.mpr hc)

theorem mem_keep : d ∈ keep moved kept old ↔ d ∈ kept ∨ moved.lookup old = some d := by
  unfold keep
  cases ho : moved.lookup old with
  | none => simp
  | some new =>
    dsimp only
    split_ifs with hc
    · have hc : new ∈ kept := by simpa using hc
      exact (or_iff_left_of_imp fun he => Option.some.inj he ▸ hc).symm
    · simp [eq_comm]

theorem nodup_foldl_keep (h : kept.Nodup) : (olds.foldl (keep moved) kept).Nodup := by
  induction olds generalizing kept with
  | nil => exact h
  | cons old olds ih => exact ih (nodup_keep h)

theorem mem_foldl_keep : d ∈ olds.foldl (keep moved) kept ↔
    d ∈ kept ∨ ∃ c ∈ olds, moved.lookup c = some d := by
  induction olds generalizing kept with
  | nil => simp
  | cons old olds ih => rw [List.foldl_cons, ih, mem_keep]; simp [or_assoc]

theorem nodup_rekey : (pr.rekey moved).channels.Nodup :=
  nodup_foldl_keep List.nodup_nil

theorem mem_rekey : d ∈ (pr.rekey moved).channels ↔
    ∃ c ∈ pr.channels, moved.lookup c = some d := by
  rw [rekey, mem_foldl_keep]; simp

end Presence

namespace PresenceIndex

variable {p p' : PresenceIndex} {casemapping : CaseMapping} {ms : List Members} {m : Members}
  {acc : Map String String × Map String Members} {order : Iteration}

/-- The channels taken into the new table so far. -/
structure Regroups (casemapping : CaseMapping) (ms : List Members)
    (acc : Map String String × Map String Members) : Prop where
  moved : ∀ k k', acc.1.lookup k = some k' ↔ ∃ m ∈ ms, m.key = k ∧ casemapping.fold m.name = k'
  held : ∀ c m', acc.2.lookup c = some m' →
    m'.key = c ∧ casemapping.fold m'.name = c ∧ ∃ m ∈ ms, m'.name = m.name
  users : ∀ c i, (∃ m', acc.2.lookup c = some m' ∧ i ∈ m'.users) ↔
    ∃ m ∈ ms, casemapping.fold m.name = c ∧ i ∈ m.users
  taken : ∀ m ∈ ms, ∃ m', acc.2.lookup (casemapping.fold m.name) = some m'

theorem Regroups.snoc (h : Regroups casemapping ms acc) (hm : ∀ m' ∈ ms, m'.key ≠ m.key) :
    Regroups casemapping (ms ++ [m]) (regroup casemapping acc m) := by
  unfold regroup
  dsimp only
  set key := casemapping.fold m.name with hkey
  set held := (acc.2.lookup key).getD {} with hheld
  set merged := if held.key = "" then { held with key := key, name := m.name } else held
    with hmerged
  have hheld' : held.key ≠ "" → acc.2.lookup key = some held := by
    intro hne
    cases hl : acc.2.lookup key with
    | some m' => rw [hheld, hl, Option.getD_some]
    | none => rw [hheld, hl] at hne; exact absurd rfl hne
  have hmk : merged.key = key ∧ casemapping.fold merged.name = key ∧
      ∃ m' ∈ ms ++ [m], merged.name = m'.name := by
    by_cases he : held.key = ""
    · rw [hmerged, if_pos he]
      exact ⟨rfl, rfl, m, by simp, rfl⟩
    · rw [hmerged, if_neg he]
      obtain ⟨hk, hf, m', hm', hn⟩ := h.held key held (hheld' he)
      exact ⟨hk, hf, m', List.mem_append_left _ hm', hn⟩
  have hmu : merged.users = held.users := by
    rw [hmerged]
    split_ifs <;> rfl
  have hhu (i : UserId) : i ∈ held.users ↔ ∃ m' ∈ ms, casemapping.fold m'.name = key ∧
      i ∈ m'.users := by
    rw [← h.users, hheld]
    cases acc.2.lookup key with
    | some m' => simp
    | none => simp
  refine ⟨fun k k' => ?_, fun c m' hm' => ?_, fun c i => ?_, fun m' hm' => ?_⟩
  · rw [Map.lookup_insert]
    by_cases hk : k = m.key
    · subst hk
      rw [if_pos rfl, Option.some.injEq, hmk.1]
      constructor
      · rintro rfl
        exact ⟨m, by simp, rfl, rfl⟩
      · rintro ⟨m', hm', hk, rfl⟩
        rcases List.mem_append.mp hm' with hm' | hm'
        · exact absurd hk (hm m' hm')
        · rw [List.mem_singleton.mp hm']
    · rw [if_neg hk, h.moved]
      simp [Ne.symm hk, or_and_right, exists_or]
  · rw [Map.lookup_insert] at hm'
    split_ifs at hm' with hc
    · cases hm'
      subst hc
      exact hmk
    · obtain ⟨hk, hf, m₀, hm₀, hn⟩ := h.held c m' hm'
      exact ⟨hk, hf, m₀, List.mem_append_left _ hm₀, hn⟩
  · rw [Map.lookup_insert]
    by_cases hc : c = key
    · subst hc
      simp only [if_true, Option.some.injEq, exists_eq_left', Finset.mem_union, hmu, hhu]
      simp [or_and_right, exists_or, ← hkey]
    · rw [if_neg hc, h.users]
      simp [or_and_right, exists_or, ← hkey, Ne.symm hc]
  · rw [Map.lookup_insert]
    split_ifs with hc
    · exact ⟨_, rfl⟩
    · rcases List.mem_append.mp hm' with hm' | hm'
      · exact h.taken m' hm'
      · rw [List.mem_singleton.mp hm'] at hc
        exact absurd rfl hc

theorem foldl_regroup (hk : ms.Pairwise fun m m' => m.key ≠ m'.key) :
    Regroups casemapping ms (ms.foldl (regroup casemapping) (∅, ∅)) := by
  induction ms using List.reverseRecOn with
  | nil => exact ⟨by simp, by simp, by simp, by simp⟩
  | append_singleton ms m ih =>
    rw [List.foldl_append, List.foldl_cons, List.foldl_nil]
    rw [List.pairwise_append] at hk
    exact (ih hk.1).snoc fun m' hm' => hk.2.2 m' hm' m (by simp)

/-- Another case mapping, users and channels at once. -/
structure Remapped (casemapping : CaseMapping) (p p' : PresenceIndex) : Prop where
  users : ∃ moved, (∀ i, p'.users.lookup i = (p.users.lookup i).map (Presence.rekey moved)) ∧
    ∀ c d, AList.lookup c moved = some d ↔
      ∃ m, p.channels.lookup c = some m ∧ casemapping.fold m.name = d
  held : ∀ c m', p'.channels.lookup c = some m' → m'.key = c ∧ casemapping.fold m'.name = c ∧
    ∃ d m, p.channels.lookup d = some m ∧ m'.name = m.name
  members : ∀ c i, (∃ m', p'.channels.lookup c = some m' ∧ i ∈ m'.users) ↔
    ∃ d m, p.channels.lookup d = some m ∧ casemapping.fold m.name = c ∧ i ∈ m.users
  taken : ∀ d m, p.channels.lookup d = some m →
    ∃ m', p'.channels.lookup (casemapping.fold m.name) = some m'
  next : p'.next = p.next
  casemapping : p'.casemapping = casemapping
  named : p'.Named

theorem setCasemapping_remapped (hp : p.Consistent) (hc : p.casemapping ≠ casemapping) :
    Remapped casemapping p (p.setCasemapping order casemapping) := by
  set ms := order.channels (Map.values p.channels) with hms
  have hmem (m : Members) : m ∈ ms ↔ ∃ d, p.channels.lookup d = some m := by
    rw [hms, (order.channels_perm _).mem_iff, Map.mem_values]
  have hkeys : ms.Pairwise fun m m' => m.key ≠ m'.key := by
    refine ((order.channels_perm _).pairwise_iff fun h => h.symm).mpr ?_
    refine Map.pairwise_values fun {c d m m'} hm hm' hne => ?_
    rwa [(hp.keyed hm).1, (hp.keyed hm').1]
  have hr : Regroups casemapping ms _ := foldl_regroup hkeys
  unfold setCasemapping
  rw [if_neg hc, ← hms]
  refine ⟨⟨_, fun i => Map.lookup_mapValues, fun c d => (hr.moved c d).trans ?_⟩, fun c m' hm' => ?_,
    fun c i => (hr.users c i).trans ?_, fun d m hm => hr.taken m ((hmem m).mpr ⟨d, hm⟩), rfl, rfl,
    hp.named.of_keys rfl fun i => ?_⟩
  · constructor
    · rintro ⟨m, hm, hk, hf⟩
      obtain ⟨d', hm⟩ := (hmem m).mp hm
      rw [← (hp.keyed hm).1, hk] at hm
      exact ⟨m, hm, hf⟩
    · rintro ⟨m, hm, hf⟩
      exact ⟨m, (hmem m).mpr ⟨c, hm⟩, (hp.keyed hm).1, hf⟩
  · obtain ⟨hk, hf, m, hm, hn⟩ := hr.held c m' hm'
    obtain ⟨d, hm⟩ := (hmem m).mp hm
    exact ⟨hk, hf, d, m, hm, hn⟩
  · simp only [hmem, exists_and_right.symm]
    exact exists_comm
  · exact (congrArg _ Map.lookup_mapValues).trans (by rw [Option.map_map]; rfl)

theorem Remapped.consistent (h : Remapped casemapping p p') (hp : p.Consistent) :
    p'.Consistent := by
  obtain ⟨moved, hu, hm⟩ := h.users
  have hwas {i : UserId} {pr : Presence} (hi : p'.users.lookup i = some pr) :
      ∃ pr₀, p.users.lookup i = some pr₀ ∧ pr = pr₀.rekey moved := by
    rw [hu] at hi
    obtain ⟨pr₀, hp₀, rfl⟩ := Option.map_eq_some_iff.mp hi
    exact ⟨pr₀, hp₀, rfl⟩
  constructor
  constructor
  · exact h.named
  · intro i pr hi
    obtain ⟨pr₀, hp₀, rfl⟩ := hwas hi
    exact h.next ▸ hp.fresh i pr₀ hp₀
  · intro i pr hi
    obtain ⟨pr₀, hp₀, rfl⟩ := hwas hi
    have hn := hp.key_nick hp₀
    exact hn
  · intro i pr hi
    obtain ⟨pr₀, hp₀, rfl⟩ := hwas hi
    exact Presence.nodup_rekey
  · intro i pr d hi
    obtain ⟨pr₀, hp₀, rfl⟩ := hwas hi
    rw [Presence.mem_rekey, h.members]
    constructor
    · rintro ⟨c, hc, hd⟩
      obtain ⟨m, hm, hf⟩ := (hm c d).mp hd
      obtain ⟨m', hm', hi⟩ := (hp.mem_iff hp₀).mp hc
      rw [hm] at hm'
      cases hm'
      exact ⟨c, m, hm, hf, hi⟩
    · rintro ⟨c, m, hc, hf, hi⟩
      exact ⟨c, (hp.mem_iff hp₀).mpr ⟨m, hc, hi⟩, (hm c d).mpr ⟨m, hc, hf⟩⟩
  · intro c m' i hm' hi
    obtain ⟨d, m, hd, _, hi⟩ := (h.members c i).mp ⟨m', hm', hi⟩
    obtain ⟨pr, hp₀⟩ := hp.no_orphan hd hi
    exact ⟨_, by rw [hu, hp₀, Option.map_some]⟩
  · intro c m' hm'
    obtain ⟨hk, hf, _⟩ := h.held c m' hm'
    rw [h.casemapping]
    exact ⟨hk, hf⟩
  · intro i pr hi
    obtain ⟨pr₀, hp₀, rfl⟩ := hwas hi
    obtain ⟨c, hc⟩ := List.exists_mem_of_ne_nil _ (hp.somewhere hp₀)
    obtain ⟨m, hcm, _⟩ := (hp.mem_iff hp₀).mp hc
    exact List.ne_nil_of_mem (Presence.mem_rekey.mpr ⟨c, hc, (hm c _).mpr ⟨m, hcm, rfl⟩⟩)

theorem Consistent.step (hp : p.Consistent) (i : Iteration × PresenceCall) :
    (p.step i).Consistent := by
  obtain ⟨order, call⟩ := i
  cases call with
  | setCasemapping casemapping =>
    by_cases hc : p.casemapping = casemapping
    · simpa only [PresenceIndex.step, setCasemapping, if_pos hc] using hp
    · exact (setCasemapping_remapped hp hc).consistent hp
  | replaceChannel channel members =>
    obtain ⟨q, present, h⟩ := replaceChannel_replaced hp members
    exact h.consistent hp
  | removeChannel channel => exact (removeChannel_removed hp).consistent hp
  | rename old new =>
    cases hk : p.byNick.lookup (nicknameKey old) with
    | none => simpa only [PresenceIndex.step, rename, hk] using hp
    | some id => exact (rename_renamed hp hk).2
  | quit nickname => exact hp.quit nickname

end PresenceIndex

end CayenChat
