import CayenChat.Avatars.Occupancies

/-! # The directory follows the occupancies

The tables of the directory agree with the stays of the nicknames after every
call. An eviction is fair exactly when no occupancy ended together with the
last one of the quarter it drops.
-/

namespace CayenChat.Avatars

open Machine NetworkAvatars

variable {avatars : NetworkAvatars} {stays : Stays} {log : List Eviction} {key : String}
  {avatar : String} {next clock : ℕ} {retired : Map String Retired} {r : Retired}

/-! ## Evictions -/

theorem lookup_evict (h : (evict retired).lookup key = some r) : retired.lookup key = some r := by
  unfold evict at h
  split_ifs at h
  · rw [Map.lookup_keepValues] at h
    exact (Option.filter_eq_some_iff.mp h).1
  · exact h

theorem evict_of_le (h : retired.entries.length ≤ MAX_RETIRED_AVATARS) :
    evict retired = retired := if_neg (Nat.not_lt.mpr h)

theorem length_ends : (ends retired).length = retired.entries.length := by
  rw [ends, List.length_map, Map.length_values]

theorem mem_ends {n : ℕ} : n ∈ ends retired ↔ ∃ key r, retired.lookup key = some r ∧ r.«until» = n := by
  simp only [ends, List.mem_map, Map.mem_values]
  constructor
  · rintro ⟨r, ⟨key, h⟩, rfl⟩
    exact ⟨key, r, h, rfl⟩
  · rintro ⟨key, r, h, rfl⟩
    exact ⟨r, ⟨key, h⟩, rfl⟩

theorem length_evict (h : MAX_RETIRED_AVATARS < retired.entries.length) :
    (evict retired).entries.length =
      ((ends retired).filter (Cutoff.rank (MAX_RETIRED_AVATARS / 4) (ends retired) < ·)).length := by
  rw [evict, if_pos h, Map.length_keepValues, ends, List.filter_map, List.length_map]
  rfl

theorem length_evict_le (h : retired.entries.length ≤ MAX_RETIRED_AVATARS + 1) :
    (evict retired).entries.length ≤ MAX_RETIRED_AVATARS := by
  by_cases hlt : MAX_RETIRED_AVATARS < retired.entries.length
  · rw [length_evict hlt]
    have hi : MAX_RETIRED_AVATARS / 4 < (ends retired).length := by
      rw [length_ends]
      exact (Nat.div_le_self ..).trans_lt hlt
    have := Cutoff.length_above_le hi
    rw [length_ends] at this
    omega
  · rw [evict_of_le (Nat.not_lt.mp hlt)]
    exact Nat.not_lt.mp hlt

theorem fair_iff_untied (hlen : retired.entries.length = MAX_RETIRED_AVATARS + 1)
    (hkey : retired.lookup key = some r)
    (hlast : ∀ other kept, retired.lookup other = some kept → kept.«until» ≤ r.«until») :
    (Eviction.Fair ⟨key, retired, evict retired⟩) ↔
      Eviction.Untied ⟨key, retired, evict retired⟩ := by
  have hlt : MAX_RETIRED_AVATARS < retired.entries.length := by omega
  have hi : MAX_RETIRED_AVATARS / 4 + 1 < (ends retired).length := by
    rw [length_ends, hlen]; decide
  constructor
  · intro h
    by_contra hu
    have hu : ¬ Cutoff.rank (MAX_RETIRED_AVATARS / 4) (ends retired) <
      Cutoff.rank (MAX_RETIRED_AVATARS / 4 + 1) (ends retired) := hu
    have hq := h.quarter
    have hmore := Cutoff.length_above_le hi
    have hsub : ((ends retired).filter
        (Cutoff.rank (MAX_RETIRED_AVATARS / 4) (ends retired) < ·)).length ≤
        ((ends retired).filter
          (Cutoff.rank (MAX_RETIRED_AVATARS / 4 + 1) (ends retired) < ·)).length := by
      apply List.Sublist.length_le
      apply List.monotone_filter_right
      intro n hn
      simp only [decide_eq_true_eq] at hn ⊢
      omega
    rw [length_ends] at hmore
    dsimp only at hq
    rw [length_evict hlt] at hq
    omega
  · intro hu
    have hcount := Cutoff.length_above hi hu
    rw [← length_evict hlt, length_ends] at hcount
    refine ⟨?_, ?_, ?_, ?_⟩
    · rintro key gone ⟨hb, ha⟩ other kept hk
      dsimp only at hb ha hk
      rw [evict, if_pos hlt, Map.lookup_keepValues] at ha hk
      rw [hb] at ha
      have hgone : ¬ Cutoff.rank (MAX_RETIRED_AVATARS / 4) (ends retired) < gone.«until» := by
        simpa [Option.filter_eq_none_iff] using ha
      have hkept := (Option.filter_eq_some_iff.mp hk).2
      simp only [decide_eq_true_eq] at hkept
      omega
    · exact hcount.ge
    · dsimp only
      have : MAX_RETIRED_AVATARS = 512 := rfl
      omega
    · refine ⟨r, hkey, ?_⟩
      dsimp only
      rw [evict, if_pos hlt, Map.lookup_keepValues, hkey]
      obtain ⟨other, kept, hk, hr⟩ := mem_ends.mp (Cutoff.rank_mem hi)
      have hle := hlast other kept hk
      have hu : Cutoff.rank (MAX_RETIRED_AVATARS / 4) (ends retired) <
        Cutoff.rank (MAX_RETIRED_AVATARS / 4 + 1) (ends retired) := hu
      exact Option.filter_eq_some_iff.mpr ⟨rfl, by simp only [decide_eq_true_eq]; omega⟩

/-! ## The tables and the stays -/

/-- The tables of a network after evictions, and the stays of its nicknames by a sequence. -/
structure Follows (avatars : NetworkAvatars) (stays : Stays) (log : List Eviction) (clock : ℕ) :
    Prop where
  current : ∀ key, avatars.current.lookup key = present (stays key)
  retired : ∀ key r, avatars.retired.lookup key = some r → latest (stays key) = some r
  kept : ∀ key r, latest (stays key) = some r →
    avatars.retired.lookup key = some r ∨ ∃ e ∈ log, e.Drops key r
  ordered : ∀ key, Ordered clock (stays key)
  current_le : avatars.current.entries.length ≤ MAX_CURRENT_AVATARS
  retired_le : avatars.retired.entries.length ≤ MAX_RETIRED_AVATARS
  peer_le : avatars.peer.entries.length ≤ MAX_PEER_AVATARS
  fair : ∀ e ∈ log, e.Fair ↔ e.Untied

theorem ncard_present (h : ∀ key, avatars.current.lookup key = present (stays key)) :
    stays.present.ncard = avatars.current.entries.length := by
  have hs : stays.present = ↑avatars.current.keys.toFinset := by
    ext key
    rw [Finset.mem_coe, List.mem_toFinset, ← AList.mem_keys, ← AList.lookup_isSome, h]
    rfl
  have hn : avatars.current.keys.Nodup := avatars.current.nodupKeys
  rw [hs, Set.ncard_coe_finset, List.toFinset_card_of_nodup hn]
  exact List.length_map _

theorem retire_current (other : String) : (avatars.retire key next).current.lookup other =
    if other = key then none else avatars.current.lookup other := by
  rw [← Map.lookup_erase]
  unfold NetworkAvatars.retire
  split
  · rename_i h
    rw [Map.lookup_erase]
    split_ifs with ho
    · rw [ho, h]
    · rfl
  · dsimp only
    split_ifs <;> rfl

theorem retire_current_le (avatars : NetworkAvatars) (key : String) (next : ℕ) :
    (avatars.retire key next).current.entries.length ≤ avatars.current.entries.length := by
  unfold NetworkAvatars.retire
  split
  · exact Nat.le_refl _
  · dsimp only
    split_ifs <;> exact Map.length_erase_le

theorem retire_current_lt {occupancy : Occupancy} (next : ℕ)
    (h : avatars.current.lookup key = some occupancy) :
    (avatars.retire key next).current.entries.length + 1 = avatars.current.entries.length := by
  unfold NetworkAvatars.retire
  rw [h]
  dsimp only
  split_ifs <;> exact Map.length_erase_of_lookup h

theorem setPeer_spec (h : avatars.peer.entries.length ≤ MAX_PEER_AVATARS) (key : String)
    (picture : Option String) : ∃ peer stamp,
    avatars.setPeer key picture = { avatars with peer := peer, peerClock := stamp } ∧
      peer.entries.length ≤ MAX_PEER_AVATARS := by
  cases picture with
  | none => exact ⟨_, _, rfl, Map.length_erase_le.trans h⟩
  | some avatar =>
    unfold NetworkAvatars.setPeer
    dsimp only
    split_ifs with hk
    · obtain ⟨old, hold⟩ := Option.isSome_iff_exists.mp hk
      exact ⟨_, _, rfl, (Map.length_insert_of_lookup hold).trans_le h⟩
    · refine ⟨_, _, rfl, Map.length_insert_le.trans ?_⟩
      unfold recentPeers
      dsimp only
      split_ifs with hfull
      · rw [Map.length_keepValues]
        have hi : MAX_PEER_AVATARS / 4 < ((Map.values avatars.peer).map Prod.snd).length := by
          rw [List.length_map, Map.length_values]
          exact (Nat.div_lt_self (by decide) (by decide)).trans_le hfull
        have hcount := Cutoff.length_above_le hi
        rw [List.filter_map, List.length_map, List.length_map, Map.length_values] at hcount
        refine le_trans ?_ h
        exact le_trans (Nat.add_le_add_left (by omega) _) hcount
      · omega

namespace Follows

theorem mono (h : Follows avatars stays log clock) (hle : clock ≤ next) :
    Follows avatars stays log next :=
  { h with ordered := fun key => (h.ordered key).mono hle }

theorem until_le (h : Follows avatars stays log clock)
    (hr : avatars.retired.lookup key = some r) : r.«until» ≤ clock := by
  obtain ⟨stay, hm, -, -, he, -⟩ := latest_eq_some (h.retired key r hr)
  exact ((h.ordered key).ended_le stay hm _ he).2

theorem ordered_close (h : Follows avatars stays log clock) (key : String) (hle : clock ≤ next)
    (other : String) :
    Ordered next (stays.close key next other) := by
  by_cases ho : other = key
  · rw [ho, Stays.close, Function.update_self]
    exact (h.ordered key).close hle
  · rw [Stays.close, Function.update_of_ne ho]
    exact (h.ordered other).mono hle

theorem current_retire (h : Follows avatars stays log clock) (key : String) (next : ℕ)
    (other : String) :
    (avatars.retire key next).current.lookup other = present (stays.close key next other) := by
  rw [retire_current]
  split_ifs with ho
  · rw [ho, Stays.close, Function.update_self, present_close]
  · rw [Stays.close, Function.update_of_ne ho, h.current]

theorem retire (h : Follows avatars stays log clock) (key : String) (hle : clock ≤ next) :
    Follows (avatars.retire key next) (stays.close key next)
      (log ++ avatars.evictions key next) next := by
  have hcurrent := h.current_retire key next
  have hordered := h.ordered_close key hle
  have hlen := (retire_current_le avatars key next).trans h.current_le
  cases ho : avatars.current.lookup key with
  | none =>
    have ht : avatars.retire key next = avatars := by rw [NetworkAvatars.retire, ho]
    have hs : stays.close key next = stays := by
      rw [Stays.close, close_of_present (by rw [← h.current, ho]), Function.update_eq_self]
    have hv : avatars.evictions key next = [] := by rw [NetworkAvatars.evictions, ho]
    rw [ht, hs, hv, List.append_nil]
    exact h.mono hle
  | some occupancy =>
    obtain ⟨rest, hstays⟩ := present_eq_some ((h.current key).symm.trans ho)
    have hclosed : stays.close key next key =
        ⟨occupancy.avatar, occupancy.since, some next⟩ :: rest := by
      rw [Stays.close, Function.update_self, hstays]; rfl
    have hother : ∀ other, other ≠ key → stays.close key next other = stays other :=
      fun other hne => Function.update_of_ne hne ..
    have hlatest : latest (stays key) = latest rest := by rw [hstays, latest_open]
    by_cases hnext : next ≤ occupancy.since
    · have ht : avatars.retire key next =
          { avatars with current := avatars.current.erase key } := by
        rw [NetworkAvatars.retire, ho]; exact if_pos hnext
      have hv : avatars.evictions key next = [] := by
        rw [NetworkAvatars.evictions, ho]; exact if_pos hnext
      have hsame : ∀ other, latest (stays.close key next other) = latest (stays other) := by
        intro other
        by_cases hne : other = key
        · rw [hne, hclosed, latest_ended, if_neg (Nat.not_lt.mpr hnext), hlatest]
        · rw [hother other hne]
      rw [hv, List.append_nil]
      rw [ht] at hcurrent hlen ⊢
      exact ⟨hcurrent, fun other r hr => (hsame other).trans (h.retired other r hr),
        fun other r hr => h.kept other r ((hsame other).symm.trans hr), hordered, hlen,
        h.retired_le, h.peer_le, h.fair⟩
    · have ht : avatars.retire key next = { avatars with
          current := avatars.current.erase key
          retired := evict (avatars.ended key occupancy next) } := by
        rw [NetworkAvatars.retire, ho]; exact if_neg hnext
      have hended : ∀ other, (avatars.ended key occupancy next).lookup other =
          if other = key then some ⟨occupancy.avatar, occupancy.since, next⟩
          else avatars.retired.lookup other := fun other => Map.lookup_insert
      have hnew : latest (stays.close key next key) =
          some ⟨occupancy.avatar, occupancy.since, next⟩ := by
        rw [hclosed, latest_ended, if_pos (Nat.not_le.mp hnext)]
      have hgrown : (avatars.ended key occupancy next).entries.length ≤ MAX_RETIRED_AVATARS + 1 :=
        Map.length_insert_le.trans (Nat.succ_le_succ h.retired_le)
      have hfollows : ∀ other r, (avatars.ended key occupancy next).lookup other = some r ↔
          latest (stays.close key next other) = some r ∧
            (other = key ∨ avatars.retired.lookup other = some r) := by
        intro other r
        rw [hended]
        split_ifs with hne
        · rw [hne, hnew]; simp
        · rw [hother other hne]
          exact ⟨fun hr => ⟨h.retired other r hr, .inr hr⟩, fun hr => hr.2.resolve_left hne⟩
      have hlog : avatars.evictions key next =
          if MAX_RETIRED_AVATARS < (avatars.ended key occupancy next).entries.length then
            [⟨key, avatars.ended key occupancy next, evict (avatars.ended key occupancy next)⟩]
          else [] := by
        rw [NetworkAvatars.evictions, ho]; exact if_neg hnext
      rw [ht] at hcurrent hlen ⊢
      refine ⟨hcurrent, fun other r hr => ((hfollows other r).mp (lookup_evict hr)).1, ?_, hordered,
        hlen, length_evict_le hgrown, h.peer_le, ?_⟩
      · intro other r hr
        have hin : (avatars.ended key occupancy next).lookup other = some r ∨
            ∃ e ∈ log, e.Drops other r := by
          by_cases hne : other = key
          · exact .inl ((hfollows other r).mpr ⟨hr, .inl hne⟩)
          · rcases h.kept other r (by rwa [← hother other hne]) with hk | hd
            · exact .inl ((hfollows other r).mpr ⟨hr, .inr hk⟩)
            · exact .inr hd
        rcases hin with hin | ⟨e, he, hd⟩
        · cases hev : (evict (avatars.ended key occupancy next)).lookup other with
          | some r' =>
            have := lookup_evict hev
            exact .inl (this.symm.trans hin)
          | none =>
            right
            by_cases hlt : MAX_RETIRED_AVATARS <
                (avatars.ended key occupancy next).entries.length
            · rw [hlog, if_pos hlt]
              exact ⟨_, List.mem_append_right _ List.mem_cons_self, hin, hev⟩
            · rw [evict_of_le (Nat.not_lt.mp hlt), hin] at hev
              cases hev
        · exact .inr ⟨e, List.mem_append_left _ he, hd⟩
      · intro e he
        rcases List.mem_append.mp he with he | he
        · exact h.fair e he
        · rw [hlog] at he
          split_ifs at he with hlt
          · obtain rfl := List.mem_singleton.mp he
            refine fair_iff_untied (r := ⟨occupancy.avatar, occupancy.since, next⟩)
              (Nat.le_antisymm hgrown hlt) (by rw [hended, if_pos rfl]) ?_
            intro other kept hk
            rw [hended] at hk
            split_ifs at hk
            · cases hk
              exact Nat.le_refl _
            · exact (h.until_le hk).trans hle
          · cases he

theorem start (h : Follows avatars stays log next) (hp : present (stays key) = none)
    (hroom : avatars.current.entries.length < MAX_CURRENT_AVATARS) :
    Follows { avatars with current := avatars.current.insert key ⟨avatar, next⟩ }
      (stays.start key avatar next) log next := by
  have hsame : ∀ other, latest (stays.start key avatar next other) = latest (stays other) := by
    intro other
    by_cases ho : other = key
    · rw [ho, Stays.start, Function.update_self, latest_open]
    · rw [Stays.start, Function.update_of_ne ho]
  refine ⟨?_, fun other r hr => (hsame other).trans (h.retired other r hr),
    fun other r hr => h.kept other r ((hsame other).symm.trans hr), ?_,
    Map.length_insert_le.trans hroom, h.retired_le, h.peer_le, h.fair⟩
  · intro other
    rw [Map.lookup_insert]
    split_ifs with ho
    · rw [ho, Stays.start, Function.update_self, present_start]
    · rw [Stays.start, Function.update_of_ne ho, h.current]
  · intro other
    by_cases ho : other = key
    · rw [ho, Stays.start, Function.update_self]
      exact (h.ordered key).start hp
    · rw [Stays.start, Function.update_of_ne ho]
      exact h.ordered other

theorem recolour (h : Follows avatars stays log clock) {occupancy : Occupancy}
    (ho : avatars.current.lookup key = some occupancy) :
    Follows { avatars with current := avatars.current.insert key { occupancy with avatar } }
      (Function.update stays key (recolour avatar (stays key))) log clock := by
  have hsame : ∀ other, latest (Function.update stays key
      (Avatars.recolour avatar (stays key)) other) = latest (stays other) := by
    intro other
    by_cases hne : other = key
    · rw [hne, Function.update_self, latest_recolour]
    · rw [Function.update_of_ne hne]
  refine ⟨?_, fun other r hr => (hsame other).trans (h.retired other r hr),
    fun other r hr => h.kept other r ((hsame other).symm.trans hr), ?_,
    (Map.length_insert_of_lookup ho).le.trans h.current_le, h.retired_le, h.peer_le, h.fair⟩
  · intro other
    rw [Map.lookup_insert]
    split_ifs with hne
    · rw [hne, Function.update_self, present_recolour, ← h.current, ho]; rfl
    · rw [Function.update_of_ne hne, h.current]
  · intro other
    by_cases hne : other = key
    · rw [hne, Function.update_self]
      exact (h.ordered key).recolour
    · rw [Function.update_of_ne hne]
      exact h.ordered other

theorem setPeer (h : Follows avatars stays log clock) (picture : Option String) :
    Follows (avatars.setPeer key picture) stays log clock := by
  obtain ⟨peer, stamp, he, hle⟩ := setPeer_spec h.peer_le key picture
  rw [he]
  exact { h with peer_le := hle }

theorem set (h : Follows avatars stays log clock) (hle : clock ≤ next) (network : ℕ)
    (picture : Option String) :
    Follows (avatars.set key picture next) (stays.call (.set network key picture next))
      (log ++ avatars.evicted (.set network key picture next)) next := by
  cases picture with
  | none => exact h.retire key hle
  | some avatar =>
    have h := h.mono hle
    have hmem : key ∈ stays.present ↔ (avatars.current.lookup key).isSome := by
      rw [h.current]; rfl
    rw [NetworkAvatars.evicted, List.append_nil, Stays.call, NetworkAvatars.set, hmem,
      ncard_present h.current]
    cases ho : avatars.current.lookup key with
    | some occupancy =>
      rw [if_pos Option.isSome_some]
      exact h.recolour ho
    | none =>
      by_cases hroom : avatars.current.entries.length < MAX_CURRENT_AVATARS
      · simp only [Option.isSome_none, Bool.false_eq_true, if_false, if_pos hroom]
        exact h.start ((h.current key).symm.trans ho) hroom
      · simp only [Option.isSome_none, Bool.false_eq_true, if_false, if_neg hroom]
        exact h

theorem rename (h : Follows avatars stays log clock) (hle : clock ≤ next) (network : ℕ)
    (old new : String) :
    Follows (avatars.rename old new next) (stays.call (.rename network old new next))
      (log ++ avatars.evicted (.rename network old new next)) next := by
  have hclosed := (h.retire old hle).retire new (Nat.le_refl next)
  rw [List.append_assoc] at hclosed
  rw [NetworkAvatars.evicted, Stays.call, NetworkAvatars.rename, ← h.current]
  cases ho : avatars.current.lookup old with
  | none => exact hclosed
  | some occupancy =>
    refine hclosed.start ?_ ?_
    · rw [Stays.close, Function.update_self, present_close]
    · have hlt := retire_current_lt next ho
      have hle := retire_current_le (avatars.retire old next) new next
      have := h.current_le
      omega

theorem foldl_close (keys : List String) (stays : Stays) (other : String) :
    keys.foldl (fun stays key => stays.close key next) stays other =
      if other ∈ keys then Avatars.close next (stays other) else stays other := by
  induction keys generalizing stays with
  | nil => rfl
  | cons key keys ih =>
    rw [List.foldl_cons, ih]
    by_cases ho : other = key
    · subst ho
      rw [Stays.close, Function.update_self, close_of_present present_close, ite_self,
        if_pos List.mem_cons_self]
    · rw [Stays.close, Function.update_of_ne ho]
      simp [ho]

theorem endKeys (h : Follows avatars stays log clock) (hle : clock ≤ next) (keys : List String) :
    Follows (avatars.endAll keys next) (keys.foldl (fun stays key => stays.close key next) stays)
      (log ++ collect (fun avatars key => avatars.evictions key next)
        (fun avatars key => avatars.retire key next) avatars keys) next := by
  induction keys generalizing avatars stays log clock with
  | nil =>
    rw [collect_nil, List.append_nil]
    exact h.mono hle
  | cons key keys ih =>
    rw [collect_cons, ← List.append_assoc]
    exact ih (h.retire key hle) (Nat.le_refl next)

theorem endAll (h : Follows avatars stays log clock) (hle : clock ≤ next) (network : ℕ)
    {keys : List String} (hkeys : keys.Perm avatars.current.keys) :
    Follows (avatars.endAll keys next) (stays.call (.endAll network keys next))
      (log ++ avatars.evicted (.endAll network keys next)) next := by
  have hall : keys.foldl (fun stays key => stays.close key next) stays =
      stays.call (.endAll network keys next) := by
    funext key
    rw [foldl_close]
    split_ifs with hk
    · rfl
    · have hnone : avatars.current.lookup key = none := by
        rw [AList.lookup_eq_none]
        exact fun hm => hk (hkeys.mem_iff.mpr (AList.mem_keys.mp hm))
      exact (close_of_present ((h.current key).symm.trans hnone)).symm
  rw [← hall]
  exact h.endKeys hle keys

theorem call (h : Follows avatars stays log clock) {c : DirectoryCall} (hwalks : c.Walks avatars)
    (hle : ∀ n ∈ c.next, clock ≤ n) :
    Follows (avatars.call c) (stays.call c) (log ++ avatars.evicted c) (c.next.getD clock) := by
  cases c with
  | set network key picture next => exact h.set (hle next rfl) network picture
  | rename network old new next => exact h.rename (hle next rfl) network old new
  | endAll network keys next => exact h.endAll (hle next rfl) network hwalks
  | setPeer network key picture =>
    rw [NetworkAvatars.evicted, List.append_nil]
    exact h.setPeer picture

theorem tidied (h : Follows avatars stays log clock) : Follows avatars.tidied stays log clock where
  current key := by rw [tidied_current]; exact h.current key
  retired key r hr := by rw [tidied_retired] at hr; exact h.retired key r hr
  kept key r hr := by rw [tidied_retired]; exact h.kept key r hr
  ordered := h.ordered
  current_le := by rw [tidied_current]; exact h.current_le
  retired_le := by rw [tidied_retired]; exact h.retired_le
  peer_le := by rw [tidied_peer]; exact h.peer_le
  fair := h.fair

theorem default : Follows default (fun _ => []) [] clock where
  current _ := rfl
  retired _ _ h := by cases h
  kept _ _ h := by cases h
  ordered _ := Ordered.nil
  current_le := Nat.zero_le _
  retired_le := Nat.zero_le _
  peer_le := Nat.zero_le _
  fair _ h := absurd h List.not_mem_nil

end Follows

end CayenChat.Avatars
