import CayenChat.Avatars.Occupied

/-! # Whose avatar a line shows

Over every run of the directory, a line shows the avatar of the occupancy it
belongs to, or the picture of its name. The evictions of a run are fair exactly
when none cuts through occupancies that ended together.
-/

namespace CayenChat.Avatars

open Machine NetworkAvatars

variable {calls : List DirectoryCall} {network clock : ℕ}

/-! ## Runs -/

theorem avatars_settle (directory : AvatarDirectory) (avatars : NetworkAvatars) (other : ℕ) :
    (directory.settle network avatars).avatars other =
      if other = network then avatars.tidied else directory.avatars other := by
  unfold AvatarDirectory.settle AvatarDirectory.avatars tidied
  cases avatars.isEmpty with
  | true =>
    simp only [if_true, Map.lookup_erase]
    split_ifs <;> rfl
  | false =>
    simp only [Bool.false_eq_true, if_false, Map.lookup_insert]
    split_ifs <;> rfl

theorem foldl_default (keys : List String) (next : ℕ) :
    (default : NetworkAvatars).endAll keys next = default := by
  induction keys with
  | nil => rfl
  | cons key keys ih => exact ih

theorem avatars_call (directory : AvatarDirectory) (c : DirectoryCall) (other : ℕ) :
    (directory.call c).avatars other = (directory.avatars other).call c ∨
      (directory.call c).avatars other = ((directory.avatars other).call c).tidied ∨
      other ≠ c.network := by
  by_cases ho : other = c.network
  swap
  · exact .inr (.inr ho)
  subst ho
  cases c with
  | set network key picture next => exact .inr (.inl ((avatars_settle ..).trans (if_pos rfl)))
  | setPeer network key picture => exact .inr (.inl ((avatars_settle ..).trans (if_pos rfl)))
  | rename network old new next =>
    left
    unfold AvatarDirectory.call AvatarDirectory.rename AvatarDirectory.avatars
    dsimp only [DirectoryCall.network]
    cases hl : directory.networks.lookup network with
    | none =>
      dsimp only
      rw [hl]
      rfl
    | some avatars =>
      dsimp only
      rw [AList.lookup_insert]
      rfl
  | endAll network keys next =>
    left
    unfold AvatarDirectory.call AvatarDirectory.endAll AvatarDirectory.avatars
    dsimp only [DirectoryCall.network]
    cases hl : directory.networks.lookup network with
    | none =>
      dsimp only
      rw [hl]
      exact (foldl_default keys next).symm
    | some avatars =>
      dsimp only
      rw [AList.lookup_insert]
      rfl

theorem avatars_call_of_ne (directory : AvatarDirectory) {c : DirectoryCall} {other : ℕ}
    (ho : other ≠ c.network) : (directory.call c).avatars other = directory.avatars other := by
  cases c with
  | set network key picture next => exact (avatars_settle ..).trans (if_neg ho)
  | setPeer network key picture => exact (avatars_settle ..).trans (if_neg ho)
  | rename network old new next =>
    unfold AvatarDirectory.call AvatarDirectory.rename AvatarDirectory.avatars
    dsimp only
    split
    · rfl
    · dsimp only
      rw [AList.lookup_insert_ne (show other ≠ network from ho)]
  | endAll network keys next =>
    unfold AvatarDirectory.call AvatarDirectory.endAll AvatarDirectory.avatars
    dsimp only
    split
    · rfl
    · dsimp only
      rw [AList.lookup_insert_ne (show other ≠ network from ho)]

def Walked (calls : List DirectoryCall) : Prop :=
  Along (fun directory c => c.Walks (directory.avatars c.network)) AvatarDirectory.call {} calls

def Advances (calls : List DirectoryCall) : Prop :=
  (calls.filterMap DirectoryCall.next).Pairwise (· ≤ ·)

theorem evictions_append (calls : List DirectoryCall) (c : DirectoryCall) :
    evictions network (calls ++ [c]) = evictions network calls ++
      if c.network = network then ((directory calls).avatars network).evicted c else [] := by
  unfold evictions
  rw [collect_append, collect_cons, collect_nil, List.append_nil]
  rfl

theorem follows_run (hwalked : Walked calls) (hnext : Advances calls)
    (hclock : ∀ n ∈ calls.filterMap DirectoryCall.next, n ≤ clock) :
    Follows ((directory calls).avatars network) (chronicle calls network)
      (evictions network calls) clock := by
  induction calls using List.reverseRecOn generalizing clock with
  | nil => exact Follows.default
  | append_singleton calls c ih =>
    obtain ⟨hwalked, hwalks, -⟩ := along_append.mp hwalked
    unfold Advances at hnext
    rw [List.filterMap_append, List.pairwise_append] at hnext
    rw [List.filterMap_append] at hclock
    have hd : directory (calls ++ [c]) = (directory calls).call c := exec_append ..
    have hc : chronicle (calls ++ [c]) = (chronicle calls).call c := exec_append ..
    rw [hd, hc, evictions_append]
    by_cases hn : network = c.network
    · subst hn
      -- Everything so far lies no later than the call, so its stays do not reach past it.
      have hbefore : ∀ n ∈ calls.filterMap DirectoryCall.next, n ≤ c.next.getD clock := by
        intro n hm
        cases hcn : c.next with
        | none => exact hclock n (List.mem_append_left _ hm)
        | some next => exact hnext.2.2 n hm next (by simp [hcn])
      have h := (ih hwalked hnext.1 hbefore).call hwalks (fun n hcn => by
        rw [hcn]; exact Nat.le_refl _)
      rw [if_pos rfl, Chronicle.call, Function.update_self]
      have hle : c.next.getD (c.next.getD clock) ≤ clock := by
        cases hcn : c.next with
        | none => exact Nat.le_refl _
        | some next => exact hclock next (List.mem_append_right _ (by simp [hcn]))
      rcases avatars_call (directory calls) c c.network with he | he | he
      · rw [he]
        exact h.mono hle
      · rw [he]
        exact h.tidied.mono hle
      · exact absurd rfl he
    · rw [avatars_call_of_ne _ hn, Chronicle.call, Function.update_of_ne hn,
        if_neg (Ne.symm hn), List.append_nil]
      exact ih hwalked hnext.1 fun n hm => hclock n (List.mem_append_left _ hm)


/-! ## What a line shows -/

namespace Follows

variable {avatars : NetworkAvatars} {stays : Stays} {log : List Eviction} {key : String}
  {sequence : ℕ} {avatar : String} {r : Retired} {stay : Stay}

theorem shows_present (h : Follows avatars stays log clock) (hm : stay ∈ stays key)
    (hp : stay.ended = none) (hc : stay.Covers sequence) :
    avatars.forMessage key sequence = some stay.avatar := by
  have hpresent : present (stays key) = some ⟨stay.avatar, stay.since⟩ := by
    cases hs : stays key with
    | nil => rw [hs] at hm; exact absurd hm List.not_mem_nil
    | cons newest rest =>
      rw [hs] at hm
      rcases List.mem_cons.mp hm with rfl | hr
      · obtain ⟨avatar, since, ended⟩ := stay
        cases hp
        rfl
      · have ha := (h.ordered key).apart
        rw [hs] at ha
        obtain ⟨e, he, -⟩ := (List.pairwise_cons.mp ha).1 stay hr
        rw [hp] at he
        cases he
  unfold NetworkAvatars.forMessage
  rw [h.current, hpresent, Option.filter_some, if_pos (by simpa using hc.1)]

theorem covers_latest (hr : latest (stays key) = some r) :
    ∃ stay ∈ stays key, stay.avatar = r.avatar ∧
      ∀ sequence, stay.Covers sequence ↔ r.since ≤ sequence ∧ sequence < r.«until» := by
  obtain ⟨stay, hm, ha, hs, he, -⟩ := latest_eq_some hr
  refine ⟨stay, hm, ha, fun sequence => ?_⟩
  unfold Stay.Covers
  rw [hs, he]
  simp

theorem shows (h : Follows avatars stays log clock) (key : String) (sequence : ℕ) :
    (∃ stay ∈ stays key, stay.Covers sequence ∧
      avatars.forMessage key sequence = some stay.avatar) ∨
    avatars.forMessage key sequence = avatars.picture key := by
  unfold NetworkAvatars.forMessage
  split
  · rename_i occupancy ho
    obtain ⟨ho, hle⟩ := Option.filter_eq_some_iff.mp ho
    left
    exact ⟨_, present_mem ((h.current key).symm.trans ho), ⟨by simpa using hle, fun e he => by cases he⟩,
      rfl⟩
  · cases hr : (avatars.retired.lookup key).filter fun retired =>
        decide (retired.since ≤ sequence) && decide (sequence < retired.«until») with
    | none => exact .inr rfl
    | some r =>
      obtain ⟨hl, hin⟩ := Option.filter_eq_some_iff.mp hr
      obtain ⟨stay, hm, ha, hcov⟩ := covers_latest (h.retired key r hl)
      left
      refine ⟨stay, hm, (hcov sequence).mpr (by simpa using hin), ?_⟩
      rw [ha]
      rfl

theorem shows_retired (h : Follows avatars stays log clock)
    (hl : avatars.retired.lookup key = some r) (hs : r.since ≤ sequence)
    (hu : sequence < r.«until») : avatars.forMessage key sequence = some r.avatar := by
  obtain ⟨stay, hm, ha, hcov⟩ := covers_latest (h.retired key r hl)
  unfold NetworkAvatars.forMessage
  split
  · rename_i occupancy ho
    obtain ⟨ho, hle⟩ := Option.filter_eq_some_iff.mp ho
    -- The present stay would share the message with the ended one.
    have hp := present_mem ((h.current key).symm.trans ho)
    obtain ⟨rest, hrest⟩ := present_eq_some ((h.current key).symm.trans ho)
    have hd := (h.ordered key).disjoint
    rw [hrest] at hd hm
    rcases List.mem_cons.mp hm with rfl | hm
    · rw [← ha]
    · refine absurd ⟨⟨by simpa using hle, ?_⟩, (hcov sequence).mpr ⟨hs, hu⟩⟩
        ((List.pairwise_cons.mp hd).1 stay hm sequence)
      intro e he
      cases he
  · rw [hl, Option.filter_some, if_pos (by simp [hs, hu])]
    rfl

end Follows

/-- What a run of the directory does for the nicknames of every network. -/
structure Belonging (calls : List DirectoryCall) : Prop where
  /-- A line shows the avatar of an occupancy of its sender that it belongs to, or the picture of
  the name. -/
  shown : ∀ network key sequence avatar,
    (directory calls).forMessage network key sequence = some avatar →
    (∃ stay ∈ chronicle calls network key, stay.Covers sequence ∧ stay.avatar = avatar) ∨
      ((directory calls).avatars network).picture key = some avatar
  /-- A line that belongs to no occupancy shows the picture of the name at most. -/
  stranger : ∀ network key sequence,
    (∀ stay ∈ chronicle calls network key, ¬ stay.Covers sequence) →
    (directory calls).forMessage network key sequence =
      ((directory calls).avatars network).picture key
  /-- The lines of the current occupancy show its avatar. -/
  current : ∀ network key, ∀ stay ∈ chronicle calls network key, stay.ended = none →
    ∀ sequence, stay.Covers sequence →
    (directory calls).forMessage network key sequence = some stay.avatar
  /-- The lines of the latest ended occupancy that can have lines show its avatar, unless it was
  evicted. -/
  retired : ∀ network key r, latest (chronicle calls network key) = some r →
    (∀ sequence, r.since ≤ sequence → sequence < r.«until» →
      (directory calls).forMessage network key sequence = some r.avatar) ∨
    ∃ e ∈ evictions network calls, e.Drops key r
  /-- No message belongs to two occupancies of a name. -/
  apart : ∀ network key, (chronicle calls network key).Pairwise fun newer older =>
    ∀ sequence, ¬ (newer.Covers sequence ∧ older.Covers sequence)
  /-- The tables keep their bounds. -/
  bounded : ∀ network,
    ((directory calls).avatars network).current.entries.length ≤ MAX_CURRENT_AVATARS ∧
    ((directory calls).avatars network).retired.entries.length ≤ MAX_RETIRED_AVATARS ∧
    ((directory calls).avatars network).peer.entries.length ≤ MAX_PEER_AVATARS
  /-- An eviction drops only the earliest-ended quarter. -/
  fair : ∀ network, ∀ e ∈ evictions network calls, e.Fair

theorem forMessage_eq (directory : AvatarDirectory) (key : String) (sequence : ℕ) :
    directory.forMessage network key sequence =
      (directory.avatars network).forMessage key sequence := by
  unfold AvatarDirectory.forMessage AvatarDirectory.avatars
  split
  · rename_i h
    rw [h]
    rfl
  · rename_i h
    rw [h]
    rfl

/-- Avatars belong to the occupancies of a run exactly when no eviction cuts through occupancies
that ended together. -/
theorem avatars_belong_iff (hwalked : Walked calls) (hnext : Advances calls) :
    Belonging calls ↔ ∀ network, ∀ e ∈ evictions network calls, e.Untied := by
  have h : ∀ network, Follows ((directory calls).avatars network) (chronicle calls network)
      (evictions network calls) (calls.filterMap DirectoryCall.next).sum :=
    fun network => follows_run hwalked hnext fun _ => List.le_sum_of_mem
  constructor
  · intro hb network e he
    exact ((h network).fair e he).mp (hb.fair network e he)
  · intro hu
    constructor
    · intro network key sequence avatar ha
      rw [forMessage_eq] at ha
      rcases (h network).shows key sequence with ⟨stay, hm, hc, hs⟩ | hp
      · exact .inl ⟨stay, hm, hc, Option.some.inj (hs.symm.trans ha)⟩
      · exact .inr (hp.symm.trans ha)
    · intro network key sequence hno
      rw [forMessage_eq]
      rcases (h network).shows key sequence with ⟨stay, hm, hc, -⟩ | hp
      · exact absurd hc (hno stay hm)
      · exact hp
    · intro network key stay hm hp sequence hc
      rw [forMessage_eq]
      exact (h network).shows_present hm hp hc
    · intro network key r hr
      rcases (h network).kept key r hr with hl | hd
      · left
        intro sequence hs hlt
        rw [forMessage_eq]
        exact (h network).shows_retired hl hs hlt
      · exact .inr hd
    · exact fun network key => ((h network).ordered key).disjoint
    · exact fun network => ⟨(h network).current_le, (h network).retired_le, (h network).peer_le⟩
    · exact fun network e he => ((h network).fair e he).mpr (hu network e he)

def bobsAvatar : List DirectoryCall :=
  [.set 1 "bob" (some "a") 5, .set 1 "bob" none 12]

theorem bobs_avatar_belongs : Walked bobsAvatar ∧ Advances bobsAvatar ∧ Belonging bobsAvatar := by
  have hw : Walked bobsAvatar := ⟨trivial, trivial, trivial⟩
  have ha : Advances bobsAvatar := by
    unfold Advances
    decide
  refine ⟨hw, ha, (avatars_belong_iff hw ha).mpr fun network e he => ?_⟩
  by_cases hn : network = 1
  · subst hn
    rw [show evictions 1 bobsAvatar = [] from rfl] at he
    exact absurd he List.not_mem_nil
  · unfold evictions bobsAvatar at he
    have h1 : (DirectoryCall.set 1 "bob" (some "a") 5).network ≠ network := Ne.symm hn
    have h2 : (DirectoryCall.set 1 "bob" none 12).network ≠ network := Ne.symm hn
    rw [collect_cons, collect_cons, if_neg h1, if_neg h2] at he
    exact absurd he List.not_mem_nil

/-! ## A disconnect that ends too many at once -/

variable {avatars : NetworkAvatars} {next : ℕ}

theorem length_insert_of_none {key : String} {r : Retired} {m : Map String Retired}
    (h : m.lookup key = none) : (m.insert key r).entries.length = m.entries.length + 1 := by
  have hk : key ∉ m.keys := AList.lookup_eq_none.mp h
  have hl := congrArg List.length (AList.keys_insert (a := key) (b := r) m)
  rw [List.erase_of_not_mem hk, List.length_cons] at hl
  simpa [AList.keys, List.keys] using hl

/-- Occupancies that end at the same sequence fill the table, and the first eviction cuts through
them. -/
theorem endAll_tied {keys : List String} (hnodup : keys.Nodup)
    (hcurrent : ∀ key ∈ keys, ∃ occupancy, avatars.current.lookup key = some occupancy ∧
      occupancy.since < next)
    (hfree : ∀ key ∈ keys, avatars.retired.lookup key = none)
    (hends : ∀ key r, avatars.retired.lookup key = some r → r.«until» = next)
    (hlen : MAX_RETIRED_AVATARS < avatars.retired.entries.length + keys.length)
    (hle : avatars.retired.entries.length ≤ MAX_RETIRED_AVATARS) :
    ∃ e ∈ avatars.evicted (.endAll network keys next), ¬ e.Untied := by
  unfold NetworkAvatars.evicted
  dsimp only
  induction keys generalizing avatars with
  | nil => rw [List.length_nil] at hlen; omega
  | cons key keys ih =>
    obtain ⟨occupancy, ho, hs⟩ := hcurrent key List.mem_cons_self
    have hnew := length_insert_of_none (r := ⟨occupancy.avatar, occupancy.since, next⟩)
      (hfree key List.mem_cons_self)
    have hends' : ∀ other r, (avatars.ended key occupancy next).lookup other = some r →
        r.«until» = next := by
      intro other r hr
      rw [NetworkAvatars.ended, Map.lookup_insert] at hr
      split_ifs at hr
      · cases hr; rfl
      · exact hends other r hr
    rw [collect_cons]
    by_cases hfull : MAX_RETIRED_AVATARS < (avatars.ended key occupancy next).entries.length
    · refine ⟨⟨key, avatars.ended key occupancy next, evict (avatars.ended key occupancy next)⟩,
        List.mem_append_left _ ?_, ?_⟩
      · rw [NetworkAvatars.evictions, ho]
        dsimp only
        rw [if_neg (Nat.not_le.mpr hs), if_pos hfull]
        exact List.mem_singleton_self _
      · have hconst : ∀ n ∈ ends (avatars.ended key occupancy next), n = next := by
          intro n hn
          obtain ⟨other, r, hr, rfl⟩ := mem_ends.mp hn
          exact hends' other r hr
        have hlt : MAX_RETIRED_AVATARS / 4 + 1 <
            (ends (avatars.ended key occupancy next)).length := by
          rw [length_ends]
          exact lt_trans (by decide) hfull
        intro hu
        unfold Eviction.Untied at hu
        dsimp only at hu
        rw [Cutoff.rank_of_const hlt hconst,
          Cutoff.rank_of_const (Nat.lt_of_succ_lt hlt) hconst] at hu
        exact Nat.lt_irrefl _ hu
    · have hne : ∀ other ∈ keys, other ≠ key := by
        rintro other hm rfl
        exact (List.nodup_cons.mp hnodup).1 hm
      have ht : avatars.retire key next = { avatars with
          current := avatars.current.erase key
          retired := avatars.ended key occupancy next } := by
        rw [NetworkAvatars.retire, ho]
        dsimp only
        rw [if_neg (Nat.not_le.mpr hs)]
        exact congrArg (fun retired => { avatars with
          current := avatars.current.erase key
          retired := retired }) (evict_of_le (Nat.not_lt.mp hfull))
      obtain ⟨e, he, hu⟩ := @ih (avatars.retire key next)
        (List.nodup_cons.mp hnodup).2
        (by
          intro other hm
          obtain ⟨occupancy, ho, hs⟩ := hcurrent other (List.mem_cons_of_mem _ hm)
          refine ⟨occupancy, ?_, hs⟩
          rw [retire_current, if_neg (hne other hm), ho])
        (by
          intro other hm
          rw [ht]
          dsimp only
          rw [NetworkAvatars.ended, Map.lookup_insert, if_neg (hne other hm)]
          exact hfree other (List.mem_cons_of_mem _ hm))
        (by rw [ht]; exact hends')
        (by
          rw [ht]
          dsimp only
          rw [NetworkAvatars.ended, hnew]
          rw [List.length_cons] at hlen
          omega)
        (by rw [ht]; exact Nat.not_lt.mp hfull)
      exact ⟨e, List.mem_append_right _ he, hu⟩

def setting (network : ℕ) (keys : List String) : List DirectoryCall :=
  keys.map fun key => .set network key (some "a") 0

theorem directory_setting {keys : List String} (hnodup : keys.Nodup)
    (hle : keys.length ≤ MAX_CURRENT_AVATARS) :
    ((directory (setting network keys)).avatars network).retired = ∅ ∧
      ((directory (setting network keys)).avatars network).current.entries.length = keys.length ∧
      ∀ key occupancy,
        ((directory (setting network keys)).avatars network).current.lookup key = some occupancy →
        key ∈ keys ∧ occupancy.since = 0 := by
  induction keys using List.reverseRecOn with
  | nil => exact ⟨rfl, rfl, fun key occupancy h => by cases h⟩
  | append_singleton keys key ih =>
    rw [List.nodup_append] at hnodup
    rw [List.length_append, List.length_singleton] at hle
    obtain ⟨hr, hl, hc⟩ := ih hnodup.1 (Nat.le_of_succ_le hle)
    have hkey : key ∉ keys := fun h => hnodup.2.2 key h key (List.mem_singleton_self _) rfl
    have hnone : ((directory (setting network keys)).avatars network).current.lookup key = none :=
      Option.eq_none_iff_forall_ne_some.mpr fun occupancy h => hkey (hc key occupancy h).1
    have hd : (directory (setting network (keys ++ [key]))).avatars network =
        (((directory (setting network keys)).avatars network).set key (some "a") 0).tidied := by
      have : directory (setting network (keys ++ [key])) =
          (directory (setting network keys)).call (.set network key (some "a") 0) := by
        unfold directory setting
        rw [List.map_append, exec_append]
        rfl
      rw [this]
      exact (avatars_settle ..).trans (if_pos rfl)
    have hs : ((directory (setting network keys)).avatars network).set key (some "a") 0 =
        { (directory (setting network keys)).avatars network with
          current := ((directory (setting network keys)).avatars network).current.insert key
            ⟨"a", 0⟩ } := by
      unfold NetworkAvatars.set
      dsimp only
      rw [hnone]
      exact if_pos (by omega)
    rw [hd, tidied_retired, tidied_current, hs]
    refine ⟨hr, ?_, ?_⟩
    · have hk : key ∉ ((directory (setting network keys)).avatars network).current.keys :=
        AList.lookup_eq_none.mp hnone
      have hkeys := congrArg List.length (AList.keys_insert (a := key) (b := (⟨"a", 0⟩ : Occupancy))
        ((directory (setting network keys)).avatars network).current)
      rw [List.erase_of_not_mem hk, List.length_cons] at hkeys
      rw [List.length_append, List.length_singleton, ← hl]
      simpa [AList.keys, List.keys] using hkeys
    · intro other occupancy ho
      dsimp only at ho
      rw [Map.lookup_insert] at ho
      split_ifs at ho with hne
      · cases ho
        exact ⟨by simp [hne], rfl⟩
      · obtain ⟨hm, hz⟩ := hc other occupancy ho
        exact ⟨List.mem_append_left _ hm, hz⟩

def disconnect (network : ℕ) (keys : List String) : List DirectoryCall :=
  setting network keys ++
    [.endAll network ((directory (setting network keys)).avatars network).current.keys 1]

theorem walked_setting (keys : List String) (directory : AvatarDirectory) :
    Along (fun directory c => c.Walks (directory.avatars c.network)) AvatarDirectory.call directory
      (setting network keys) := by
  induction keys generalizing directory with
  | nil => trivial
  | cons key keys ih => exact ⟨trivial, ih _⟩

theorem walked_disconnect (network : ℕ) (keys : List String) : Walked (disconnect network keys) :=
  along_append.mpr ⟨walked_setting keys {}, List.Perm.refl _, trivial⟩

theorem advances_disconnect (network : ℕ) (keys : List String) : Advances (disconnect network keys) := by
  unfold Advances disconnect
  rw [List.filterMap_append, List.pairwise_append]
  have h0 : ∀ n ∈ (setting network keys).filterMap DirectoryCall.next, n = 0 := by
    intro n hn
    obtain ⟨c, hc, he⟩ := List.mem_filterMap.mp hn
    obtain ⟨key, -, rfl⟩ := List.mem_map.mp hc
    cases he
    rfl
  refine ⟨List.Pairwise.imp_of_mem (fun ha _ _ => ?_) (List.pairwise_of_forall
    (R := fun _ _ => True) fun _ _ => trivial), List.pairwise_singleton .., fun m hm n _ => ?_⟩
  · rw [h0 _ ha]; exact Nat.zero_le _
  · rw [h0 m hm]; exact Nat.zero_le _

/-- The loss of a network with more avatars than ended occupancies are remembered evicts through
those that end with it. -/
theorem disconnect_not_belonging {keys : List String} (hnodup : keys.Nodup)
    (hlt : MAX_RETIRED_AVATARS < keys.length) (hle : keys.length ≤ MAX_CURRENT_AVATARS) :
    ¬ Belonging (disconnect network keys) := by
  intro hb
  obtain ⟨hr, hl, hc⟩ := @directory_setting network keys hnodup hle
  obtain ⟨e, he, hu⟩ := @endAll_tied network
    ((directory (setting network keys)).avatars network) 1
    ((directory (setting network keys)).avatars network).current.keys
    ((directory (setting network keys)).avatars network).current.nodupKeys
    (by
      intro key hm
      obtain ⟨occupancy, ho⟩ := Option.isSome_iff_exists.mp (AList.lookup_isSome.mpr
        (AList.mem_keys.mpr hm))
      exact ⟨occupancy, ho, by rw [(hc key occupancy ho).2]; exact Nat.one_pos⟩)
    (by intro key _; rw [hr]; rfl)
    (by intro key r h; rw [hr] at h; cases h)
    (by
      rw [hr, AList.keys, List.keys, List.length_map, hl]
      exact Nat.lt_add_left 0 hlt)
    (by rw [hr]; exact Nat.zero_le _)
  refine hu ((avatars_belong_iff (walked_disconnect network keys) (advances_disconnect network keys)).mp
    hb network e ?_)
  unfold disconnect
  rw [evictions_append]
  exact List.mem_append_right _ (by rwa [if_pos (by rfl)])

@[irreducible] def crowd : List String :=
  (List.range (MAX_RETIRED_AVATARS + 1)).map fun n => String.ofList (List.replicate n 'u')

theorem crowd_nodup : crowd.Nodup := by
  unfold crowd
  refine List.Nodup.map (fun m n h => ?_) List.nodup_range
  have := congrArg String.length h
  simpa using this

theorem crowd_length : crowd.length = MAX_RETIRED_AVATARS + 1 := by
  unfold crowd
  rw [List.length_map, List.length_range]

theorem crowd_forgotten : Walked (disconnect 1 crowd) ∧ Advances (disconnect 1 crowd) ∧
    ¬ Belonging (disconnect 1 crowd) := by
  refine ⟨walked_disconnect 1 crowd, advances_disconnect 1 crowd, ?_⟩
  apply disconnect_not_belonging crowd_nodup
  · rw [crowd_length, MAX_RETIRED_AVATARS]
    omega
  · rw [crowd_length, MAX_RETIRED_AVATARS, MAX_CURRENT_AVATARS]
    omega

end CayenChat.Avatars
