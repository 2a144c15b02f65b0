import CayenChat.Lib.Machine
import CayenChat.Presence.Refinement

/-! # Questions and identities

What the index answers about nicknames and channels is what the memberships
say, and over whole runs a number stands for one presence as long as that
lasts.
-/

namespace CayenChat

namespace PresenceIndex

variable {p : PresenceIndex} {i id : UserId} {c n k nickname channel x : String} {pr : Presence}
  {call : PresenceCall} {order : Iteration} {except : Option String}

/-- The index answers as the memberships say; names are folded as they are compared. -/
structure Answers (p : PresenceIndex) (r : Roster) : Prop where
  user : ∀ nickname, p.user nickname = r.ident (nicknameKey nickname)
  inChannel : ∀ channel nickname, p.inChannel channel nickname = true ↔
    (r.casemapping.fold channel, nicknameKey nickname) ∈ r.members
  channelKeysOf : ∀ nickname, (p.channelKeysOf nickname).Nodup ∧
    ∀ c, c ∈ p.channelKeysOf nickname ↔ (c, nicknameKey nickname) ∈ r.members
  shares : ∀ nickname except, p.shares nickname except = true ↔
    ∃ c, (c, nicknameKey nickname) ∈ r.members ∧ some c ≠ except.map r.casemapping.fold
  onlyIn : ∀ channel, (p.onlyIn channel).Pairwise (· < ·) ∧
    ∀ x, x ∈ p.onlyIn channel ↔ ∃ n, r.nick n = some x ∧
      (r.casemapping.fold channel, n) ∈ r.members ∧
      ∀ c, (c, n) ∈ r.members → c = r.casemapping.fold channel

namespace Consistent

theorem presenceOf_eq_some (h : p.Consistent) : p.presenceOf nickname = some pr ↔
    ∃ i, p.users.lookup i = some pr ∧ pr.key = nicknameKey nickname := by
  rw [presenceOf, Option.bind_eq_some_iff]
  constructor
  · rintro ⟨i, hi, hu⟩
    obtain ⟨pr', hu', hk⟩ := h.named.lookup_iff.mp hi
    rw [hu] at hu'
    cases hu'
    exact ⟨i, hu, hk⟩
  · rintro ⟨i, hu, hk⟩
    exact ⟨i, h.named.lookup_iff.mpr ⟨pr, hu, hk⟩, hu⟩

theorem mem_members_iff (h : p.Consistent) : (c, nicknameKey nickname) ∈ h.roster.members ↔
    ∃ pr, p.presenceOf nickname = some pr ∧ c ∈ pr.channels := by
  simp only [h.presenceOf_eq_some]
  constructor
  · rintro ⟨i, pr, hu, hk, hc⟩
    exact ⟨pr, ⟨i, hu, hk⟩, hc⟩
  · rintro ⟨pr, ⟨i, hu, hk⟩, hc⟩
    exact ⟨i, pr, hu, hk, hc⟩

theorem mem_members_of_lookup (h : p.Consistent) (hu : p.users.lookup i = some pr) :
    (c, pr.key) ∈ h.roster.members ↔ c ∈ pr.channels := by
  constructor
  · rintro ⟨j, pr', hu', hk, hc⟩
    obtain rfl := h.named.inj hu' hu hk
    rw [hu] at hu'
    cases hu'
    exact hc
  · exact fun hc => ⟨i, pr, hu, rfl, hc⟩

theorem inChannel_iff (h : p.Consistent) : p.inChannel channel nickname = true ↔
    (p.channelKey channel, nicknameKey nickname) ∈ h.roster.members := by
  rw [h.mem_members, inChannel, Option.any_eq_true]
  simp only [Option.any_eq_true, decide_eq_true_eq]
  constructor
  · rintro ⟨i, hi, m, hm, him⟩
    exact ⟨m, hm, i, him, hi⟩
  · rintro ⟨m, hm, i, him, hi⟩
    exact ⟨i, hi, m, hm, him⟩

theorem nodup_channelKeysOf (h : p.Consistent) : (p.channelKeysOf nickname).Nodup := by
  unfold channelKeysOf
  cases hp : p.presenceOf nickname with
  | none => exact List.nodup_nil
  | some pr =>
    obtain ⟨i, hu, _⟩ := h.presenceOf_eq_some.mp hp
    exact h.nodup hu

theorem mem_channelKeysOf (h : p.Consistent) : c ∈ p.channelKeysOf nickname ↔
    (c, nicknameKey nickname) ∈ h.roster.members := by
  rw [h.mem_members_iff, channelKeysOf]
  cases p.presenceOf nickname with
  | none => simp
  | some pr => simp

theorem shares_iff (h : p.Consistent) : p.shares nickname except = true ↔
    ∃ c, (c, nicknameKey nickname) ∈ h.roster.members ∧ some c ≠ except.map p.channelKey := by
  simp only [h.mem_members_iff, shares, Option.any_eq_true, List.any_eq_true, bne_iff_ne]
  constructor
  · rintro ⟨pr, hp, c, hc, he⟩
    exact ⟨c, ⟨pr, hp, hc⟩, he⟩
  · rintro ⟨c, ⟨pr, hp, hc⟩, he⟩
    exact ⟨pr, hp, c, hc, he⟩

theorem onlyIn_spec (h : p.Consistent) : (p.onlyIn channel).Pairwise (· < ·) ∧
    ∀ x, x ∈ p.onlyIn channel ↔ ∃ n, h.roster.nick n = some x ∧
      (p.channelKey channel, n) ∈ h.roster.members ∧
      ∀ c, (c, n) ∈ h.roster.members → c = p.channelKey channel := by
  have hmem (i : UserId) (pr : Presence) (hu : p.users.lookup i = some pr) :
      i ∈ (p.channels.lookup (p.channelKey channel)).elim ∅ Members.users ↔
        p.channelKey channel ∈ pr.channels := by
    rw [h.mem_iff hu]
    cases p.channels.lookup (p.channelKey channel) with
    | none => simp
    | some m => simp
  constructor
  · -- sorted, and no two users are spelled alike
    refine ((List.pairwise_insertionSort (· ≤ ·) _).and
      ((List.perm_insertionSort (· ≤ ·) _).nodup_iff.mpr ?_)).imp fun h => lt_of_le_of_ne h.1 h.2
    rw [List.Nodup, List.pairwise_map]
    refine List.Pairwise.filter _ (List.pairwise_filterMap.mpr ?_)
    refine (List.nodup_range.filter _).imp fun {i j} hne pr hu pr' hu' hn => hne ?_
    exact h.named.inj hu hu' (by rw [← h.key_nick hu, ← h.key_nick hu', hn])
  · intro x
    rw [onlyIn, (List.perm_insertionSort (· ≤ ·) _).mem_iff, List.mem_map]
    simp only [List.mem_filter, List.mem_filterMap, mem_ascending, beq_iff_eq]
    constructor
    · rintro ⟨pr, ⟨⟨i, hi, hu⟩, hl⟩, rfl⟩
      have hc := (hmem i pr hu).mp hi
      refine ⟨pr.key, h.nick_of_lookup hu, (h.mem_members_of_lookup hu).mpr hc, fun c hm => ?_⟩
      obtain ⟨d, hd⟩ := List.length_eq_one_iff.mp hl
      have hm' := (h.mem_members_of_lookup hu).mp hm
      rw [hd, List.mem_singleton] at hc hm'
      rw [hm', hc]
    · rintro ⟨n, hn, hc, honly⟩
      obtain ⟨i, pr, hu, rfl, hc⟩ := hc
      rw [h.nick_of_lookup hu] at hn
      refine ⟨pr, ⟨⟨i, (hmem i pr hu).mpr hc, hu⟩, ?_⟩, Option.some.inj hn⟩
      have hall : ∀ c ∈ pr.channels, c = p.channelKey channel := fun c hm =>
        honly c ((h.mem_members_of_lookup hu).mpr hm)
      have hperm : pr.channels.Perm [p.channelKey channel] :=
        (List.perm_ext_iff_of_nodup (h.nodup hu) (List.nodup_singleton _)).mpr fun c => by
          rw [List.mem_singleton]
          exact ⟨hall c, fun he => he ▸ hc⟩
      exact hperm.length_eq

theorem answers (h : p.Consistent) : p.Answers h.roster where
  user _ := rfl
  inChannel _ _ := h.inChannel_iff
  channelKeysOf _ := ⟨h.nodup_channelKeysOf, fun _ => h.mem_channelKeysOf⟩
  shares _ _ := h.shares_iff
  onlyIn _ := h.onlyIn_spec

theorem consistent_eq_true (h : p.Consistent) : p.consistent = true := by
  have hlookup {i : UserId} {pr : Presence} (he : (⟨i, pr⟩ : Sigma fun _ => Presence) ∈
      p.users.entries) : p.users.lookup i = some pr := AList.mem_lookup_iff.mpr he
  -- the entries by nickname are the users with their keys
  have hperm : p.byNick.entries.Perm (p.users.entries.map fun e => ⟨e.2.key, e.1⟩) := by
    have hnodup : (p.users.entries.map fun e =>
        (⟨e.2.key, e.1⟩ : Sigma fun _ : String => UserId)).Nodup := by
      rw [List.Nodup, List.pairwise_map]
      exact (List.nodupKeys_iff_pairwise.mp p.users.nodupKeys).imp fun hne he =>
        hne (congrArg (fun e : Sigma fun _ : String => UserId => e.2) he)
    refine (List.perm_ext_iff_of_nodup p.byNick.nodupKeys.nodup hnodup).mpr fun ⟨k, i⟩ => ?_
    rw [← AList.mem_lookup_iff, Option.mem_def, h.named.lookup_iff, List.mem_map]
    constructor
    · rintro ⟨pr, hu, rfl⟩
      exact ⟨⟨i, pr⟩, AList.mem_lookup_iff.mp hu, rfl⟩
    · rintro ⟨⟨j, pr⟩, he, hk⟩
      obtain ⟨rfl, hi⟩ := Sigma.mk.inj hk
      cases hi
      exact ⟨pr, hlookup he, rfl⟩
  simp only [PresenceIndex.consistent, Bool.and_eq_true, List.all_eq_true, beq_iff_eq,
    decide_eq_true_eq]
  refine ⟨⟨fun ⟨i, pr⟩ he => ⟨⟨?_, ?_⟩, fun c hc => ?_⟩, ?_⟩, fun ⟨c, m⟩ he i hi => ?_⟩
  · simpa using h.somewhere (hlookup he)
  · exact h.named.lookup (hlookup he)
  · obtain ⟨m, hm, hi⟩ := (h.mem_iff (hlookup he)).mp hc
    rw [hm, Option.any_some, decide_eq_true_eq]
    exact hi
  · rw [hperm.length_eq, List.length_map]
  · have hm : p.channels.lookup c = some m := AList.mem_lookup_iff.mpr he
    obtain ⟨pr, hu⟩ := h.no_orphan hm hi
    rw [hu, Option.any_some, List.any_eq_true]
    refine ⟨c, (h.mem_iff hu).mpr ⟨m, hm, hi⟩, ?_⟩
    rw [beq_iff_eq]
    exact (h.keyed hm).2.symm

def trace {p : PresenceIndex} (h : p.Consistent) :
    List (Iteration × PresenceCall) → List (PresenceCall × Roster)
  | [] => []
  | i :: is => (i.2, (h.step i).roster) :: (h.step i).trace is

variable {is : List (Iteration × PresenceCall)}

theorem exec (h : p.Consistent) (is : List (Iteration × PresenceCall)) :
    (Machine.exec PresenceIndex.step p is).Consistent :=
  Machine.exec_invariant' Consistent (fun _ i hp => hp.step i) h

theorem runs (h : p.Consistent) (is : List (Iteration × PresenceCall)) :
    Roster.Runs h.roster (h.trace is) := by
  induction is generalizing p with
  | nil => trivial
  | cons i is ih => exact ⟨h.roster_steps i, ih (h.step i)⟩

theorem final_trace (h : p.Consistent) (is : List (Iteration × PresenceCall)) :
    Roster.final h.roster (h.trace is) = (h.exec is).roster := by
  induction is generalizing p with
  | nil => rfl
  | cons i is ih => exact ih (h.step i)

theorem empty_roster : empty_consistent.roster = Roster.empty := by
  simp [roster, Roster.empty]

end Consistent

/-- After every run the index is consistent, its own check says so, the run is one of plain
memberships with identities, and the questions are answered from them. A number is held later on
exactly by the presence that holds it now, and only while that one goes on. -/
theorem refines_memberships (calls later : List (Iteration × PresenceCall)) :
    let p := Machine.exec PresenceIndex.step {} calls
    let p' := Machine.exec PresenceIndex.step p later
    ∃ h : p.Consistent, p.consistent = true ∧
      Roster.Runs .empty (empty_consistent.trace calls) ∧
      Roster.final .empty (empty_consistent.trace calls) = h.roster ∧
      p.Answers h.roster ∧
      ∀ n n' id, p.user n = some id →
        (p'.user n' = some id ↔
          Roster.Stays h.roster (h.trace later) (nicknameKey n) (nicknameKey n')) := by
  intro p p'
  have h : p.Consistent := empty_consistent.exec calls
  refine ⟨h, h.consistent_eq_true, ?_, ?_, h.answers, fun n n' id hn => ?_⟩
  · rw [← Consistent.empty_roster]
    exact empty_consistent.runs calls
  · rw [← Consistent.empty_roster]
    exact empty_consistent.final_trace calls
  · have hid : p'.user n' = (Roster.final h.roster (h.trace later)).ident (nicknameKey n') := by
      rw [h.final_trace]
      rfl
    rw [hid]
    exact (h.runs later).ident_iff_stays hn

example :
    let p := Machine.exec PresenceIndex.step {} ([.setCasemapping .ascii,
      .replaceChannel "#a[1]" ["@Bob", "~"], .replaceChannel "#a{1}" ["carol", "bob"],
      .setCasemapping .rfc1459, .rename "bob" "CAROL"].map (Iteration.ascending, ·))
    p.onlyIn "#A[1]" = ["CAROL"] ∧ p.user "carol" = some 0 ∧ p.user "bob" = none := by decide

end PresenceIndex

end CayenChat
