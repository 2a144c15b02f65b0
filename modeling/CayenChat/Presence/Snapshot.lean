import CayenChat.Presence.Effects
import CayenChat.Presence.Roster

/-! # What a snapshot does to the users

The entries of a snapshot are followed one by one: each spells a known user
or starts a presence. After the list, every user known before is spelled as
it was listed last, and the new ones are in no channel yet.
-/

namespace CayenChat

def lastSpelled (names : List String) (k : String) : Option String :=
  names.reverse.find? (nicknameKey · == k)

theorem lastSpelled_append {names : List String} {x k : String} :
    lastSpelled (names ++ [x]) k = if nicknameKey x = k then some x else lastSpelled names k := by
  simp only [lastSpelled, List.reverse_append, List.reverse_singleton, List.singleton_append,
    List.find?_cons]
  by_cases h : nicknameKey x = k
  · simp [h]
  · simp [h, beq_eq_false_iff_ne.mpr h]

theorem nicknameKey_lastSpelled {names : List String} {x k : String}
    (h : lastSpelled names k = some x) : nicknameKey x = k := by
  simpa using List.find?_some h

theorem listed_append {members : List String} {member : String} :
    listed (members ++ [member]) = listed members ++ listed [member] := by
  simp [listed]

namespace PresenceIndex

variable {p p' : PresenceIndex} {present : Finset UserId} {id i : UserId} {x k member : String}
  {names : List String}

def Fresh (p : PresenceIndex) : Prop := ∀ i pr, p.users.lookup i = some pr → i < p.next

/-- What one listed nickname does: its user is the one it names, or a new one. -/
structure Enlisted (x : String) (id : UserId) (p p' : PresenceIndex) : Prop where
  users : ∀ i, p'.users.lookup i = if i = id then
    some ⟨nicknameKey x, x, (p.users.lookup id).elim [] Presence.channels⟩ else p.users.lookup i
  known : ∀ pr, p.users.lookup id = some pr → pr.key = nicknameKey x
  new : p.users.lookup id = none → p.next ≤ id
  named : p'.Named
  fresh : p'.Fresh
  next : p.next ≤ p'.next
  channels : p'.channels = p.channels
  casemapping : p'.casemapping = p.casemapping

theorem enlist_padding (h : listed [member] = []) : enlist (p, present) member = (p, present) := by
  have hx : trimStartMatches ['~', '&', '@', '%', '+'] member = "" := by
    by_contra hx
    simp [listed, hx] at h
  simp only [enlist, hx, if_true]

theorem enlist_enlisted (hn : p.Named) (hf : p.Fresh) (h : listed [member] = [x]) :
    ∃ id p', enlist (p, present) member = (p', insert id present) ∧ Enlisted x id p p' := by
  have hx : trimStartMatches ['~', '&', '@', '%', '+'] member = x ∧ x ≠ "" := by
    by_cases hx : trimStartMatches ['~', '&', '@', '%', '+'] member = ""
    · simp [listed, hx] at h
    · have he : trimStartMatches ['~', '&', '@', '%', '+'] member = x := by
        simpa [listed, hx] using h
      exact ⟨he, he ▸ hx⟩
  unfold enlist
  dsimp only
  rw [hx.1, if_neg hx.2]
  cases hk : p.byNick.lookup (nicknameKey x) with
  | some id =>
    obtain ⟨pr, hp, hkey⟩ : ∃ pr, p.users.lookup id = some pr ∧ pr.key = nicknameKey x := by
      simpa using (hn _ _).mp hk
    refine ⟨id, _, rfl, ?_⟩
    have hu (i : UserId) : (Map.adjust p.users id (Presence.spell x)).lookup i =
        if i = id then some ⟨nicknameKey x, x, pr.channels⟩ else p.users.lookup i := by
      rw [Map.lookup_adjust]
      split_ifs with hi
      · rw [hi, hp, Option.map_some, Presence.spell_eq, hkey]
      · rfl
    refine ⟨fun i => by rw [hp]; exact hu i, fun pr' hp' => ?_, fun h => ?_,
      hn.of_keys rfl fun i => ?_, fun i pr' hi => ?_, le_rfl, rfl, rfl⟩
    · rw [hp] at hp'; cases hp'; exact hkey
    · rw [hp] at h; cases h
    · simp only [hu]
      split_ifs with hi
      · rw [hi, hp, Option.map_some, Option.map_some, hkey]
      · rfl
    · simp only [hu] at hi
      split_ifs at hi with he
      · exact he ▸ hf id pr hp
      · exact hf i pr' hi
  | none =>
    refine ⟨p.next, _, rfl, ?_⟩
    have hp : p.users.lookup p.next = none :=
      Option.eq_none_iff_forall_ne_some.mpr fun pr h => Nat.lt_irrefl _ (hf _ _ h)
    have hu (i : UserId) : (p.users.insert p.next ⟨nicknameKey x, x, []⟩).lookup i =
        if i = p.next then some ⟨nicknameKey x, x, []⟩ else p.users.lookup i := Map.lookup_insert
    refine ⟨fun i => by rw [hp]; exact hu i, fun pr' hp' => ?_, fun _ => le_rfl, fun k i => ?_,
      fun i pr hi => ?_, Nat.le_succ _, rfl, rfl⟩
    · rw [hp] at hp'; cases hp'
    · simp only [Map.lookup_insert]
      by_cases hk' : k = nicknameKey x
      · subst hk'
        rw [if_pos rfl]
        split_ifs with hi
        · simp [hi]
        · rw [← hn, hk]
          simpa using Ne.symm hi
      · rw [if_neg hk', hn]
        split_ifs with hi
        · subst hi
          simp [hp, Ne.symm hk']
        · rfl
    · simp only [hu] at hi
      split_ifs at hi with he
      · exact he ▸ Nat.lt_succ_self _
      · exact (hf i pr hi).trans (Nat.lt_succ_self _)

/-- What the listed nicknames did so far. -/
structure Enlists (names : List String) (p p' : PresenceIndex) (present : Finset UserId) :
    Prop where
  known : ∀ i pr, p.users.lookup i = some pr →
    p'.users.lookup i = some { pr with nick := (lastSpelled names pr.key).getD pr.nick }
  new : ∀ i pr', p'.users.lookup i = some pr' → p.users.lookup i = none →
    p.next ≤ i ∧ i ∈ present ∧ pr'.channels = [] ∧ lastSpelled names pr'.key = some pr'.nick
  mem_present : ∀ i, i ∈ present ↔
    ∃ pr', p'.users.lookup i = some pr' ∧ pr'.key ∈ names.map nicknameKey
  listed : ∀ x ∈ names, ∃ i ∈ present, p'.byNick.lookup (nicknameKey x) = some i
  named : p'.Named
  fresh : p'.Fresh
  next : p.next ≤ p'.next
  channels : p'.channels = p.channels
  casemapping : p'.casemapping = p.casemapping

theorem Enlists.snoc {p'' : PresenceIndex} (h : Enlists names p p' present)
    (hx : Enlisted x id p' p'') :
    Enlists (names ++ [x]) p p'' (insert id present) := by
  have hid : p''.users.lookup id =
      some ⟨nicknameKey x, x, (p'.users.lookup id).elim [] Presence.channels⟩ := by
    rw [hx.users, if_pos rfl]
  have hne {i : UserId} {pr : Presence} (hi : i ≠ id) (hp : p'.users.lookup i = some pr) :
      p''.users.lookup i = some pr ∧ nicknameKey x ≠ pr.key := by
    have hi' : p''.users.lookup i = some pr := by rw [hx.users, if_neg hi, hp]
    exact ⟨hi', fun hk => hi (hx.named.inj hi' hid hk.symm)⟩
  refine ⟨fun i pr hp => ?_, fun i pr' hp' hp => ?_, fun i => ?_, fun y hy => ?_, hx.named,
    hx.fresh, h.next.trans hx.next, hx.channels.trans h.channels,
    hx.casemapping.trans h.casemapping⟩
  · have hpi := h.known i pr hp
    by_cases hi : i = id
    · subst hi
      have hk := hx.known _ hpi
      dsimp only at hk
      rw [hid, hpi, lastSpelled_append, if_pos hk.symm, ← hk]
      rfl
    · obtain ⟨hi', hk⟩ := hne hi hpi
      rw [hi', lastSpelled_append, if_neg hk]
  · by_cases hi : i = id
    · subst hi
      rw [hid] at hp'
      cases hp'
      refine ⟨?_, Finset.mem_insert_self _ _, ?_, ?_⟩
      · cases hpi : p'.users.lookup i with
        | some pr => exact (h.new i pr hpi hp).1
        | none => exact h.next.trans (hx.new hpi)
      · cases hpi : p'.users.lookup i with
        | some pr => exact (h.new i pr hpi hp).2.2.1
        | none => rfl
      · rw [lastSpelled_append, if_pos rfl]
    · rw [hx.users, if_neg hi] at hp'
      obtain ⟨hlt, hm, hc, hl⟩ := h.new i pr' hp' hp
      refine ⟨hlt, Finset.mem_insert_of_mem hm, hc, ?_⟩
      rw [lastSpelled_append, if_neg (hne hi hp').2, hl]
  · rw [Finset.mem_insert, List.map_append, List.map_singleton]
    by_cases hi : i = id
    · subst hi
      simp [hid]
    · rw [hx.users, if_neg hi, h.mem_present, or_iff_right hi]
      refine exists_congr fun pr' => and_congr_right fun hp' => ?_
      rw [List.mem_append, List.mem_singleton, or_iff_left (hne hi hp').2.symm]
  · rcases List.mem_append.mp hy with hy | hy
    · obtain ⟨i, hi, hk⟩ := h.listed y hy
      refine ⟨i, Finset.mem_insert_of_mem hi, ?_⟩
      rw [hx.named, hx.users]
      split_ifs with he
      · subst he
        obtain ⟨pr, hp, hk⟩ : ∃ pr, p'.users.lookup i = some pr ∧ pr.key = nicknameKey y := by
          simpa using (h.named _ _).mp hk
        rw [Option.map_some, ← hk, ← hx.known pr hp]
      · exact (h.named _ _).mp hk
    · rw [List.mem_singleton.mp hy]
      exact ⟨id, Finset.mem_insert_self _ _, hx.named.lookup hid⟩

theorem foldl_enlist (hn : p.Named) (hf : p.Fresh) (members : List String) :
    Enlists (listed members) p (members.foldl enlist (p, ∅)).1
      (members.foldl enlist (p, ∅)).2 := by
  induction members using List.reverseRecOn with
  | nil => exact ⟨fun i pr h => h, fun i pr' h h' => by simp [h'] at h, by simp [listed],
      by simp [listed], hn, hf, le_rfl, rfl, rfl⟩
  | append_singleton members member ih =>
    rw [List.foldl_append, listed_append]
    cases hl : listed [member] with
    | nil => rwa [List.append_nil, List.foldl_cons, List.foldl_nil, enlist_padding hl]
    | cons x xs =>
      obtain rfl : xs = [] := by
        have hlen : (listed [member]).length ≤ 1 :=
          (List.length_filter_le _ _).trans_eq (List.length_map _)
        rw [hl, List.length_cons] at hlen
        exact List.length_eq_zero_iff.mp (by omega)
      obtain ⟨id, p', he, hx⟩ := enlist_enlisted
        ih.named ih.fresh hl
      rw [List.foldl_cons, List.foldl_nil, he]
      exact ih.snoc hx

end PresenceIndex

end CayenChat
