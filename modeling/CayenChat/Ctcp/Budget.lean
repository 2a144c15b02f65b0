import CayenChat.Lib.Totals
import CayenChat.Lib.Window
import CayenChat.Wire.Names

/-! # The budget of CTCP messages

A bounded count of recent events, in total and for each user. What is admitted
is remembered, so that both counts are read off the same events.
-/

namespace CayenChat.Ctcp

open Window

def window : ℕ := 10000

def maxPerWindow : ℕ := 5

def maxPerUser : ℕ := 2

/-- The recent events, oldest first. -/
structure Budget where
  recent : List ℕ := []
  perUser : Map String (List ℕ) := ∅
  /-- When a refusal was last reported. -/
  reported : Option ℕ := none

inductive Admission
  | admitted
  | refused
  | muted
  deriving DecidableEq, Repr

namespace Budget

def prune (b : Budget) (now : ℕ) : Budget :=
  { b with
    recent := b.recent.dropWhile fun sent => !decide (now - sent < window)
    perUser := Map.keepValues (fun times => !times.isEmpty)
      (Map.mapValues (fresh window now) b.perUser) }

/-- Whether one more event of the sender is handled now. -/
def admitEvent (b : Budget) (sender : String) (now : ℕ) : Budget × Admission :=
  let b := b.prune now
  let key := nicknameKey sender
  let used := ((b.perUser.lookup key).map List.length).getD 0
  if maxPerWindow ≤ b.recent.length ∨ maxPerUser ≤ used then
    if b.reported.any fun reported => decide (now - reported < window) then (b, .muted)
    else ({ b with reported := some now }, .refused)
  else
    ({ b with
        recent := b.recent ++ [now]
        perUser := b.perUser.insert key ((b.perUser.lookup key).getD [] ++ [now]) },
      .admitted)

end Budget

/-! ## What a budget remembers -/

/-- An admitted event: who sent it, folded, and when. -/
structure Admitted where
  key : String
  time : ℕ

def ofUser (key : String) (log : List Admitted) : List ℕ :=
  (log.filter fun a => a.key == key).map Admitted.time

/-- What was admitted and which refusals were reported until a time, with the budget that
remembers them. -/
structure Keeps (b : Budget) (log : List Admitted) (refusals : List ℕ) (now : ℕ) : Prop where
  recent : ∃ seen ≤ now, b.recent = fresh window seen (log.map Admitted.time) ∧
    ∀ key, (b.perUser.lookup key).getD [] = fresh window seen (ofUser key log)
  occupied : ∀ key, b.perUser.lookup key ≠ some []
  past : ∀ a ∈ log, a.time ≤ now
  paced : Paced window maxPerWindow (log.map Admitted.time)
  users : ∀ key, Paced window maxPerUser (ofUser key log)
  reported : b.reported = refusals.getLast?
  reports : Paced window 1 refusals
  told : ∀ t ∈ refusals, t ≤ now

section Keeping

variable {b : Budget} {log : List Admitted} {refusals : List ℕ} {now after : ℕ} {key : String}
  {a : Admitted} {sender : String}

theorem ofUser_append : ofUser key (log ++ [a]) =
    ofUser key log ++ if a.key = key then [a.time] else [] := by
  unfold ofUser
  rw [List.filter_append, List.map_append]
  split_ifs with h <;> simp [h]

theorem ofUser_sublist : (ofUser key log).Sublist (log.map Admitted.time) :=
  List.filter_sublist.map _

theorem keeps_new (now : ℕ) : Keeps {} [] [] now where
  recent := ⟨0, Nat.zero_le _, rfl, fun _ => rfl⟩
  occupied key h := by cases h
  past a h := by cases h
  paced := .nil
  users _ := .nil
  reported := rfl
  reports := .nil
  told t h := by cases h

theorem Keeps.later (h : Keeps b log refusals now) (hl : now ≤ after) :
    Keeps b log refusals after where
  recent := by
    obtain ⟨seen, hs, hr, hu⟩ := h.recent
    exact ⟨seen, hs.trans hl, hr, hu⟩
  occupied := h.occupied
  past a ha := (h.past a ha).trans hl
  paced := h.paced
  users := h.users
  reported := h.reported
  reports := h.reports
  told t ht := (h.told t ht).trans hl

theorem Keeps.prune_recent (h : Keeps b log refusals now) :
    (b.prune now).recent = fresh window now (log.map Admitted.time) := by
  obtain ⟨seen, hs, hr, -⟩ := h.recent
  have hord : b.recent.Pairwise (· ≤ ·) := by
    rw [hr]
    exact h.paced.ordered.filter _
  calc (b.prune now).recent = fresh window now b.recent := dropWhile_stale hord
    _ = fresh window now (log.map Admitted.time) := by rw [hr, fresh_fresh hs]

theorem lookup_prune (b : Budget) (now : ℕ) (key : String) :
    (b.prune now).perUser.lookup key =
      ((b.perUser.lookup key).map (fresh window now)).filter fun times => !times.isEmpty := by
  unfold Budget.prune
  rw [Map.lookup_keepValues, Map.lookup_mapValues]

theorem Keeps.prune_user (h : Keeps b log refusals now) (key : String) :
    ((b.prune now).perUser.lookup key).getD [] = fresh window now (ofUser key log) := by
  obtain ⟨seen, hs, -, hu⟩ := h.recent
  have heq : fresh window now ((b.perUser.lookup key).getD []) =
      fresh window now (ofUser key log) := by
    rw [hu key, fresh_fresh hs]
  rw [lookup_prune, ← heq]
  cases b.perUser.lookup key with
  | none => rfl
  | some times =>
    rw [Option.map_some, Option.getD_some]
    by_cases he : fresh window now times = []
    · rw [he, Option.filter_some_neg (by simp), Option.getD_none]
    · rw [Option.filter_some_pos (by simpa using he), Option.getD_some]

theorem prune_occupied (b : Budget) (now : ℕ) (key : String) :
    (b.prune now).perUser.lookup key ≠ some [] := by
  intro h
  rw [lookup_prune, Option.filter_eq_some_iff] at h
  simp at h

theorem used_eq (o : Option (List ℕ)) : (o.map List.length).getD 0 = (o.getD []).length := by
  cases o <;> rfl

theorem admitEvent_cases (b : Budget) (sender : String) (now : ℕ) :
    (b.admitEvent sender now = (b.prune now, .muted)) ∨
    ((∀ t, b.reported = some t → ¬ now - t < window) ∧
      b.admitEvent sender now = ({ b.prune now with reported := some now }, .refused)) ∨
    ((b.prune now).recent.length < maxPerWindow ∧
      (((b.prune now).perUser.lookup (nicknameKey sender)).getD []).length < maxPerUser ∧
      b.admitEvent sender now =
        ({ b.prune now with
            recent := (b.prune now).recent ++ [now]
            perUser := (b.prune now).perUser.insert (nicknameKey sender)
              (((b.prune now).perUser.lookup (nicknameKey sender)).getD [] ++ [now]) },
          .admitted)) := by
  unfold Budget.admitEvent
  dsimp only
  rw [used_eq]
  split
  · split
    · exact .inl rfl
    · rename_i hmuted
      refine .inr (.inl ⟨fun t ht hlt => hmuted ?_, rfl⟩)
      rw [show (b.prune now).reported = some t from ht]
      exact decide_eq_true hlt
  · rename_i hroom
    push Not at hroom
    exact .inr (.inr ⟨hroom.1, hroom.2, rfl⟩)

theorem Keeps.prune (h : Keeps b log refusals now) : Keeps (b.prune now) log refusals now where
  recent := ⟨now, le_rfl, h.prune_recent, h.prune_user⟩
  occupied := prune_occupied b now
  past := h.past
  paced := h.paced
  users := h.users
  reported := h.reported
  reports := h.reports
  told := h.told

theorem mem_concat_le {l : List ℕ} (h : ∀ t ∈ l, t ≤ now) : ∀ t ∈ l ++ [now], t ≤ now := by
  intro t ht
  rcases List.mem_append.mp ht with ht | ht
  · exact h t ht
  · exact (List.mem_singleton.mp ht).le

theorem Keeps.refuse (h : Keeps b log refusals now)
    (hr : ∀ t, b.reported = some t → ¬ now - t < window) :
    Keeps { b with reported := some now } log (refusals ++ [now]) now where
  recent := h.recent
  occupied := h.occupied
  past := h.past
  paced := h.paced
  users := h.users
  reported := List.getLast?_concat.symm
  reports := by
    apply h.reports.next h.told
    rw [fresh_of_stale h.reports.ordered fun t ht => hr t (h.reported.trans ht)]
    exact Nat.one_pos
  told := mem_concat_le h.told

theorem Keeps.admit (h : Keeps b log refusals now) (key : String)
    (hrec : b.recent = fresh window now (log.map Admitted.time))
    (huser : ∀ key, (b.perUser.lookup key).getD [] = fresh window now (ofUser key log))
    (hroom : b.recent.length < maxPerWindow)
    (hused : ((b.perUser.lookup key).getD []).length < maxPerUser) :
    Keeps { b with
      recent := b.recent ++ [now]
      perUser := b.perUser.insert key ((b.perUser.lookup key).getD [] ++ [now]) }
      (log ++ [⟨key, now⟩]) refusals now where
  recent := by
    have hone : fresh window now [now] = [now] := by
      simp [fresh, window]
    refine ⟨now, le_rfl, ?_, fun other => ?_⟩
    · rw [hrec, List.map_append, fresh_append]
      exact congrArg _ hone.symm
    · rw [Map.lookup_insert, ofUser_append, fresh_append, ← huser]
      by_cases ho : other = key
      · rw [if_pos ho, if_pos ho.symm, ho, hone, Option.getD_some]
      · rw [if_neg ho, if_neg (Ne.symm ho), fresh_nil, List.append_nil]
  occupied other := by
    rw [Map.lookup_insert]
    split_ifs
    · simp
    · exact h.occupied other
  past a ha := by
    rcases List.mem_append.mp ha with ha | ha
    · exact h.past a ha
    · rw [List.mem_singleton.mp ha]
  paced := by
    rw [List.map_append]
    refine h.paced.next (fun t ht => ?_) (hrec ▸ hroom)
    obtain ⟨a, ha, rfl⟩ := List.mem_map.mp ht
    exact h.past a ha
  users other := by
    rw [ofUser_append]
    split_ifs with ho
    · subst ho
      refine (h.users _).next (fun t ht => ?_) (huser _ ▸ hused)
      obtain ⟨a, ha, rfl⟩ := List.mem_map.mp (ofUser_sublist.subset ht)
      exact h.past a ha
    · rw [List.append_nil]
      exact h.users other
  reported := h.reported
  reports := h.reports
  told := h.told

theorem Keeps.event (h : Keeps b log refusals now) (sender : String) :
    Keeps (b.admitEvent sender now).1
      (log ++ if (b.admitEvent sender now).2 = .admitted then [⟨nicknameKey sender, now⟩] else [])
      (refusals ++ if (b.admitEvent sender now).2 = .refused then [now] else []) now := by
  rcases admitEvent_cases b sender now with heq | ⟨hr, heq⟩ | ⟨hroom, hused, heq⟩ <;> rw [heq]
  · simpa using h.prune
  · simpa using h.prune.refuse hr
  · simpa using h.prune.admit (nicknameKey sender) h.prune_recent h.prune_user hroom hused

/-! ## Bounds -/

theorem Keeps.total_users (h : Keeps b log refusals now) :
    Map.total List.length b.perUser = b.recent.length := by
  obtain ⟨seen, -, hr, hu⟩ := h.recent
  have hparts (key : String) : (b.perUser.lookup key).getD [] =
      ((log.filter fun a => decide (seen - a.time < window)).filter
        fun a => decide (a.key = key)).map Admitted.time := by
    rw [hu key, fresh, ofUser, List.filter_map, List.filter_filter, List.filter_filter]
    apply congrArg (List.map _)
    apply List.filter_congr
    intro a _
    exact Bool.and_comm ..
  rw [Map.total_length hparts, hr, fresh, List.filter_map, List.length_map]
  rfl

theorem Keeps.users_le (h : Keeps b log refusals now) :
    b.perUser.entries.length ≤ b.recent.length := by
  rw [← h.total_users]
  exact Map.length_le_total h.occupied

end Keeping

end CayenChat.Ctcp
