import CayenChat.Modes.Channels

/-! # The tables of the channel modes stay within each other

However channels are joined, left and folded again, the queue of names to ask
for holds tracked channels only, each once and under its own name, and few
queries are unanswered.
-/

namespace CayenChat.Modes

open Machine ChannelModes

variable {t : Tracker} {modes : ChannelModes} {mapping : CaseMapping} {key name channel : String}
  {entry : Entry} {entries order : List Entry}

/-- What holds of the tables under the case mapping of the connection. -/
structure Kept (t : Tracker) : Prop where
  /-- Every entry stands under its folded name. -/
  own : ∀ key entry, t.modes.channels.lookup key = some entry → t.mapping.fold entry.1 = key
  tracked : t.modes.channels.entries.length ≤ MAX_TRACKED
  /-- Every queued name is the own name of a tracked channel. -/
  queued : ∀ name ∈ t.modes.pending, ∃ flags,
    t.modes.channels.lookup (t.mapping.fold name) = some (name, flags)
  /-- No channel is queued twice. -/
  once : (t.modes.pending.map t.mapping.fold).Nodup
  unanswered : t.modes.inFlight.length ≤ MAX_IN_FLIGHT

/-! ## Folding again -/

def merged : List Entry → Option Entry
  | [] => none
  | [entry] => some entry
  | entry :: _ => some (entry.1, none)

theorem merged_concat (entries : List Entry) (entry : Entry) : merged (entries ++ [entry]) =
    some (((merged entries).map fun taken => (taken.1, none)).getD entry) := by
  rcases entries with _ | ⟨first, _ | ⟨second, rest⟩⟩ <;> rfl

theorem lookup_refoldEntry (channels : Map String Entry) :
    (refoldEntry mapping channels entry).lookup key =
      if key = mapping.fold entry.1 then
        some (((channels.lookup key).map fun taken => (taken.1, none)).getD entry)
      else channels.lookup key := by
  unfold refoldEntry
  split
  · rename_i taken ht
    rw [Map.lookup_insert]
    split_ifs with hk
    · rw [hk, ht]
      rfl
    · rfl
  · rename_i hn
    rw [Map.lookup_insert]
    split_ifs with hk
    · rw [hk, hn]
      rfl
    · rfl

theorem lookup_refold (mapping : CaseMapping) (entries : List Entry) (key : String) :
    (refold mapping entries).lookup key =
      merged (entries.filter fun entry => mapping.fold entry.1 = key) := by
  induction entries using List.reverseRecOn with
  | nil => rfl
  | append_singleton entries entry ih =>
    have hstep : refold mapping (entries ++ [entry]) =
        refoldEntry mapping (refold mapping entries) entry := List.foldl_append ..
    rw [hstep, lookup_refoldEntry, ih, List.filter_append]
    by_cases hk : mapping.fold entry.1 = key
    · rw [if_pos hk.symm, List.filter_cons_of_pos (by simpa using hk), List.filter_nil,
        merged_concat]
    · rw [if_neg (Ne.symm hk), List.filter_cons_of_neg (by simpa using hk), List.filter_nil,
        List.append_nil]

theorem length_refold_le (mapping : CaseMapping) (entries : List Entry) :
    (refold mapping entries).entries.length ≤ entries.length := by
  induction entries using List.reverseRecOn with
  | nil => exact Nat.le_refl 0
  | append_singleton entries entry ih =>
    have hstep : refold mapping (entries ++ [entry]) =
        refoldEntry mapping (refold mapping entries) entry := List.foldl_append ..
    rw [hstep, List.length_append, List.length_singleton]
    unfold refoldEntry
    split <;> exact Map.length_insert_le.trans (Nat.succ_le_succ ih)

theorem refold_eq_some (h : (refold mapping entries).lookup key = some entry) :
    ∃ first ∈ entries, first.1 = entry.1 ∧ mapping.fold first.1 = key := by
  rw [lookup_refold] at h
  generalize hf : entries.filter (fun entry => mapping.fold entry.1 = key) = shared at h
  have hmem : ∀ e ∈ shared, e ∈ entries ∧ mapping.fold e.1 = key := by
    intro e he
    rw [← hf, List.mem_filter, decide_eq_true_eq] at he
    exact he
  rcases shared with _ | ⟨first, _ | ⟨second, rest⟩⟩
  · cases h
  · cases h
    exact ⟨entry, (hmem entry List.mem_cons_self).1, rfl, (hmem entry List.mem_cons_self).2⟩
  · cases h
    exact ⟨first, (hmem first List.mem_cons_self).1, rfl, (hmem first List.mem_cons_self).2⟩

/-! ## What the calls keep -/

namespace Kept

theorem default (mapping : CaseMapping) : Kept { mapping := mapping } where
  own key entry h := by cases h
  tracked := Nat.zero_le _
  queued name h := absurd h List.not_mem_nil
  once := List.nodup_nil
  unanswered := Nat.zero_le _

theorem update (h : Kept t) {flags : Option (List Char)} {inFlight : List (String × ℕ)}
    (he : t.modes.channels.lookup key = some entry) (hq : inFlight.length ≤ MAX_IN_FLIGHT) :
    Kept { t with modes := { t.modes with
      channels := t.modes.channels.insert key (entry.1, flags)
      inFlight := inFlight } } where
  own other e hl := by
    dsimp only at hl
    rw [Map.lookup_insert] at hl
    split_ifs at hl with ho
    · cases hl
      rw [ho]
      exact h.own key entry he
    · exact h.own other e hl
  tracked := (Map.length_insert_of_lookup he).trans_le h.tracked
  queued name hn := by
    obtain ⟨fl, hl⟩ := h.queued name hn
    dsimp only
    rw [Map.lookup_insert]
    split_ifs with hk
    · rw [hk, he] at hl
      cases hl
      exact ⟨flags, rfl⟩
    · exact ⟨fl, hl⟩
  once := h.once
  unanswered := hq

theorem inFlight (h : Kept t) {inFlight : List (String × ℕ)}
    (hq : inFlight.length ≤ MAX_IN_FLIGHT) :
    Kept { t with modes := { t.modes with inFlight := inFlight } } :=
  { h with unanswered := hq }

theorem observe (h : Kept t) (message : IrcMessage) (replayed : Bool) :
    Kept (t.call (.observe message replayed)) := by
  unfold Tracker.call ChannelModes.observe
  dsimp only
  split
  · exact h
  split
  · rename_i args
    unfold observeReply
    split
    · exact h
    · rename_i channel hc
      have hq := (List.length_filter_le (fun query : String × ℕ =>
        t.mapping.fold query.1 != t.mapping.fold channel) t.modes.inFlight).trans h.unanswered
      dsimp only
      split
      · exact h.inFlight hq
      · rename_i name flags hl
        exact @update t _ (name, flags) h _ _ hl hq
  · rename_i channel changes
    unfold observeMode
    dsimp only
    split
    · rename_i name flags hl
      exact @update t _ (name, some flags) h _ _ hl h.unanswered
    · exact h
  · exact h

theorem joined (h : Kept t) (channel : String) : Kept (t.call (.joined channel)) := by
  unfold Tracker.call ChannelModes.joined
  dsimp only
  split
  · exact { h with }
  · rename_i hroom
    have hlen : (t.modes.channels.insert (t.mapping.fold channel)
        (channel, none)).entries.length ≤ MAX_TRACKED := by
      cases hl : t.modes.channels.lookup (t.mapping.fold channel) with
      | some entry => exact (Map.length_insert_of_lookup hl).trans_le h.tracked
      | none =>
        rw [hl] at hroom
        simp only [Option.isNone_none, Bool.true_and, decide_eq_true_eq, Nat.not_le] at hroom
        exact Map.length_insert_le.trans hroom
    have hqueued : ∀ name ∈ t.modes.pending.filter fun queued =>
        t.mapping.fold queued != t.mapping.fold channel,
        name ∈ t.modes.pending ∧ t.mapping.fold name ≠ t.mapping.fold channel := by
      intro name hn
      obtain ⟨hm, hne⟩ := List.mem_filter.mp hn
      exact ⟨hm, by simpa using hne⟩
    constructor
    · intro key entry hl
      dsimp only at hl
      rw [Map.lookup_insert] at hl
      split_ifs at hl with hk
      · cases hl
        exact hk.symm
      · exact h.own key entry hl
    · exact hlen
    · intro name hn
      dsimp only at hn ⊢
      rw [Map.lookup_insert]
      rcases List.mem_append.mp hn with hn | hn
      · obtain ⟨hm, hne⟩ := hqueued name hn
        rw [if_neg hne]
        exact h.queued name hm
      · obtain rfl := List.mem_singleton.mp hn
        rw [if_pos rfl]
        exact ⟨none, rfl⟩
    · dsimp only
      rw [List.map_append, List.nodup_append]
      refine ⟨h.once.sublist (List.filter_sublist.map _), List.nodup_singleton _, ?_⟩
      intro a ha b hb
      obtain ⟨name, hn, rfl⟩ := List.mem_map.mp ha
      obtain rfl : b = t.mapping.fold channel := List.mem_singleton.mp hb
      exact (hqueued name hn).2
    · exact h.unanswered

theorem left (h : Kept t) (channel : String) : Kept (t.call (.left channel)) where
  own key entry hl := by
    unfold Tracker.call ChannelModes.left at hl
    dsimp only at hl
    rw [Map.lookup_erase] at hl
    split_ifs at hl
    exact h.own key entry hl
  tracked := Map.length_erase_le.trans h.tracked
  queued name hn := by
    obtain ⟨hm, hne⟩ := List.mem_filter.mp hn
    unfold Tracker.call ChannelModes.left
    dsimp only
    rw [Map.lookup_erase, if_neg (by simpa using hne)]
    exact h.queued name hm
  once := h.once.sublist (List.filter_sublist.map _)
  unanswered := (List.length_filter_le ..).trans h.unanswered

theorem takeQueries (h : Kept t) (now : ℕ) : Kept (t.call (.takeQueries now)) where
  own := h.own
  tracked := h.tracked
  queued name hn := h.queued name (List.mem_of_mem_drop hn)
  once := h.once.sublist ((List.drop_sublist ..).map _)
  unanswered := by
    unfold Tracker.call ChannelModes.takeQueries
    dsimp only
    have hq := (List.length_filter_le (fun query : String × ℕ => decide (now < query.2))
      t.modes.inFlight).trans h.unanswered
    rw [List.length_append, List.length_map, List.length_take]
    omega

theorem setCasemapping (h : Kept t) (hw : order.Perm (Map.values t.modes.channels))
    (mapping : CaseMapping) : Kept (t.call (.setCasemapping mapping order)) where
  own key entry hl := by
    obtain ⟨first, -, he, hk⟩ := refold_eq_some hl
    exact (congrArg mapping.fold he).symm.trans hk
  tracked := by
    refine (length_refold_le mapping order).trans ?_
    rw [hw.length_eq, Map.values, List.length_map]
    exact h.tracked
  queued name hn := by
    obtain ⟨-, ht⟩ := List.mem_filter.mp hn
    obtain ⟨own, hown, hname⟩ := (Option.any_eq_true ..).mp ht
    refine ⟨own.2, hown.trans ?_⟩
    rw [← (beq_iff_eq.mp hname : own.1 = name)]
  once := by
    refine List.Nodup.map_on ?_ (h.once.of_map.sublist List.filter_sublist)
    intro a ha b hb hab
    obtain ⟨-, ha⟩ := List.mem_filter.mp ha
    obtain ⟨-, hb⟩ := List.mem_filter.mp hb
    obtain ⟨own, hown, hname⟩ := (Option.any_eq_true ..).mp ha
    obtain ⟨own', hown', hname'⟩ := (Option.any_eq_true ..).mp hb
    rw [show mapping.fold a = mapping.fold b from hab, hown'] at hown
    cases hown
    exact (beq_iff_eq.mp hname).symm.trans (beq_iff_eq.mp hname')
  unanswered := (List.length_filter_le ..).trans h.unanswered

theorem isupport_eq (modes : ChannelModes) (message : IrcMessage) : ∃ list letters notFlags,
    modes.isupport message =
      { modes with listModes := list, prefixModes := letters, notFlags := notFlags } := by
  have htoken : ∀ (tokens : List String) (changed : Bool), ∃ list letters changed',
      tokens.foldl isupportToken (modes, changed) =
        ({ modes with listModes := list, prefixModes := letters }, changed') := by
    intro tokens
    induction tokens using List.reverseRecOn with
    | nil => exact fun changed => ⟨modes.listModes, modes.prefixModes, changed, rfl⟩
    | append_singleton tokens token ih =>
      intro changed
      obtain ⟨list, letters, changed', he⟩ := ih changed
      rw [List.foldl_append, he, List.foldl_cons, List.foldl_nil]
      unfold isupportToken
      split_ifs
      · exact ⟨_, _, _, rfl⟩
      · exact ⟨_, _, _, rfl⟩
      · split
        · split_ifs
          · exact ⟨_, _, _, rfl⟩
          · exact ⟨_, _, _, rfl⟩
          · exact ⟨_, _, _, rfl⟩
        · exact ⟨_, _, _, rfl⟩
  unfold ChannelModes.isupport
  split
  · rename_i args _
    obtain ⟨list, letters, changed, he⟩ := htoken ((args.drop 1).flatMap splitWhitespace) false
    dsimp only
    rw [he]
    dsimp only
    split_ifs
    · exact ⟨_, _, _, rfl⟩
    · exact ⟨_, _, _, rfl⟩
  · exact ⟨_, _, _, rfl⟩

theorem isupport (h : Kept t) (message : IrcMessage) : Kept (t.call (.isupport message)) := by
  obtain ⟨list, letters, notFlags, he⟩ := isupport_eq t.modes message
  unfold Tracker.call
  dsimp only
  rw [he]
  exact { h with }

theorem call (h : Kept t) {c : ModesCall} (hw : t.Walks c) : Kept (t.call c) := by
  cases c with
  | joined channel => exact h.joined channel
  | left channel => exact h.left channel
  | isupport message => exact h.isupport message
  | observe message replayed => exact h.observe message replayed
  | takeQueries now => exact h.takeQueries now
  | setCasemapping mapping order => exact h.setCasemapping hw mapping

theorem exec {calls : List ModesCall} (h : Kept t)
    (hw : Along Tracker.Walks Tracker.call t calls) : Kept (exec Tracker.call t calls) :=
  exec_invariant Kept (fun _ _ h hw => h.call hw) h hw

end Kept

theorem nextDeadline_isSome (modes : ChannelModes) (now : ℕ)
    (hp : (modes.takeQueries now).1.pending ≠ []) :
    (modes.takeQueries now).1.nextDeadline.isSome = true := by
  unfold ChannelModes.nextDeadline
  rw [if_neg (by simpa using hp)]
  rw [Option.isSome_iff_ne_none, ne_eq, List.min?_eq_none_iff, List.map_eq_nil_iff,
    ← List.length_eq_zero_iff]
  unfold ChannelModes.takeQueries at hp ⊢
  dsimp only at hp ⊢
  rw [ne_eq, List.drop_eq_nil_iff] at hp
  rw [List.length_append, List.length_map, List.length_take]
  have : MAX_IN_FLIGHT = 4 := rfl
  omega

end CayenChat.Modes
