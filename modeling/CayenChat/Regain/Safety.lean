import Mathlib
import CayenChat.Regain.Following

/-! # Only channels that are ours alone are acted on

The table follows what was seen of every channel along every run in which no
new case mapping folds two tracked channels alike, and so every poll of such a
run acts only on channels that are ours alone.
-/

namespace CayenChat

namespace OpRegain

variable {r : OpRegain} {c : Channel} {key name : String} {now n : ℕ} {ready : Bool}
  {flagsOf : String → Option String} {keys : List String} {channels : Map String Channel}
  {users : List String} {nick : String} {complete : Bool} {order : TableOrder}

theorem eligible_fold (m : CaseMapping) (name : String) : eligible (m.fold name) = eligible name := by
  rw [eligible, eligible, validChannel_fold, m.startsWithAny_fold (by simp)]

@[simp] theorem rejoins_append (s t : List Step) : rejoins (s ++ t) = rejoins s ++ rejoins t :=
  List.filterMap_append

/-- A poll over the channels of some keys: every channel goes on following what was seen, those
parted are ours alone, each is parted once, and no more of them than may be. -/
structure Polled (m : CaseMapping) (seen : String → List Sighting) (now : ℕ) (ready : Bool)
    (flagsOf : String → Option String) (channels : Map String Channel) (keys : List String)
    (acc : Map String Channel × List Step × ℕ) : Prop where
  rest : ∀ key ∉ keys, acc.1.lookup key = channels.lookup key
  follows : ∀ {key c'}, acc.1.lookup key = some c' → ∃ c, channels.lookup key = some c ∧
    c'.name = c.name ∧ Follows (if key ∈ (rejoins acc.2.1).map m.fold then
      .rejoined :: seen key else seen key) c'
  tracked : ∀ {key}, (acc.1.lookup key).isSome = (channels.lookup key).isSome
  count : (rejoins acc.2.1).length = acc.2.2
  bound : acc.2.2 ≤ maxRejoinsPerPoll
  once : ((rejoins acc.2.1).map m.fold).Nodup
  ours : ∀ name ∈ rejoins acc.2.1, m.fold name ∈ keys ∧ ready = true ∧
    (flagsOf name).isSome = true ∧ Ours (seen (m.fold name)) now

variable {m : CaseMapping} {seen : String → List Sighting}
  {acc : Map String Channel × List Step × ℕ}

theorem Polled.snoc (h : Polled m seen now ready flagsOf channels keys acc) (hk : key ∉ keys)
    (hf : ∀ {key c}, channels.lookup key = some c → m.fold c.name = key ∧ Follows (seen key) c)
    (hp : Past now (seen key)) :
    Polled m seen now ready flagsOf channels (keys ++ [key])
      (pollChannel now ready flagsOf acc key) := by
  have hkey : key ∉ (rejoins acc.2.1).map m.fold := by
    rintro hm
    obtain ⟨name, hn, rfl⟩ := List.mem_map.mp hm
    exact hk (h.ours name hn).1
  have hold {name : String} (hn : name ∈ rejoins acc.2.1) : m.fold name ∈ keys ++ [key] ∧
      ready = true ∧ (flagsOf name).isSome = true ∧ Ours (seen (m.fold name)) now :=
    ⟨List.mem_append_left _ (h.ours name hn).1, (h.ours name hn).2⟩
  unfold pollChannel
  rw [h.rest key hk]
  cases hc : channels.lookup key with
  | none =>
    refine ⟨fun k hk' => h.rest k fun hm => hk' (List.mem_append_left _ hm), h.follows, h.tracked,
      h.count, h.bound, h.once, fun name hn => hold hn⟩
  | some c =>
    obtain ⟨hfold, hfol⟩ := hf hc
    dsimp only
    have hrest (k : String) (hk' : k ∉ keys ++ [key]) :
        (acc.1.insert key (c.poll now ready flagsOf acc.2.2).1).lookup k = channels.lookup k := by
      rw [List.mem_append, List.mem_singleton, not_or] at hk'
      rw [Map.lookup_insert, if_neg hk'.2, h.rest k hk'.1]
    have htracked (k : String) : ((acc.1.insert key (c.poll now ready flagsOf acc.2.2).1).lookup
        k).isSome = (channels.lookup k).isSome := by
      rw [Map.lookup_insert]
      split_ifs with hk'
      · rw [hk', hc]; rfl
      · exact h.tracked
    rcases hfol.poll (n := acc.2.2) hp with
      ⟨hs, hn, hfol'⟩ | ⟨hs, hn, hlt, hr, hfl, ho, hfol'⟩
    · refine ⟨hrest, fun {k c'} hl => ?_, htracked _, ?_, ?_, ?_, fun name hm => ?_⟩
      · rw [rejoins_append, hs, List.append_nil]
        rw [Map.lookup_insert] at hl
        split_ifs at hl with hk'
        · subst hk'
          cases hl
          refine ⟨c, hc, Channel.poll_name, ?_⟩
          rwa [if_neg hkey]
        · exact h.follows hl
      · rw [rejoins_append, hs, List.append_nil, hn, h.count]
      · rw [hn]; exact h.bound
      · rw [rejoins_append, hs, List.append_nil]; exact h.once
      · rw [rejoins_append, hs, List.append_nil] at hm
        exact hold hm
    · refine ⟨hrest, fun {k c'} hl => ?_, htracked _, ?_, ?_, ?_, fun name hm => ?_⟩
      · rw [rejoins_append, hs, List.map_append, List.map_singleton, hfold]
        rw [Map.lookup_insert] at hl
        split_ifs at hl with hk'
        · subst hk'
          cases hl
          refine ⟨c, hc, Channel.poll_name, ?_⟩
          rwa [if_pos (List.mem_append_right _ (List.mem_singleton.mpr rfl))]
        · obtain ⟨c₀, hc₀, hn₀, hf₀⟩ := h.follows hl
          refine ⟨c₀, hc₀, hn₀, ?_⟩
          simpa [hk'] using hf₀
      · rw [rejoins_append, hs, List.length_append, hn, h.count]
        rfl
      · rw [hn]; exact hlt
      · rw [rejoins_append, hs, List.map_append, List.map_singleton, hfold]
        exact h.once.append (List.nodup_singleton _) (List.disjoint_singleton.mpr hkey)
      · rw [rejoins_append, hs] at hm
        rcases List.mem_append.mp hm with hm | hm
        · exact hold hm
        · rw [List.mem_singleton.mp hm, hfold]
          exact ⟨List.mem_append_right _ (List.mem_singleton.mpr rfl), hr, hfl, ho⟩

theorem foldl_pollChannel (hk : keys.Nodup)
    (hf : ∀ {key c}, channels.lookup key = some c → m.fold c.name = key ∧ Follows (seen key) c)
    (hp : ∀ key, Past now (seen key)) :
    Polled m seen now ready flagsOf channels keys
      (keys.foldl (pollChannel now ready flagsOf) (channels, [], 0)) := by
  induction keys using List.reverseRecOn with
  | nil => exact ⟨fun _ _ => rfl, fun {key c'} hl => ⟨c', hl, rfl, (hf hl).2⟩, rfl, rfl,
      Nat.zero_le _, List.nodup_nil, fun name hn => by cases hn⟩
  | append_singleton keys key ih =>
    rw [List.foldl_append, List.foldl_cons, List.foldl_nil]
    obtain ⟨hk, _, hd⟩ := List.nodup_append.mp hk
    exact (ih hk).snoc (fun hm => hd key hm key (by simp) rfl) hf (hp key)

@[simp] theorem touch_channels : r.touch.channels = r.channels := rfl
@[simp] theorem touch_mapping : r.touch.mapping = r.mapping := rfl
@[simp] theorem touch_enabled : r.touch.enabled = r.enabled := rfl

theorem joined_cases (r : OpRegain) (name : String) :
    (r.joined name = r ∧ (r.channels.lookup (r.mapping.fold name) = none ∨ r.enabled = false ∨
      eligible name = false)) ∨
    (r.enabled = true ∧ eligible name = true ∧ r.joined name = ({ r with
      channels := r.channels.insert (r.mapping.fold name)
        (((r.channels.lookup (r.mapping.fold name)).getD { name := name }).join name) } :
          OpRegain).touch) := by
  unfold joined
  cases he : r.enabled with
  | false => exact Or.inl ⟨rfl, Or.inr (Or.inl rfl)⟩
  | true =>
    cases hel : eligible name with
    | false => exact Or.inl ⟨rfl, Or.inr (Or.inr rfl)⟩
    | true =>
      simp only [Bool.not_true, Bool.or_self, Bool.false_eq_true, if_false]
      split_ifs with hf
      · exact Or.inl ⟨rfl, Or.inl (AList.lookup_eq_none.mpr hf.1)⟩
      · exact Or.inr ⟨trivial, trivial, rfl⟩

theorem roster_untracked (hl : r.channels.lookup (r.mapping.fold name) = none) :
    (r.roster name users nick complete now).1 = r.touch := by
  simp only [roster, hl]

theorem roster_tracked (hl : r.channels.lookup (r.mapping.fold name) = some c) :
    (r.roster name users nick complete now).1 = ({ r with
      channels := r.channels.insert (r.mapping.fold name)
        (c.rosterChanged users nick complete now).1 } : OpRegain).touch := by
  simp only [roster, hl]

theorem parted_cases (r : OpRegain) (name : String) :
    (r.channels.lookup (r.mapping.fold name) = none ∧ (r.parted name).1 = r) ∨
    (∃ c due, r.channels.lookup (r.mapping.fold name) = some c ∧
      (r.parted name).1 = ({ r with
        channels := r.channels.insert (r.mapping.fold name)
          { c with stage := .attempt due true false, inChannel := false } } : OpRegain).touch) ∨
    (r.mapping.fold name ∈ r.channels ∧ (r.parted name).1 =
      ({ r with channels := r.channels.erase (r.mapping.fold name) } : OpRegain).touch) := by
  unfold parted
  dsimp only
  cases hl : r.channels.lookup (r.mapping.fold name) with
  | none => exact Or.inl ⟨rfl, rfl⟩
  | some c =>
    have hin : r.mapping.fold name ∈ r.channels := AList.lookup_isSome.mp (by rw [hl]; rfl)
    right
    cases hs : c.stage with
    | attempt due parted joined =>
      cases parted with
      | true => exact Or.inr ⟨hin, by simp only [hs]⟩
      | false =>
        cases joined with
        | true => exact Or.inr ⟨hin, by simp only [hs]⟩
        | false => exact Or.inl ⟨c, due, rfl, by simp only [hs]⟩
    | _ => exact Or.inr ⟨hin, by simp only [hs]⟩

theorem joinFailed_cases (r : OpRegain) (name : String) :
    (r.joinFailed name).1 = r.touch ∨
    ∃ c, r.channels.lookup (r.mapping.fold name) = some c ∧
      (r.joinFailed name).1 = ({ r with
        channels := r.channels.insert (r.mapping.fold name)
          { c with stage := .watching, inChannel := false } } : OpRegain).touch := by
  unfold joinFailed
  dsimp only
  cases hl : r.channels.lookup (r.mapping.fold name) with
  | none => exact Or.inl rfl
  | some c =>
    cases hs : c.stage with
    | attempt due parted joined => exact Or.inr ⟨c, rfl, by simp only [hs]⟩
    | _ => exact Or.inl (by simp only [hs])

theorem lookup_rekeyed {old : List Channel} (hn : (old.map fun c => m.fold c.name).Nodup) :
    (old.foldl (fun channels c => if m.fold c.name ∈ channels then channels
      else channels.insert (m.fold c.name) c) (∅ : Map String Channel)).lookup key = some c ↔
      c ∈ old ∧ m.fold c.name = key := by
  induction old using List.reverseRecOn generalizing key c with
  | nil => simp
  | append_singleton old c₀ ih =>
    rw [List.map_append, List.map_singleton] at hn
    obtain ⟨hn, _, hd⟩ := List.nodup_append.mp hn
    have hfree {c : Channel} (hc : c ∈ old) : m.fold c.name ≠ m.fold c₀.name :=
      hd _ (List.mem_map_of_mem hc) _ (List.mem_singleton.mpr rfl)
    rw [List.foldl_append, List.foldl_cons, List.foldl_nil, if_neg]
    · rw [Map.lookup_insert]
      split_ifs with hk
      · rw [Option.some.injEq, List.mem_append, List.mem_singleton]
        constructor
        · rintro rfl
          exact ⟨Or.inr rfl, hk.symm⟩
        · rintro ⟨hc | rfl, he⟩
          · exact absurd (he.trans hk) (hfree hc)
          · rfl
      · rw [ih hn, List.mem_append, List.mem_singleton]
        refine and_congr_left fun he => (or_iff_left ?_).symm
        rintro rfl
        exact hk he.symm
    · intro hm
      obtain ⟨c, hc⟩ := Option.isSome_iff_exists.mp (AList.lookup_isSome.mpr hm)
      obtain ⟨hc, he⟩ := (ih hn).mp hc
      exact hfree hc he

theorem filter_eq_singleton {l : List Channel} {f : Channel → String} (hn : (l.map f).Nodup)
    (hc : c ∈ l) : (l.filter fun d => f d == f c) = [c] := by
  induction l with
  | nil => cases hc
  | cons d l ih =>
    rw [List.map_cons, List.nodup_cons] at hn
    rcases List.mem_cons.mp hc with rfl | hc
    · rw [List.filter_cons_of_pos (by simp), List.filter_eq_nil_iff.mpr]
      intro d hd he
      exact hn.1 (List.mem_map.mpr ⟨d, hd, by simpa using he⟩)
    · rw [List.filter_cons_of_neg, ih hn.2 hc]
      intro he
      exact hn.1 (List.mem_map.mpr ⟨c, hc, (by simpa using he : f d = f c).symm⟩)

namespace Watch

variable {w w' : Watch} {i : TableOrder × Call} {enabled : Bool}

/-- The table follows what was seen of every channel it holds, and of the others no attempt is
under way. -/
structure Followed (w : Watch) : Prop where
  enabled : ∀ {key c}, w.regain.channels.lookup key = some c → w.regain.enabled = true
  keyed : ∀ {key c}, w.regain.channels.lookup key = some c → w.regain.mapping.fold c.name = key
  eligible : ∀ {key c}, w.regain.channels.lookup key = some c → OpRegain.eligible c.name = true
  past : ∀ key, Past w.now (w.seen key)
  follows : ∀ {key c}, w.regain.channels.lookup key = some c → Follows (w.seen key) c
  untracked : ∀ {key}, w.regain.channels.lookup key = none → attempted (w.seen key) = false

theorem start_followed : Followed (start enabled) where
  enabled h := by cases h
  keyed h := by cases h
  eligible h := by cases h
  past key time users nick complete h := by cases h
  follows h := by cases h
  untracked _ := rfl

theorem past_cons {seen : List Sighting} {s : Sighting} (h : Past now seen)
    (hs : ∀ time users nick complete, s = .roster time users nick complete → time ≤ now) :
    Past now (s :: seen) := by
  intro time users nick complete hm
  rcases List.mem_cons.mp hm with he | hm
  · exact hs time users nick complete he.symm
  · exact h time users nick complete hm

theorem Followed.one (h : w.Followed) (key : String) (hm : w'.regain.mapping = w.regain.mapping)
    (he : w'.regain.enabled = w.regain.enabled) (hn : w'.now = w.now)
    (ho : ∀ k ≠ key, w'.regain.channels.lookup k = w.regain.channels.lookup k ∧
      w'.seen k = w.seen k)
    (hp : Past w.now (w'.seen key))
    (hs : ∀ c, w'.regain.channels.lookup key = some c → w.regain.enabled = true ∧
      w.regain.mapping.fold c.name = key ∧ OpRegain.eligible c.name = true ∧
      Follows (w'.seen key) c)
    (hu : w'.regain.channels.lookup key = none → attempted (w'.seen key) = false) :
    w'.Followed where
  enabled {k c} hl := by
    rw [he]
    by_cases hk : k = key
    · exact (hs c (hk ▸ hl)).1
    · exact h.enabled ((ho k hk).1 ▸ hl)
  keyed {k c} hl := by
    rw [hm]
    by_cases hk : k = key
    · exact hk ▸ (hs c (hk ▸ hl)).2.1
    · exact h.keyed ((ho k hk).1 ▸ hl)
  eligible {k c} hl := by
    by_cases hk : k = key
    · exact (hs c (hk ▸ hl)).2.2.1
    · exact h.eligible ((ho k hk).1 ▸ hl)
  past k := by
    rw [hn]
    by_cases hk : k = key
    · exact hk ▸ hp
    · exact (ho k hk).2 ▸ h.past k
  follows {k c} hl := by
    by_cases hk : k = key
    · exact hk ▸ (hs c (hk ▸ hl)).2.2.2
    · exact (ho k hk).2 ▸ h.follows ((ho k hk).1 ▸ hl)
  untracked {k} hl := by
    by_cases hk : k = key
    · exact hk ▸ hu (hk ▸ hl)
    · exact (ho k hk).2 ▸ h.untracked ((ho k hk).1 ▸ hl)

theorem Followed.joined (h : w.Followed) (order : TableOrder) (name : String) :
    (w.next (order, .joined name)).Followed := by
  set key := w.regain.mapping.fold name
  have hseen : (w.next (order, .joined name)).seen key = .joined :: w.seen key := if_pos rfl
  have hother (k : String) (hk : k ≠ key) :
      (w.next (order, .joined name)).seen k = w.seen k := if_neg hk
  have hpast : Past w.now ((w.next (order, .joined name)).seen key) :=
    hseen ▸ past_cons (h.past key) (by simp)
  rcases w.regain.joined_cases name with ⟨hc, hno⟩ | ⟨hen, hel, hc⟩
  · have hc : (w.next (order, .joined name)).regain = w.regain := hc
    have hnone : w.regain.channels.lookup key = none := by
      refine Option.eq_none_iff_forall_ne_some.mpr fun c hl => ?_
      rcases hno with hn | hn | hn
      · rw [hn] at hl; cases hl
      · rw [h.enabled hl] at hn; cases hn
      · have hel : OpRegain.eligible key = true := by
          rw [← h.keyed hl, eligible_fold, h.eligible hl]
        have hk : OpRegain.eligible key = OpRegain.eligible name := eligible_fold _ _
        rw [hk, hn] at hel
        cases hel
    refine h.one key (by rw [hc]) (by rw [hc]) rfl (fun k hk => ⟨by rw [hc], hother k hk⟩) hpast
      (fun c hl => ?_) fun _ => ?_
    · rw [hc, hnone] at hl; cases hl
    · rw [hseen, attempted_joined]
      exact h.untracked hnone
  · have hc : (w.next (order, .joined name)).regain = _ := hc
    refine h.one key (by rw [hc]; rfl) (by rw [hc]; rfl) rfl (fun k hk => ⟨?_, hother k hk⟩) hpast
      (fun c hl => ?_) fun hl => ?_
    · rw [hc, touch_channels, Map.lookup_insert, if_neg hk]
    · rw [hc, touch_channels, Map.lookup_insert, if_pos rfl] at hl
      cases hl
      refine ⟨hen, rfl, hel, ?_⟩
      rw [hseen]
      refine Follows.join fun ha => ?_
      cases hl : w.regain.channels.lookup key with
      | some c => exact (h.follows hl).tried ha
      | none => rw [h.untracked hl] at ha; cases ha
    · rw [hc, touch_channels, Map.lookup_insert, if_pos rfl] at hl
      cases hl

theorem Followed.replace (h : w.Followed) {c c' : Channel}
    (hl : w.regain.channels.lookup key = some c) (hn : c'.name = c.name)
    (hm : w'.regain.mapping = w.regain.mapping) (he : w'.regain.enabled = w.regain.enabled)
    (hc : w'.regain.channels = w.regain.channels.insert key c') (hnow : w'.now = w.now)
    (ho : ∀ k ≠ key, w'.seen k = w.seen k) (hp : Past w.now (w'.seen key))
    (hf : Follows (w'.seen key) c') : w'.Followed := by
  refine h.one key hm he hnow (fun k hk => ⟨?_, ho k hk⟩) hp (fun c'' hl' => ?_) fun hl' => ?_
  · rw [hc, Map.lookup_insert, if_neg hk]
  · rw [hc, Map.lookup_insert, if_pos rfl] at hl'
    cases hl'
    rw [hn]
    exact ⟨h.enabled hl, h.keyed hl, h.eligible hl, hf⟩
  · rw [hc, Map.lookup_insert, if_pos rfl] at hl'
    cases hl'

theorem Followed.nothing (h : w.Followed) (hl : w.regain.channels.lookup key = none)
    (hm : w'.regain.mapping = w.regain.mapping) (he : w'.regain.enabled = w.regain.enabled)
    (hc : w'.regain.channels = w.regain.channels) (hnow : w'.now = w.now)
    (ho : ∀ k ≠ key, w'.seen k = w.seen k) (hp : Past w.now (w'.seen key))
    (ha : attempted (w'.seen key) = false) : w'.Followed :=
  h.one key hm he hnow (fun k hk => ⟨by rw [hc], ho k hk⟩) hp
    (fun c hl' => by rw [hc, hl] at hl'; cases hl') fun _ => ha

theorem Followed.topic (h : w.Followed) (order : TableOrder) (name text : String) :
    (w.next (order, .topic name text)).Followed := by
  set key := w.regain.mapping.fold name
  have hseen : (w.next (order, .topic name text)).seen key = .topic text :: w.seen key := if_pos rfl
  have hother (k : String) (hk : k ≠ key) :
      (w.next (order, .topic name text)).seen k = w.seen k := if_neg hk
  have hpast : Past w.now ((w.next (order, .topic name text)).seen key) :=
    hseen ▸ past_cons (h.past key) (by simp)
  cases hl : w.regain.channels.lookup key with
  | none =>
    refine h.nothing hl rfl rfl ?_ rfl hother hpast ?_
    · change Map.adjust w.regain.channels key _ = _
      rw [Map.adjust, hl]
    · rw [hseen, attempted_topic]
      exact h.untracked hl
  | some c =>
    refine h.replace hl (show (c.withTopic text).name = c.name from rfl) rfl rfl ?_ rfl hother hpast
      (hseen ▸ (h.follows hl).withTopic)
    change Map.adjust w.regain.channels key _ = _
    rw [Map.adjust, hl]

theorem Followed.roster (h : w.Followed) (order : TableOrder) (name : String)
    (users : List String) (nick : String) (complete : Bool) :
    (w.next (order, .roster name users nick complete)).Followed := by
  set key := w.regain.mapping.fold name
  have hseen : (w.next (order, .roster name users nick complete)).seen key =
      .roster w.now users nick complete :: w.seen key := if_pos rfl
  have hother (k : String) (hk : k ≠ key) :
      (w.next (order, .roster name users nick complete)).seen k = w.seen k := if_neg hk
  have hpast : Past w.now ((w.next (order, .roster name users nick complete)).seen key) :=
    hseen ▸ past_cons (h.past key) (by rintro time _ _ _ he; cases he; exact le_rfl)
  have hr : (w.next (order, .roster name users nick complete)).regain =
      (w.regain.roster name users nick complete w.now).1 := rfl
  cases hl : w.regain.channels.lookup key with
  | none =>
    have hr := hr.trans (roster_untracked hl)
    refine h.nothing hl (by rw [hr]; rfl) (by rw [hr]; rfl) (by rw [hr]; rfl) rfl hother hpast ?_
    rw [hseen, attempted_roster, h.untracked hl, Bool.and_false]
  | some c =>
    have hr := hr.trans (roster_tracked hl)
    exact h.replace hl Channel.rosterChanged_name (by rw [hr]; rfl) (by rw [hr]; rfl)
      (by rw [hr]; rfl) rfl hother hpast (hseen ▸ (h.follows hl).rosterChanged (h.past key))

theorem Followed.erase (h : w.Followed) {r' : OpRegain} (hr : w.after i = r')
    (hs : w.seenAfter i = w.lost i) (hm : r'.mapping = w.regain.mapping)
    (he : r'.enabled = w.regain.enabled) (hn : (w.next i).now = w.now)
    (hc : r'.channels = w.regain.channels.erase key) (hk : key ∈ w.regain.channels) :
    (w.next i).Followed := by
  have hr' : (w.next i).regain = r' := hr
  have hgone : key ∉ r'.channels := by
    rw [← AList.lookup_eq_none, hc, Map.lookup_erase, if_pos rfl]
  have hseen : (w.next i).seen key = .forgotten :: w.seen key := by
    change w.seenAfter i key = _
    rw [hs, lost, hr, if_pos ⟨hk, hgone⟩]
  refine h.one key (hr' ▸ hm) (hr' ▸ he) hn (fun k hne => ?_) ?_ (fun c hl => ?_) fun _ => ?_
  · have hlk : r'.channels.lookup k = w.regain.channels.lookup k := by
      rw [hc, Map.lookup_erase, if_neg hne]
    refine ⟨hr' ▸ hlk, ?_⟩
    change w.seenAfter i k = _
    rw [hs, lost, hr, if_neg]
    rintro ⟨hin, hout⟩
    rw [← AList.lookup_eq_none, hlk, AList.lookup_eq_none] at hout
    exact hout hin
  · exact hseen ▸ past_cons (h.past key) (by simp)
  · have hl' : r'.channels.lookup key = some c := hr' ▸ hl
    rw [AList.lookup_eq_none.mpr hgone] at hl'
    cases hl'
  · rw [hseen, attempted_forgotten]

theorem lost_eq (h : ∀ k, k ∈ w.regain.channels → k ∈ (w.after i).channels) :
    w.lost i = w.seen := by
  funext k
  rw [lost, if_neg]
  rintro ⟨hin, hout⟩
  exact hout (h k hin)

theorem Followed.leaving (h : w.Followed) (order : TableOrder) (name : String) :
    (w.next (order, .leaving name)).Followed := by
  by_cases hk : w.regain.mapping.fold name ∈ w.regain.channels
  · have hr : w.after (order, .leaving name) = ({ w.regain with
        channels := w.regain.channels.erase (w.regain.mapping.fold name) } : OpRegain).touch :=
      if_pos hk
    exact h.erase hr rfl rfl rfl rfl rfl hk
  · have hr : w.after (order, .leaving name) = w.regain := if_neg hk
    have hs : (w.next (order, .leaving name)).seen = w.seen :=
      lost_eq fun k hin => by rw [hr]; exact hin
    have he : w.next (order, .leaving name) = w := by
      rw [next, hr]
      exact congrArg (Watch.mk w.regain w.now) hs
    rwa [he]

theorem Followed.parted (h : w.Followed) (order : TableOrder) (name : String) :
    (w.next (order, .parted name)).Followed := by
  rcases w.regain.parted_cases name with ⟨_, hr⟩ | ⟨c, due, hl, hr⟩ | ⟨hk, hr⟩
  · have hr : w.after (order, .parted name) = w.regain := hr
    have hs : (w.next (order, .parted name)).seen = w.seen :=
      lost_eq fun k hin => by rw [hr]; exact hin
    have he : w.next (order, .parted name) = w := by
      rw [next, hr]
      exact congrArg (Watch.mk w.regain w.now) hs
    rwa [he]
  · have hr : (w.next (order, .parted name)).regain = _ := hr
    have hs : (w.next (order, .parted name)).seen = w.seen := lost_eq fun k hin => by
      change k ∈ (w.next (order, .parted name)).regain.channels
      rw [hr, touch_channels, AList.mem_insert]
      exact Or.inr hin
    have hf := (h.follows hl).out (fun d => (by simp : Stage.attempt due true false ≠ .settling d))
    refine h.replace hl ?_ (by rw [hr]; rfl) (by rw [hr]; rfl) ?_ rfl (fun k _ => by rw [hs])
      (by rw [hs]; exact h.past _) (hs ▸ hf)
    · rfl
    · rw [hr]; rfl
  · exact h.erase hr rfl rfl rfl rfl rfl hk

theorem Followed.joinFailed (h : w.Followed) (order : TableOrder) (name : String) :
    (w.next (order, .joinFailed name)).Followed := by
  rcases w.regain.joinFailed_cases name with hr | ⟨c, hl, hr⟩
  · have hr : (w.next (order, .joinFailed name)).regain = w.regain.touch := hr
    have he : w.next (order, .joinFailed name) = { w with regain := w.regain.touch } :=
      congrArg (Watch.mk · w.now w.seen) hr
    rw [he]
    exact ⟨h.enabled, h.keyed, h.eligible, h.past, h.follows, h.untracked⟩
  · have hr : (w.next (order, .joinFailed name)).regain = _ := hr
    have hf := (h.follows hl).out (fun d => (by simp : Stage.watching ≠ .settling d))
    refine h.replace hl ?_ (by rw [hr]; rfl) (by rw [hr]; rfl) ?_ rfl (fun k _ => rfl) (h.past _) hf
    · rfl
    · rw [hr]; rfl

theorem Followed.elapse (h : w.Followed) (order : TableOrder) (time : ℕ) :
    (w.next (order, .elapse time)).Followed :=
  ⟨h.enabled, h.keyed, h.eligible,
    fun key t users nick complete hm =>
      Nat.le_trans (h.past key t users nick complete hm) (Nat.le_add_right w.now time),
    h.follows, h.untracked⟩

theorem Followed.polled (h : w.Followed) (order : TableOrder) (ready : Bool)
    (flagsOf : String → Option String) :
    Polled w.regain.mapping w.seen w.now ready flagsOf w.regain.channels
      (order.keys w.regain.channels.keys)
      ((order.keys w.regain.channels.keys).foldl (pollChannel w.now ready flagsOf)
        (w.regain.channels, [], 0)) :=
  foldl_pollChannel ((order.keys_perm _).nodup_iff.mpr w.regain.channels.keys_nodup)
    (fun hl => ⟨h.keyed hl, h.follows hl⟩) h.past

theorem Followed.poll (h : w.Followed) (order : TableOrder) (ready : Bool)
    (flagsOf : String → Option String) :
    (w.next (order, .poll ready flagsOf)).Followed := by
  have hp := h.polled order ready flagsOf
  have hch : (w.next (order, .poll ready flagsOf)).regain.channels =
      ((order.keys w.regain.channels.keys).foldl (pollChannel w.now ready flagsOf)
        (w.regain.channels, [], 0)).1 := rfl
  have hse (key : String) : (w.next (order, .poll ready flagsOf)).seen key = if key ∈
      (rejoins ((order.keys w.regain.channels.keys).foldl (pollChannel w.now ready flagsOf)
        (w.regain.channels, [], 0)).2.1).map w.regain.mapping.fold then .rejoined :: w.seen key
      else w.seen key := rfl
  refine ⟨fun {key c'} hl => ?_, fun {key c'} hl => ?_, fun {key c'} hl => ?_, fun key => ?_,
    fun {key c'} hl => ?_, fun {key} hl => ?_⟩
  · obtain ⟨c, hc, _⟩ := hp.follows hl
    exact h.enabled hc
  · obtain ⟨c, hc, hn, _⟩ := hp.follows hl
    rw [hn]
    exact h.keyed hc
  · obtain ⟨c, hc, hn, _⟩ := hp.follows hl
    rw [hn]
    exact h.eligible hc
  · rw [hse]
    split_ifs
    · exact past_cons (h.past key) (by simp)
    · exact h.past key
  · obtain ⟨c, _, _, hf⟩ := hp.follows hl
    exact hf
  · have hn : w.regain.channels.lookup key = none := by
      rw [← Option.not_isSome_iff_eq_none, ← hp.tracked, ← hch, hl]
      simp
    rw [hse, if_neg]
    · exact h.untracked hn
    · intro hm
      obtain ⟨name, hname, rfl⟩ := List.mem_map.mp hm
      have hk := (order.keys_perm _).mem_iff.mp (hp.ours name hname).1
      rw [← AList.mem_keys, ← AList.lookup_isSome, hn] at hk
      cases hk

theorem Followed.setCasemapping (h : w.Followed) (order : TableOrder) (m : CaseMapping)
    (hk : w.KeepsApart (order, .setCasemapping m)) :
    (w.next (order, .setCasemapping m)).Followed := by
  have hk : ((Map.values w.regain.channels).map fun c => m.fold c.name).Nodup := hk
  have hold : ((order.keys w.regain.channels.keys).filterMap fun key =>
      w.regain.channels.lookup key).Perm (Map.values w.regain.channels) := by
    rw [← Map.filterMap_lookup_keys]
    exact (order.keys_perm _).filterMap _
  have hl {key : String} {c : Channel} :
      (w.next (order, .setCasemapping m)).regain.channels.lookup key = some c ↔
        c ∈ Map.values w.regain.channels ∧ m.fold c.name = key :=
    (lookup_rekeyed ((hold.map _).nodup_iff.mpr hk)).trans (and_congr_left fun _ => hold.mem_iff)
  have hse (key : String) : (w.next (order, .setCasemapping m)).seen key =
      ((Map.values w.regain.channels).filter fun c => m.fold c.name == key).flatMap fun c =>
        w.seen (w.regain.mapping.fold c.name) := rfl
  -- a channel keeps what was seen of it
  have hone {key : String} {c : Channel}
      (hc : (w.next (order, .setCasemapping m)).regain.channels.lookup key = some c) :
      w.regain.channels.lookup (w.regain.mapping.fold c.name) = some c ∧
        (w.next (order, .setCasemapping m)).seen key = w.seen (w.regain.mapping.fold c.name) := by
    obtain ⟨hv, rfl⟩ := hl.mp hc
    obtain ⟨k, hlk⟩ := Map.mem_values.mp hv
    refine ⟨by rw [h.keyed hlk, hlk], ?_⟩
    rw [hse, filter_eq_singleton hk hv, List.flatMap_singleton]
  refine ⟨fun hc => h.enabled (hone hc).1, fun hc => (hl.mp hc).2, fun hc => h.eligible (hone hc).1,
    fun key time users nick complete hm => ?_, fun {key c} hc => ?_, fun {key} hn => ?_⟩
  · rw [hse] at hm
    obtain ⟨c, _, hm⟩ := List.mem_flatMap.mp hm
    exact h.past _ time users nick complete hm
  · rw [(hone hc).2]
    exact h.follows (hone hc).1
  · rw [hse, List.filter_eq_nil_iff.mpr]
    · rfl
    · intro c hc he
      have hs := hl.mpr ⟨hc, beq_iff_eq.mp he⟩
      rw [hn] at hs
      cases hs

theorem Followed.next (h : w.Followed) (hk : w.KeepsApart i) : (w.next i).Followed := by
  obtain ⟨order, call⟩ := i
  cases call with
  | elapse time => exact h.elapse order time
  | setCasemapping m => exact h.setCasemapping order m hk
  | joined name => exact h.joined order name
  | parted name => exact h.parted order name
  | leaving name => exact h.leaving order name
  | topic name text => exact h.topic order name text
  | joinFailed name => exact h.joinFailed order name
  | roster name users nick complete => exact h.roster order name users nick complete
  | poll ready flagsOf => exact h.poll order ready flagsOf

theorem rejoins_parted (r : OpRegain) (name : String) : rejoins (r.parted name).2 = [] := by
  unfold OpRegain.parted
  dsimp only
  split
  · rfl
  · split <;> rfl

theorem rejoins_joinFailed (r : OpRegain) (name : String) : rejoins (r.joinFailed name).2 = [] := by
  unfold OpRegain.joinFailed
  dsimp only
  split
  · split <;> rfl
  · rfl

theorem rejoins_finish (c : Channel) : rejoins (c.finish now).2 = [] := by
  unfold Channel.finish
  dsimp only
  split_ifs <;> rfl

theorem rejoins_rosterChanged (c : Channel) :
    rejoins (c.rosterChanged users nick complete now).2 = [] := by
  by_cases h : c.inChannel = true ∧ (c.synced || complete) = true
  · unfold Channel.rosterChanged
    rw [h.1, h.2]
    simp only [Bool.not_true, Bool.false_eq_true, if_false]
    split
    · cases complete
      · rfl
      · exact rejoins_finish _
    · rfl
    · rfl
    · rfl
  · rw [c.rosterChanged_ignored h]
    rfl

theorem rejoins_roster (r : OpRegain) :
    rejoins (r.roster name users nick complete now).2 = [] := by
  unfold OpRegain.roster
  dsimp only
  split
  · rfl
  · exact rejoins_rosterChanged _

theorem Followed.safe (h : w.Followed) : w.Safe i := by
  obtain ⟨order, call⟩ := i
  cases call with
  | poll ready flagsOf =>
    have hp := h.polled order ready flagsOf
    exact ⟨le_of_eq_of_le hp.count hp.bound, hp.once, fun name hn => (hp.ours name hn).2⟩
  | parted name => exact rejoins_parted w.regain name
  | joinFailed name => exact rejoins_joinFailed w.regain name
  | roster name users nick complete => exact rejoins_roster w.regain
  | _ => rfl

/-- In a run in which no new mapping folds two tracked channels alike, only channels that are ours
alone are acted on. -/
theorem rejoins_ours (enabled : Bool) (run : List (TableOrder × Call))
    (h : Machine.Along KeepsApart next (start enabled) run) :
    Machine.Along Safe next (start enabled) run :=
  Machine.Along.of_invariant Followed (fun _ _ => Followed.next) (fun _ _ hw _ => hw.safe)
    start_followed h

theorem regained_once : Machine.Along Safe next (start true) ([.joined "#room",
      .roster "#room" ["me"] "me" true, .elapse stableTime, .poll true fun _ => some "nt",
      .parted "#room", .joined "#room", .roster "#room" ["@me"] "me" true, .elapse restoreWait,
      .poll true fun _ => some "nt"].map (TableOrder.standing, ·)) :=
  rejoins_ours true _ (by decide +kernel)

end Watch

end OpRegain

end CayenChat
