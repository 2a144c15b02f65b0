import CayenChat.Regain.Moves
import CayenChat.Regain.Safety

/-! # Attempts are carried through

Every call is a move of every channel. That no JOIN comes without a PART of its
own, and that attempts are carried through, follow along every run.
-/

namespace CayenChat

namespace OpRegain

variable {b log : List Happening} {s : Stage} {now d n : ℕ} {c : Channel} {ready : Bool}
  {flagsOf : String → Option String}

/-! ## What a call does to every channel -/

def stageOf (channels : Map String Channel) (key : String) : Stage :=
  ((channels.lookup key).map Channel.stage).getD .watching

def InTime (r : OpRegain) : Prop :=
  ∀ key c d, r.channels.lookup key = some c → c.stage.due = some d →
    ∃ e, r.nextDeadline = some e ∧ e ≤ d

variable {r : OpRegain} {channels channels' : Map String Channel} {key name : String}

theorem stageOf_some (hl : channels.lookup key = some c) : stageOf channels key = c.stage := by
  rw [stageOf, hl]; rfl

theorem stageOf_none (hl : channels.lookup key = none) : stageOf channels key = .watching := by
  rw [stageOf, hl]; rfl

theorem stageOf_insert {k : String} :
    stageOf (channels.insert key c) k = if k = key then c.stage else stageOf channels k := by
  rw [stageOf, Map.lookup_insert]
  split_ifs <;> rfl

theorem touch_inTime (r : OpRegain) : InTime r.touch := by
  intro key c d hl hd
  have hm : d ∈ (Map.values r.channels).filterMap fun c => c.stage.due :=
    List.mem_filterMap.mpr ⟨c, Map.mem_values.mpr ⟨key, hl⟩, hd⟩
  have he := List.min?_eq_some_min (List.ne_nil_of_mem hm)
  exact ⟨_, he, List.min_le_of_mem hm⟩

theorem parted_untracked (hl : r.channels.lookup (r.mapping.fold name) = none) :
    r.parted name = (r, []) := by
  simp only [OpRegain.parted, hl]

theorem parted_attempt (hl : r.channels.lookup (r.mapping.fold name) = some c)
    (hs : c.stage = .attempt d false false) :
    r.parted name = (({ r with
        channels := r.channels.insert (r.mapping.fold name)
          { c with stage := .attempt d true false, inChannel := false } } : OpRegain).touch,
      [.join c.name]) := by
  simp only [OpRegain.parted, hl, hs]

theorem parted_other (hl : r.channels.lookup (r.mapping.fold name) = some c)
    (hs : ∀ d, c.stage ≠ .attempt d false false) :
    r.parted name =
      (({ r with channels := r.channels.erase (r.mapping.fold name) } : OpRegain).touch, []) := by
  simp only [OpRegain.parted, hl]

theorem joinFailed_untracked (hl : r.channels.lookup (r.mapping.fold name) = none) :
    r.joinFailed name = (r.touch, []) := by
  simp only [OpRegain.joinFailed, hl]

theorem joinFailed_attempt {p q : Bool} (hl : r.channels.lookup (r.mapping.fold name) = some c)
    (hs : c.stage = .attempt d p q) :
    r.joinFailed name = (({ r with
        channels := r.channels.insert (r.mapping.fold name)
          { c with stage := .watching, inChannel := false } } : OpRegain).touch,
      [.status c.name .rejoinFailed]) := by
  simp only [OpRegain.joinFailed, hl, hs]

theorem joinFailed_other (hl : r.channels.lookup (r.mapping.fold name) = some c)
    (hs : ∀ d p q, c.stage ≠ .attempt d p q) : r.joinFailed name = (r.touch, []) := by
  simp only [OpRegain.joinFailed, hl]

theorem Channel.join_move (c : Channel) (name : String) :
    Move now c.stage [.joined] (c.join name).stage := by
  unfold Channel.join
  cases hs : c.stage with
  | watching => exact .idle trivial trivial (by simp)
  | settling => exact .idle trivial trivial (by simp)
  | restoring => exact .disturbed id rfl (Or.inr trivial)
  | attempt d p j =>
    cases p with
    | true => exact .joined
    | false => exact .disturbed id rfl (Or.inr trivial)

theorem ignored_move (s : Stage) : Move now s [.joined] s := by
  cases s with
  | watching => exact .idle trivial trivial (by simp)
  | settling => exact .idle trivial trivial (by simp)
  | restoring => exact .disturbed id rfl (Or.inl rfl)
  | attempt d p j =>
    cases p with
    | true => exact .joined
    | false => exact .disturbed id rfl (Or.inl rfl)

theorem Slack.append (hs : Slack log s) (h : Slack b .watching) : Slack (log ++ b) s := by
  obtain ⟨hj, hr⟩ := hs
  obtain ⟨hj', hr'⟩ := h
  simp only [Stage.parting, Stage.joining] at hj' hr'
  constructor <;> rw [List.count_append, List.countP_append] <;> omega

theorem Slack.watching (hs : Slack log s) : Slack log .watching :=
  ⟨le_trans (Nat.le_add_right _ _) hs.joins, le_trans (Nat.le_add_right _ _) hs.restores⟩

theorem flatMap_slack {cs : List Channel} {f : Channel → List Happening}
    (hf : ∀ c ∈ cs, Slack (f c) c.stage) (hs : s = .watching ∨ ∃ c ∈ cs, c.stage = s) :
    Slack (cs.flatMap f) s := by
  induction cs generalizing s with
  | nil =>
    rcases hs with rfl | ⟨c, hc, -⟩
    · exact ⟨le_rfl, le_rfl⟩
    · cases hc
  | cons c cs ih =>
    have hc := hf c (by simp)
    have ih {s : Stage} := ih (s := s) fun c hc => hf c (List.mem_cons_of_mem _ hc)
    rw [List.flatMap_cons]
    rcases hs with rfl | ⟨d, hd, rfl⟩
    · exact hc.watching.append (ih (Or.inl rfl))
    · rcases List.mem_cons.mp hd with rfl | hd
      · exact hc.append (ih (Or.inl rfl))
      · have h := ih (Or.inr ⟨d, hd, rfl⟩)
        obtain ⟨hj, hr⟩ := hc.watching
        obtain ⟨hj', hr'⟩ := h
        simp only [Stage.parting, Stage.joining] at hj hr
        constructor <;> rw [List.count_append, List.countP_append] <;> omega

theorem lookup_rekeyed_mem {m : CaseMapping} {old : List Channel}
    (hl : (old.foldl (fun channels c => if m.fold c.name ∈ channels then channels
      else channels.insert (m.fold c.name) c) (∅ : Map String Channel)).lookup key = some c) :
    c ∈ old ∧ m.fold c.name = key := by
  induction old using List.reverseRecOn with
  | nil => cases hl
  | append_singleton old c₀ ih =>
    rw [List.foldl_append, List.foldl_cons, List.foldl_nil] at hl
    split_ifs at hl
    · exact ⟨List.mem_append_left _ (ih hl).1, (ih hl).2⟩
    · rw [Map.lookup_insert] at hl
      split_ifs at hl with hk
      · cases hl
        exact ⟨by simp, hk.symm⟩
      · exact ⟨List.mem_append_left _ (ih hl).1, (ih hl).2⟩

namespace Journal

variable {j : Journal} {i : TableOrder × Call} {order : TableOrder} {enabled : Bool}

/-- What the table holds is in order. -/
structure Sound (j : Journal) : Prop where
  keyed : ∀ key c, j.regain.channels.lookup key = some c → j.regain.mapping.fold c.name = key
  proper : ∀ key, (stageOf j.regain.channels key).Proper
  inTime : InTime j.regain

/-- A call moves every channel and keeps the table in order. -/
structure Moved (j : Journal) (i : TableOrder × Call) : Prop where
  keyed : ∀ key c, (j.after i).channels.lookup key = some c →
    (j.after i).mapping.fold c.name = key
  inTime : InTime (j.after i)
  move : ∀ key, Move j.now (stageOf j.regain.channels key)
    (j.told i key ++ j.did (j.steps i) key) (stageOf (j.after i).channels key)

theorem Sound.one (h : j.Sound) (key : String) (hm : (j.after i).mapping = j.regain.mapping)
    (ho : ∀ k ≠ key, (j.after i).channels.lookup k = j.regain.channels.lookup k ∧ j.told i k = [])
    (hk : ∀ c, (j.after i).channels.lookup key = some c → j.regain.mapping.fold c.name = key)
    (ht : InTime (j.after i))
    (hs : ∀ s ∈ j.steps i, j.regain.mapping.fold s.channel = key)
    (hmv : Move j.now (stageOf j.regain.channels key)
      (j.told i key ++ (j.steps i).filterMap (Step.happening j.now))
      (stageOf (j.after i).channels key)) : j.Moved i := by
  refine ⟨fun k c hl => ?_, ht, fun k => ?_⟩
  · rw [hm]
    by_cases hkey : k = key
    · exact hkey ▸ hk c (hkey ▸ hl)
    · exact h.keyed k c ((ho k hkey).1 ▸ hl)
  · by_cases hkey : k = key
    · subst hkey
      rwa [did, List.filter_eq_self.mpr fun s hs' => beq_iff_eq.mpr (hs s hs')]
    · have hst : stageOf (j.after i).channels k = stageOf j.regain.channels k := by
        rw [stageOf, (ho k hkey).1, stageOf]
      rw [(ho k hkey).2, did, List.filter_eq_nil_iff.mpr fun s hs' he =>
        hkey ((beq_iff_eq.mp he).symm.trans (hs s hs')), hst]
      exact .stays

theorem Sound.joined (h : j.Sound) (name : String) : j.Moved (order, .joined name) := by
  set key := j.regain.mapping.fold name
  have hother (k : String) (hk : k ≠ key) : j.told (order, .joined name) k = [] := if_neg hk
  have htold : j.told (order, .joined name) key = [.joined] := if_pos rfl
  rcases j.regain.joined_cases name with ⟨hr, -⟩ | ⟨-, -, hr⟩
  · have hr : j.after (order, .joined name) = j.regain := hr
    refine h.one key (by rw [hr]) (fun k hk => ⟨by rw [hr], hother k hk⟩)
      (fun c hl => h.keyed key c (hr ▸ hl)) (hr ▸ h.inTime) (fun s hs => by cases hs) ?_
    rw [hr, htold]
    exact ignored_move _
  · have hr : j.after (order, .joined name) = _ := hr
    refine h.one key (by rw [hr]; rfl) (fun k hk => ⟨?_, hother k hk⟩) (fun c hl => ?_)
      (hr ▸ touch_inTime _) (fun s hs => by cases hs) ?_
    · rw [hr, touch_channels, Map.lookup_insert, if_neg hk]
    · rw [hr, touch_channels, Map.lookup_insert, if_pos rfl] at hl
      cases hl
      rfl
    · have hst : stageOf j.regain.channels key =
          ((j.regain.channels.lookup key).getD { name := name }).stage := by
        rw [stageOf]
        cases j.regain.channels.lookup key <;> rfl
      rw [hr, touch_channels, htold, hst, stageOf, Map.lookup_insert, if_pos rfl]
      exact Channel.join_move _ name

theorem Sound.same (h : j.Sound) (key : String)
    (hr : j.after i = j.regain ∨ j.after i = j.regain.touch)
    (ho : ∀ k ≠ key, j.told i k = []) (hs : j.steps i = [])
    (hmv : Move j.now (stageOf j.regain.channels key) (j.told i key)
      (stageOf j.regain.channels key)) : j.Moved i := by
  have hc : (j.after i).channels = j.regain.channels := by
    rcases hr with hr | hr <;> rw [hr]; rfl
  refine h.one key ?_ (fun k hk => ⟨by rw [hc], ho k hk⟩) (fun c hl => h.keyed key c (hc ▸ hl)) ?_
    (fun s hs' => by rw [hs] at hs'; cases hs') ?_
  · rcases hr with hr | hr <;> rw [hr]; rfl
  · rcases hr with hr | hr <;> rw [hr]
    · exact h.inTime
    · exact touch_inTime _
  · rwa [hc, hs, List.filterMap_nil, List.append_nil]

theorem Sound.replace (h : j.Sound) (hl : j.regain.channels.lookup key = some c) {c' : Channel}
    (hr : j.after i = ({ j.regain with channels := j.regain.channels.insert key c' } :
      OpRegain).touch)
    (ho : ∀ k ≠ key, j.told i k = []) (hn : c'.name = c.name)
    (hs : ∀ s ∈ j.steps i, s.channel = c.name)
    (hmv : Move j.now c.stage (j.told i key ++ (j.steps i).filterMap (Step.happening j.now))
      c'.stage) : j.Moved i := by
  have hname : j.regain.mapping.fold c.name = key := h.keyed key c hl
  have hl' : (j.after i).channels.lookup key = some c' := by
    rw [hr, touch_channels, Map.lookup_insert, if_pos rfl]
  refine h.one key (by rw [hr]; rfl) (fun k hk => ⟨?_, ho k hk⟩) (fun d hd => ?_)
    (hr ▸ touch_inTime _) (fun s hm => by rw [hs s hm, hname]) ?_
  · rw [hr, touch_channels, Map.lookup_insert, if_neg hk]
  · rw [hl'] at hd
    cases hd
    rw [hn, hname]
  · rwa [stageOf_some hl, stageOf_some hl']

theorem Sound.forget (h : j.Sound) (hr : j.after i =
      ({ j.regain with channels := j.regain.channels.erase key } : OpRegain).touch)
    (ho : ∀ k ≠ key, j.told i k = []) (hs : j.steps i = [])
    (hmv : Move j.now (stageOf j.regain.channels key) (j.told i key) .watching) : j.Moved i := by
  have hl' : (j.after i).channels.lookup key = none := by
    rw [hr, touch_channels, Map.lookup_erase, if_pos rfl]
  refine h.one key (by rw [hr]; rfl) (fun k hk => ⟨?_, ho k hk⟩) (fun d hd => ?_)
    (hr ▸ touch_inTime _) (fun s hm => by rw [hs] at hm; cases hm) ?_
  · rw [hr, touch_channels, Map.lookup_erase, if_neg hk]
  · rw [hl'] at hd
    cases hd
  · rwa [hs, List.filterMap_nil, List.append_nil, stageOf_none hl']

theorem Sound.leaving (h : j.Sound) (name : String) : j.Moved (order, .leaving name) := by
  set key := j.regain.mapping.fold name
  have hother (k : String) (hk : k ≠ key) : j.told (order, .leaving name) k = [] := if_neg hk
  have htold : j.told (order, .leaving name) key = [.leaving] := if_pos rfl
  by_cases hin : key ∈ j.regain.channels
  · have hr : j.after (order, .leaving name) = ({ j.regain with
        channels := j.regain.channels.erase key } : OpRegain).touch := if_pos hin
    exact h.forget hr hother rfl (htold ▸ .leaving trivial)
  · have hr : j.after (order, .leaving name) = j.regain := if_neg hin
    refine h.same key (Or.inl hr) hother rfl ?_
    rw [htold, stageOf_none (AList.lookup_eq_none.mpr hin)]
    exact .leaving trivial

theorem Sound.parted (h : j.Sound) (name : String) : j.Moved (order, .parted name) := by
  have hother (k : String) (hk : k ≠ j.regain.mapping.fold name) :
      j.told (order, .parted name) k = [] := if_neg hk
  have htold : j.told (order, .parted name) (j.regain.mapping.fold name) = [.parted] := if_pos rfl
  cases hl : j.regain.channels.lookup (j.regain.mapping.fold name) with
  | none =>
    have hp := parted_untracked hl
    refine h.same _ (Or.inl (congrArg Prod.fst hp)) hother (congrArg Prod.snd hp) ?_
    rw [htold, stageOf_none hl]
    exact .left rfl trivial
  | some c =>
    by_cases hs : ∃ d, c.stage = .attempt d false false
    · obtain ⟨d, hs⟩ := hs
      have hp := parted_attempt hl hs
      have hsteps : j.steps (order, .parted name) = [.join c.name] := congrArg Prod.snd hp
      refine h.replace hl (congrArg Prod.fst hp) hother rfl ?_ ?_
      · rw [hsteps]
        simp [Step.channel]
      · rw [hsteps, htold, hs]
        exact .echoed
    · have hp := parted_other hl fun d hd => hs ⟨d, hd⟩
      refine h.forget (congrArg Prod.fst hp) hother (congrArg Prod.snd hp) ?_
      rw [htold, stageOf_some hl]
      refine .left ?_ trivial
      have hproper : c.stage.Proper := stageOf_some hl ▸ h.proper _
      cases hst : c.stage with
      | attempt d p b =>
        cases p with
        | true => rfl
        | false =>
          cases b with
          | true => exact absurd hst (hproper d)
          | false => exact absurd ⟨d, hst⟩ hs
      | _ => rfl

theorem Sound.joinFailed (h : j.Sound) (name : String) : j.Moved (order, .joinFailed name) := by
  have hnone (hp : j.regain.joinFailed name = (j.regain.touch, [])) :
      j.Moved (order, .joinFailed name) :=
    h.same "" (Or.inr (congrArg Prod.fst hp)) (fun _ _ => rfl) (congrArg Prod.snd hp) .stays
  cases hl : j.regain.channels.lookup (j.regain.mapping.fold name) with
  | none => exact hnone (joinFailed_untracked hl)
  | some c =>
    cases hs : c.stage with
    | attempt d p b =>
      have hp := joinFailed_attempt hl hs
      have hsteps : j.steps (order, .joinFailed name) = [.status c.name .rejoinFailed] :=
        congrArg Prod.snd hp
      refine h.replace hl (congrArg Prod.fst hp) (fun _ _ => rfl) rfl ?_ ?_
      · rw [hsteps]
        simp [Step.channel]
      · rw [hsteps]
        exact .ended (by rw [hs]; exact id) trivial
    | _ => exact hnone (joinFailed_other hl (by simp [hs]))

theorem Sound.roster (h : j.Sound) (name : String) (users : List String) (nick : String)
    (complete : Bool) : j.Moved (order, .roster name users nick complete) := by
  cases hl : j.regain.channels.lookup (j.regain.mapping.fold name) with
  | none =>
    have hp : j.regain.roster name users nick complete j.now = (j.regain.touch, []) := by
      simp only [OpRegain.roster, hl]
    exact h.same "" (Or.inr (congrArg Prod.fst hp)) (fun _ _ => rfl) (congrArg Prod.snd hp) .stays
  | some c =>
    have hp : j.regain.roster name users nick complete j.now = (({ j.regain with
        channels := j.regain.channels.insert (j.regain.mapping.fold name)
          (c.rosterChanged users nick complete j.now).1 } : OpRegain).touch,
        (c.rosterChanged users nick complete j.now).2) := by
      simp only [OpRegain.roster, hl]
    have hsteps : j.steps (order, .roster name users nick complete) =
        (c.rosterChanged users nick complete j.now).2 := congrArg Prod.snd hp
    have hproper : c.stage.Proper := stageOf_some hl ▸ h.proper _
    obtain ⟨hn, hc, hm⟩ := c.rosterChanged_moves j.now users nick complete hproper
    exact h.replace hl (congrArg Prod.fst hp) (fun _ _ => rfl) hn (hsteps ▸ hc) (hsteps ▸ hm)

theorem Sound.topic (h : j.Sound) (name text : String) : j.Moved (order, .topic name text) := by
  set key := j.regain.mapping.fold name with hkey
  have hl (k : String) : (j.after (order, .topic name text)).channels.lookup k =
      if k = key then (j.regain.channels.lookup k).map fun c => c.withTopic text
      else j.regain.channels.lookup k := Map.lookup_adjust
  have hdue (c : Channel) : (c.withTopic text).stage.due = c.stage.due := by
    unfold Channel.withTopic
    dsimp only
    split <;> simp_all [Stage.due]
  refine h.one key rfl (fun k hk => ⟨by rw [hl, if_neg hk], rfl⟩) (fun c hc => ?_)
    (fun k c d hc hd => ?_) (fun s hs => by cases hs) ?_
  · rw [hl, if_pos rfl, Option.map_eq_some_iff] at hc
    obtain ⟨c, hc, rfl⟩ := hc
    exact h.keyed key c hc
  · rw [hl] at hc
    split_ifs at hc
    · obtain ⟨c₀, hc₀, rfl⟩ := Option.map_eq_some_iff.mp hc
      exact h.inTime k c₀ d hc₀ (hdue c₀ ▸ hd)
    · exact h.inTime k c d hc hd
  · have hst : stageOf (j.after (order, .topic name text)).channels key =
        (((j.regain.channels.lookup key).map fun c => (c.withTopic text).stage)).getD .watching := by
      rw [stageOf, hl, if_pos rfl, Option.map_map]
      rfl
    rw [hst, stageOf]
    cases j.regain.channels.lookup key with
    | none => exact .stays
    | some c =>
      unfold Channel.withTopic
      dsimp only [Option.map_some, Option.getD_some]
      split
      · rename_i hs
        rw [hs]
        exact .noted
      · exact .stays

theorem Sound.elapse (h : j.Sound) (time : ℕ) : j.Moved (order, .elapse time) :=
  h.same "" (Or.inl rfl) (fun _ _ => rfl) rfl .stays

/-- A poll over the channels of some keys. -/
structure Polled (m : CaseMapping) (now : ℕ) (channels : Map String Channel) (keys : List String)
    (acc : Map String Channel × List Step × ℕ) : Prop where
  rest : ∀ key ∉ keys, acc.1.lookup key = channels.lookup key ∧
    ∀ s ∈ acc.2.1, m.fold s.channel ≠ key
  keyed : ∀ key c, acc.1.lookup key = some c → m.fold c.name = key
  move : ∀ key, Move now (stageOf channels key)
    ((acc.2.1.filter fun s => m.fold s.channel == key).filterMap (Step.happening now))
    (stageOf acc.1 key)
  due : ∀ key ∈ keys, ∀ c d, acc.1.lookup key = some c → ¬c.stage.Idle → c.stage.due = some d →
    now < d

variable {m : CaseMapping} {keys : List String} {acc : Map String Channel × List Step × ℕ}

theorem Polled.snoc (h : Polled m now channels keys acc) (hk : key ∉ keys) :
    Polled m now channels (keys ++ [key]) (pollChannel now ready flagsOf acc key) := by
  obtain ⟨hl, hno⟩ := h.rest key hk
  unfold pollChannel
  cases hc : acc.1.lookup key with
  | none =>
    refine ⟨fun k hk' => h.rest k fun hm => hk' (List.mem_append_left _ hm), h.keyed, h.move,
      fun k hm c d hl hi hd => ?_⟩
    rcases List.mem_append.mp hm with hm | hm
    · exact h.due k hm c d hl hi hd
    · rw [List.mem_singleton.mp hm, hc] at hl
      cases hl
  | some c =>
    have hfold := h.keyed key c hc
    obtain ⟨hn, hch, hm⟩ := c.poll_moves now ready flagsOf acc.2.2
    dsimp only
    have hne {k : String} (hk : k ∉ keys ++ [key]) : k ∉ keys ∧ k ≠ key := by
      simpa [not_or] using hk
    refine ⟨fun k hk' => ⟨?_, fun s hs => ?_⟩, fun k c' hl' => ?_, fun k => ?_,
      fun k hm c' d hl' hi hd => ?_⟩
    · rw [Map.lookup_insert, if_neg (hne hk').2, (h.rest k (hne hk').1).1]
    · rcases List.mem_append.mp hs with hs | hs
      · exact (h.rest k (hne hk').1).2 s hs
      · rw [hch s hs, hfold]
        exact (hne hk').2.symm
    · rw [Map.lookup_insert] at hl'
      split_ifs at hl' with hkey
      · cases hl'
        rw [hn, hfold, hkey]
      · exact h.keyed k c' hl'
    · rw [List.filter_append]
      by_cases hkey : k = key
      · subst hkey
        rw [List.filter_eq_nil_iff.mpr fun s hs he => hno s hs (beq_iff_eq.mp he),
          List.filter_eq_self.mpr fun s hs => beq_iff_eq.mpr (by rw [hch s hs, hfold]),
          List.nil_append, stageOf_some (hl ▸ hc), stageOf_insert, if_pos rfl]
        exact hm
      · rw [List.filter_eq_nil_iff (l := (c.poll now ready flagsOf acc.2.2).2.1) |>.mpr
          fun s hs he => hkey (by rw [← beq_iff_eq.mp he, hch s hs, hfold]), List.append_nil,
          stageOf_insert, if_neg hkey]
        exact h.move k
    · rw [Map.lookup_insert] at hl'
      split_ifs at hl' with hkey
      · cases hl'
        exact Channel.poll_due hi hd
      · rcases List.mem_append.mp hm with hm | hm
        · exact h.due k hm c' d hl' hi hd
        · exact absurd (List.mem_singleton.mp hm) hkey

theorem foldl_pollChannel (hk : keys.Nodup)
    (hc : ∀ key c, channels.lookup key = some c → m.fold c.name = key) :
    Polled m now channels keys
      (keys.foldl (pollChannel now ready flagsOf) (channels, [], 0)) := by
  induction keys using List.reverseRecOn with
  | nil => exact ⟨fun _ _ => ⟨rfl, by simp⟩, hc, fun _ => .stays, by simp⟩
  | append_singleton keys key ih =>
    rw [List.foldl_append, List.foldl_cons, List.foldl_nil]
    obtain ⟨hk, _, hd⟩ := List.nodup_append.mp hk
    exact (ih hk).snoc fun hm => hd key hm key (by simp) rfl

theorem Sound.polled (h : j.Sound) (order : TableOrder) (ready : Bool)
    (flagsOf : String → Option String) :
    Polled j.regain.mapping j.now j.regain.channels (order.keys j.regain.channels.keys)
      ((order.keys j.regain.channels.keys).foldl (pollChannel j.now ready flagsOf)
        (j.regain.channels, [], 0)) :=
  foldl_pollChannel ((order.keys_perm _).nodup_iff.mpr j.regain.channels.keys_nodup) h.keyed

theorem Sound.poll (h : j.Sound) (order : TableOrder) (ready : Bool)
    (flagsOf : String → Option String) : j.Moved (order, .poll ready flagsOf) := by
  have hp := h.polled order ready flagsOf
  exact ⟨hp.keyed, touch_inTime _, fun key => hp.move key⟩

theorem Sound.poll_due (h : j.Sound) (order : TableOrder) (ready : Bool)
    (flagsOf : String → Option String) {key : String} {c : Channel} {d : ℕ}
    (hl : (j.after (order, .poll ready flagsOf)).channels.lookup key = some c)
    (hi : ¬c.stage.Idle) (hd : c.stage.due = some d) : j.now < d := by
  have hp := h.polled order ready flagsOf
  by_cases hk : key ∈ order.keys j.regain.channels.keys
  · exact hp.due key hk c d hl hi hd
  · have hn : j.regain.channels.lookup key = none := by
      rw [AList.lookup_eq_none]
      exact fun hm => hk ((order.keys_perm _).mem_iff.mpr (AList.mem_keys.mp hm))
    have hl' := (hp.rest key hk).1.symm.trans hl
    rw [hn] at hl'
    cases hl'

theorem Sound.moved (h : j.Sound) (hi : ∀ m, i.2 ≠ .setCasemapping m) : j.Moved i := by
  obtain ⟨order, call⟩ := i
  cases call with
  | elapse time => exact h.elapse time
  | setCasemapping m => exact absurd rfl (hi m)
  | joined name => exact h.joined name
  | parted name => exact h.parted name
  | leaving name => exact h.leaving name
  | topic name text => exact h.topic name text
  | joinFailed name => exact h.joinFailed name
  | roster name users nick complete => exact h.roster name users nick complete
  | poll ready flagsOf => exact h.poll order ready flagsOf

/-- The JOINs of every channel are accounted for. -/
structure Kept (j : Journal) : Prop extends Sound j where
  slack : ∀ key, Slack (j.log key) (stageOf j.regain.channels key)

theorem start_kept : Kept (start enabled) where
  keyed key c hl := by cases hl
  proper key := by rintro due h; cases h
  inTime key c d hl := by cases hl
  slack key := ⟨le_rfl, le_rfl⟩

theorem log_next (hi : ∀ m, i.2 ≠ .setCasemapping m) (key : String) :
    (j.next i).log key = j.log key ++ (j.told i key ++ j.did (j.steps i) key) := by
  obtain ⟨order, call⟩ := i
  rw [← List.append_assoc]
  cases call with
  | setCasemapping m => exact absurd rfl (hi m)
  | _ => rfl

theorem Sound.values (h : j.Sound) (hc : c ∈ Map.values j.regain.channels) :
    j.regain.channels.lookup (j.regain.mapping.fold c.name) = some c := by
  obtain ⟨k, hl⟩ := Map.mem_values.mp hc
  rw [h.keyed k c hl, hl]

theorem old_perm (order : TableOrder) : ((order.keys j.regain.channels.keys).filterMap fun key =>
    j.regain.channels.lookup key).Perm (Map.values j.regain.channels) := by
  rw [← Map.filterMap_lookup_keys]
  exact (order.keys_perm _).filterMap _

theorem rekeyed {m : CaseMapping}
    (hl : (j.next (order, .setCasemapping m)).regain.channels.lookup key = some c) :
    c ∈ Map.values j.regain.channels ∧ m.fold c.name = key := by
  obtain ⟨hc, hk⟩ := lookup_rekeyed_mem hl
  exact ⟨(old_perm order).mem_iff.mp hc, hk⟩

theorem Kept.setCasemapping (h : j.Kept) (m : CaseMapping) :
    (j.next (order, .setCasemapping m)).Kept := by
  have hstage (key : String) (P : Stage → Prop) (hw : P .watching)
      (hs : ∀ c ∈ Map.values j.regain.channels, m.fold c.name = key → P c.stage) :
      P (stageOf (j.next (order, .setCasemapping m)).regain.channels key) := by
    cases hl : (j.next (order, .setCasemapping m)).regain.channels.lookup key with
    | none => rwa [stageOf_none hl]
    | some c =>
      rw [stageOf_some hl]
      exact hs c (rekeyed hl).1 (rekeyed hl).2
  refine ⟨⟨fun key c hl => (rekeyed hl).2, fun key => ?_, touch_inTime _⟩, fun key => ?_⟩
  · refine hstage key Stage.Proper (by rintro due h; cases h) fun c hc _ => ?_
    exact stageOf_some (h.values hc) ▸ h.proper _
  · have hslack : ∀ c ∈ (Map.values j.regain.channels).filter fun c => m.fold c.name == key,
        Slack (j.log (j.regain.mapping.fold c.name)) c.stage := fun c hc =>
      stageOf_some (h.values (List.mem_filter.mp hc).1) ▸ h.slack _
    refine hstage key (Slack ((j.next (order, .setCasemapping m)).log key))
      (flatMap_slack hslack (Or.inl rfl)) fun c hc hk => ?_
    exact flatMap_slack hslack (Or.inr ⟨c, List.mem_filter.mpr ⟨hc, beq_iff_eq.mpr hk⟩, rfl⟩)

theorem Kept.next (h : j.Kept) (i : TableOrder × Call) : (j.next i).Kept := by
  by_cases hi : ∀ m, i.2 ≠ .setCasemapping m
  · obtain ⟨hk, ht, hm⟩ := h.moved hi
    refine ⟨⟨hk, fun key => (hm key).proper (h.proper key), ht⟩, fun key => ?_⟩
    rw [log_next hi]
    exact (hm key).slack (h.slack key)
  · obtain ⟨order, call⟩ := i
    push Not at hi
    obtain ⟨m, rfl⟩ := hi
    exact h.setCasemapping m

theorem Kept.preceded (h : j.Kept) : j.Preceded i := fun key =>
  ⟨(h.next i).slack key |>.watching.joins, (h.next i).slack key |>.watching.restores⟩

/-- The stages say how the attempts go. -/
structure Tracked (j : Journal) : Prop extends Kept j where
  agrees : ∀ key, Agrees (j.log key) (stageOf j.regain.channels key)

theorem start_tracked : Tracked (start enabled) :=
  ⟨start_kept, fun _ => ⟨fun _ => trivial, fun h => by cases h⟩⟩

theorem Tracked.setCasemapping (h : j.Tracked) (m : CaseMapping)
    (hk : j.KeepsApart (order, .setCasemapping m)) (key : String) :
    Agrees ((j.next (order, .setCasemapping m)).log key)
      (stageOf (j.next (order, .setCasemapping m)).regain.channels key) := by
  have hk : ((Map.values j.regain.channels).map fun c => m.fold c.name).Nodup := hk
  have hlog : (j.next (order, .setCasemapping m)).log key =
      ((Map.values j.regain.channels).filter fun c => m.fold c.name == key).flatMap fun c =>
        j.log (j.regain.mapping.fold c.name) := rfl
  cases hl : (j.next (order, .setCasemapping m)).regain.channels.lookup key with
  | some c =>
    obtain ⟨hc, rfl⟩ := rekeyed hl
    rw [hlog, filter_eq_singleton hk hc, List.flatMap_singleton, stageOf_some hl,
      ← stageOf_some (h.values hc)]
    exact h.agrees _
  | none =>
    rw [hlog, List.filter_eq_nil_iff.mpr, stageOf_none hl]
    · exact ⟨fun _ => trivial, fun h => by cases h⟩
    · intro c hc he
      have hs := (lookup_rekeyed (((old_perm order).map _).nodup_iff.mpr hk)).mpr
        ⟨(old_perm order).mem_iff.mpr hc, beq_iff_eq.mp he⟩
      have hs : (j.next (order, .setCasemapping m)).regain.channels.lookup key = some c := hs
      rw [hl] at hs
      cases hs

theorem Tracked.next (h : j.Tracked) (hk : j.KeepsApart i) : (j.next i).Tracked := by
  refine ⟨h.toKept.next i, fun key => ?_⟩
  by_cases hi : ∀ m, i.2 ≠ .setCasemapping m
  · rw [log_next hi]
    exact ((h.moved hi).move key).agrees (h.agrees key)
  · obtain ⟨order, call⟩ := i
    push Not at hi
    obtain ⟨m, rfl⟩ := hi
    exact h.setCasemapping m hk key

theorem Tracked.carried (h : j.Tracked) (hk : j.KeepsApart i) : j.Carried i := by
  intro key hr hu
  have hnext := h.next hk
  obtain ⟨hj, he, hs⟩ := (hnext.agrees key).some hr hu
  refine ⟨hj, he, ?_⟩
  by_cases hidle : (stageOf (j.next i).regain.channels key).Idle
  · exact Or.inl (Stands.over ⟨hj, he, hs⟩ hidle)
  · right
    cases hl : (j.next i).regain.channels.lookup key with
    | none => exact absurd (by rw [stageOf_none hl]; trivial) hidle
    | some c =>
      rw [stageOf_some hl] at hs hidle
      have hd : ∃ d, due ((j.next i).log key) = some d ∧ c.stage.due = some d := by
        cases hst : c.stage with
        | watching => rw [hst] at hidle; exact absurd trivial hidle
        | settling => rw [hst] at hidle; exact absurd trivial hidle
        | attempt d p b => rw [hst] at hs; exact ⟨d, hs.2.1, rfl⟩
        | restoring d f t b => rw [hst] at hs; exact ⟨d, hs.2.1, rfl⟩
      obtain ⟨d, hd, hcd⟩ := hd
      refine ⟨d, hd, hnext.inTime key c d hl hcd, ?_⟩
      obtain ⟨order, call⟩ := i
      rintro ready flagsOf rfl
      exact h.poll_due order ready flagsOf hl hidle hcd

/-- No JOIN and nothing put back comes without an attempt before it, in any run; and in a run in
which no new mapping folds two tracked channels alike, every attempt is carried through. -/
theorem attempts_carried (enabled : Bool) (run : List (TableOrder × Call)) :
    Machine.Along Preceded next (start enabled) run ∧
    (Machine.Along KeepsApart next (start enabled) run →
      Machine.Along Carried next (start enabled) run) := by
  constructor
  · exact Machine.along_of_invariant Kept (fun _ i h => h.next i) (fun _ _ h => h.preceded)
      start_kept
  · exact Machine.Along.of_invariant Tracked (fun _ _ h => h.next) (fun _ _ h hk => h.carried hk)
      start_tracked

theorem room_regained : Machine.Along Carried next (start true) ([.joined "#room",
      .roster "#room" ["me"] "me" true, .elapse stableTime, .poll true fun _ => some "nt",
      .parted "#room", .joined "#room", .roster "#room" ["@me"] "me" true, .elapse restoreWait,
      .poll true fun _ => some "nt"].map (TableOrder.standing, ·)) :=
  (attempts_carried true _).2 (by decide +kernel)

/-- The server shows our PART only after the attempt was given up: nobody joins again. -/
theorem late_part_unanswered : ¬∀ (run : List (TableOrder × Call)) (key : String),
    ((Machine.exec next (start true) run).log key).any Happening.isRejoin = true →
    .parted ∈ course ((Machine.exec next (start true) run).log key) →
    .leaving ∉ course ((Machine.exec next (start true) run).log key) →
    (course ((Machine.exec next (start true) run).log key)).count .join = 1 := by
  intro h
  have h := h ([.joined "#room", .roster "#room" ["me"] "me" true, .elapse stableTime,
    .poll true fun _ => some "", .elapse attemptTimeout, .poll true fun _ => some "",
    .parted "#room"].map (TableOrder.standing, ·)) "#room" (by decide +kernel) (by decide +kernel)
    (by decide +kernel)
  exact absurd h (by decide +kernel)

end Journal

end OpRegain

end CayenChat
