import CayenChat.Regain.Attempts
import CayenChat.Regain.Following

/-! # What a call means for a channel

One relation says what a call may mean for a channel: the stage it is in, what
happens, and the stage it is left in. The stages stay in step with what happened,
and every operation on a channel is such a move.
-/

namespace CayenChat

namespace OpRegain

def Stage.Idle : Stage → Prop
  | watching | settling _ => True
  | attempt .. | restoring .. => False

def Stage.parting : Stage → ℕ
  | attempt _ false _ => 1
  | _ => 0

def Stage.joining : Stage → ℕ
  | attempt _ true _ => 1
  | _ => 0

def Stage.Proper (s : Stage) : Prop := ∀ due, s ≠ .attempt due false true

/-- What a call means for a channel in a stage, and the stage it leaves it in; a channel that is
not tracked is one that is watched. -/
inductive Move (now : ℕ) : Stage → List Happening → Stage → Prop
  | stays {s} : Move now s [] s
  | idle {s s' : Stage} {hs} : s.Idle → s'.Idle →
      (∀ h ∈ hs, h = .joined ∨ h = .parted ∨ h = .leaving) → Move now s hs s'
  | rejoin {s : Stage} : s.Idle →
      Move now s [.rejoin now] (.attempt (now + attemptTimeout) false false)
  | echoed {d} : Move now (.attempt d false false) [.parted, .join] (.attempt d true false)
  | joined {d} {j j' : Bool} : Move now (.attempt d true j) [.joined] (.attempt d true j')
  | disturbed {s s' : Stage} : ¬s.Idle → s.joining = 0 → s' = s ∨ s'.Idle →
      Move now s [.joined] s'
  | left {s s' : Stage} : s.parting = 0 → s'.Idle → Move now s [.parted] s'
  | leaving {s s' : Stage} : s'.Idle → Move now s [.leaving] s'
  | noted {d} {f : String} {t : Option String} {seen seen' : Bool} :
      Move now (.restoring d f t seen) [] (.restoring d f t seen')
  | ended {s s' : Stage} : ¬s.Idle → s'.Idle → Move now s [.ended] s'
  | restore {d} {f : String} {t : Option String} : Move now (.attempt d true true) [.restore now]
      (.restoring (now + restoreWait) f t false)

variable {a b log : List Happening} {h : Happening} {s s' : Stage} {now d : ℕ}
  {hs : List Happening}

/-! ## The course of an attempt -/

theorem course_append (hb : ∀ h ∈ b, h.isRejoin = false) : course (log ++ b) = course log ++ b := by
  induction b using List.reverseRecOn with
  | nil => simp
  | append_singleton b h ih =>
    rw [course, ← List.append_assoc, List.rtakeWhile_concat_pos]
    · rw [← course, ih fun h hh => hb h (List.mem_append_left _ hh), List.append_assoc]
    · simp [hb h (by simp)]

theorem course_rejoin {t : ℕ} : course (log ++ [.rejoin t]) = [] :=
  List.rtakeWhile_concat_neg _ _ _ (by simp [Happening.isRejoin])

theorem confirmed_eq (ho : ¬Over a) : confirmed a = decide (0 < a.count .parted) := by
  have htake : a.takeWhile (fun h => h != .ended && h != .leaving) = a :=
    List.takeWhile_eq_self_iff.mpr fun x hx => by
      rw [Bool.and_eq_true, bne_iff_ne, bne_iff_ne]
      exact ⟨fun e => ho (Or.inl (e ▸ hx)), fun e => ho (Or.inr (Or.inl (e ▸ hx)))⟩
  rw [confirmed, htake]
  simp [List.count_pos_iff]

theorem confirmed_snoc (hh : h ≠ .parted) : confirmed (a ++ [h]) = confirmed a := by
  unfold confirmed
  rw [List.takeWhile_append]
  split_ifs with hl
  · rw [(List.takeWhile_prefix _).eq_of_length hl, List.contains_append]
    cases h with
    | parted => exact absurd rfl hh
    | _ => simp
  · rfl

theorem confirmed_append (ho : Over a ∨ confirmed a = true) :
    confirmed (a ++ b) = confirmed a := by
  cases hc : confirmed a with
  | true =>
    rw [confirmed, List.contains_iff_mem] at hc ⊢
    rw [List.takeWhile_append]
    split_ifs
    · exact List.mem_append_left _ (List.takeWhile_subset _ hc)
    · exact hc
  | false =>
    have hstop : ∃ x ∈ a, (x != Happening.ended && x != .leaving) = false := by
      rcases ho with (he | hl | hp) | ho
      · exact ⟨_, he, rfl⟩
      · exact ⟨_, hl, rfl⟩
      · by_contra hno
        push Not at hno
        have htake : a.takeWhile (fun h => h != .ended && h != .leaving) = a :=
          List.takeWhile_eq_self_iff.mpr fun x hx => by simpa using hno x hx
        rw [confirmed, htake, Bool.eq_false_iff, ne_eq, List.contains_iff_mem,
          ← List.count_pos_iff] at hc
        omega
      · rw [hc] at ho; cases ho
    have htake : (a ++ b).takeWhile (fun h => h != .ended && h != .leaving) =
        a.takeWhile (fun h => h != .ended && h != .leaving) := by
      obtain ⟨x, hx, hn⟩ := hstop
      rw [List.takeWhile_append, if_neg]
      intro hl
      have he := List.takeWhile_eq_self_iff.mp
        ((List.takeWhile_prefix _).eq_of_length hl) x hx
      rw [hn] at he
      cases he
    rw [confirmed, htake, ← confirmed, hc]

theorem undisturbed_snoc : Undisturbed (a ++ [h]) ↔ Undisturbed a ∧
    (h = .joined → Over a ∨ .parted ∈ a ∧ a.any Happening.isRestore = false) := by
  have hlen : (a ++ [h]).length = a.length + 1 := by simp
  constructor
  · intro hu
    refine ⟨fun n hn he => ?_, fun hj => ?_⟩
    · have hd := hu n (by omega) (by rwa [List.getElem?_append_left hn])
      rwa [List.take_append_of_le_length hn.le] at hd
    · have hd := hu a.length (by omega) (by simp [hj])
      rwa [List.take_left] at hd
  · rintro ⟨hu, hj⟩ n hn he
    rcases Nat.lt_or_ge n a.length with hlt | hge
    · rw [List.take_append_of_le_length hlt.le]
      exact hu n hlt (by rwa [List.getElem?_append_left hlt] at he)
    · obtain rfl : n = a.length := by omega
      rw [List.take_left]
      exact hj (by simpa using he)

theorem undisturbed_append (hu : Undisturbed (a ++ b)) : Undisturbed a := by
  induction b using List.reverseRecOn with
  | nil => simpa using hu
  | append_singleton b h ih =>
    rw [← List.append_assoc] at hu
    exact ih (undisturbed_snoc.mp hu).1

theorem not_over_snoc (ho : ¬Over a) (he : h ≠ .ended) (hl : h ≠ .leaving)
    (hp : a.count .parted + (if h = .parted then 1 else 0) ≤ 1) : ¬Over (a ++ [h]) := by
  rintro (he' | hl' | h2)
  · rcases List.mem_append.mp he' with hm | hm
    · exact ho (Or.inl hm)
    · exact he (List.mem_singleton.mp hm).symm
  · rcases List.mem_append.mp hl' with hm | hm
    · exact ho (Or.inr (Or.inl hm))
    · exact hl (List.mem_singleton.mp hm).symm
  · rw [List.count_append, List.count_singleton] at h2
    simp only [beq_iff_eq] at h2
    omega

theorem Over.append (ho : Over a) : Over (a ++ b) := by
  rcases ho with he | hl | hp
  · exact Or.inl (List.mem_append_left _ he)
  · exact Or.inr (Or.inl (List.mem_append_left _ hl))
  · exact Or.inr (Or.inr (by rw [List.count_append]; omega))

/-! ## What a call means for a channel -/

theorem Stage.Idle.proper (hs : s.Idle) : s.Proper := by
  rintro due rfl
  exact hs

@[simp] theorem Stage.Idle.parting (hs : s.Idle) : s.parting = 0 := by
  cases s <;> first | rfl | exact hs.elim

@[simp] theorem Stage.Idle.joining (hs : s.Idle) : s.joining = 0 := by
  cases s <;> first | rfl | exact hs.elim

theorem Move.proper (hm : Move now s hs s') (hp : s.Proper) : s'.Proper := by
  cases hm with
  | stays => exact hp
  | idle _ hi _ => exact hi.proper
  | disturbed _ _ he =>
    rcases he with rfl | hi
    · exact hp
    · exact hi.proper
  | left _ hi => exact hi.proper
  | leaving hi => exact hi.proper
  | ended _ hi => exact hi.proper
  | _ => intro due he; cases he

/-- The JOINs of a channel are those of its attempts, but for one that may be owed still; what is
put back follows a JOIN. -/
structure Slack (log : List Happening) (s : Stage) : Prop where
  joins : log.count .join + s.parting ≤ log.countP Happening.isRejoin
  restores : log.countP Happening.isRestore + s.joining ≤ log.count .join

theorem Move.slack (hm : Move now s hs s') (hk : Slack log s) : Slack (log ++ hs) s' := by
  obtain ⟨hj, hr⟩ := hk
  have hplain (hh : ∀ h ∈ hs, h = .joined ∨ h = .parted ∨ h = .leaving) :
      hs.count .join = 0 ∧ hs.countP Happening.isRejoin = 0 ∧
        hs.countP Happening.isRestore = 0 := by
    refine ⟨List.count_eq_zero.mpr fun hm => ?_, List.countP_eq_zero.mpr fun h hm => ?_,
      List.countP_eq_zero.mpr fun h hm => ?_⟩
    · simpa using hh _ hm
    · rcases hh h hm with rfl | rfl | rfl <;> simp [Happening.isRejoin]
    · rcases hh h hm with rfl | rfl | rfl <;> simp [Happening.isRestore]
  constructor <;> rw [List.count_append, List.countP_append]
  · cases hm with
    | idle hi hi' hh => rw [(hplain hh).1, (hplain hh).2.1, hi'.parting]; omega
    | disturbed _ _ he =>
      rcases he with rfl | hi
      · simpa [Happening.isRejoin] using hj
      · simp [Happening.isRejoin, hi]; omega
    | left _ hi => simp [Happening.isRejoin, hi]; omega
    | leaving hi => simp [Happening.isRejoin, hi]; omega
    | ended _ hi => simp [Happening.isRejoin, hi]; omega
    | rejoin hi =>
      rw [hi.parting] at hj
      simpa [Happening.isRejoin, Stage.parting] using hj
    | stays => simpa using hj
    | _ => simpa [Happening.isRejoin, Stage.parting] using hj
  · cases hm with
    | idle hi hi' hh => rw [(hplain hh).1, (hplain hh).2.2, hi'.joining]; omega
    | disturbed _ _ he =>
      rcases he with rfl | hi
      · simpa [Happening.isRestore] using hr
      · simp [Happening.isRestore, hi]; omega
    | left _ hi => simp [Happening.isRestore, hi]; omega
    | leaving hi => simp [Happening.isRestore, hi]; omega
    | ended _ hi => simp [Happening.isRestore, hi]; omega
    | rejoin hi =>
      rw [hi.joining] at hr
      simpa [Happening.isRestore, Stage.joining] using hr
    | stays => simpa using hr
    | _ => simpa [Happening.isRestore, Stage.joining] using hr

/-! ## How the stage says how the attempt goes -/

/-- An attempt went as it should so far, and the stage says how far it is. -/
structure Stands (a : List Happening) (wait : Option ℕ) (s : Stage) : Prop where
  joins : a.count .join = if confirmed a then 1 else 0
  ended : a.count .ended ≤ 1
  stage : match s with
    | .watching | .settling _ => Over a
    | .attempt d p _ => ¬Over a ∧ wait = some d ∧ a.count .parted = (if p then 1 else 0) ∧
        a.any Happening.isRestore = false
    | .restoring d .. => ¬Over a ∧ wait = some d ∧ a.count .parted = 1 ∧
        a.any Happening.isRestore = true

/-- Before the first attempt none is under way; the last one went as it should. -/
structure Agrees (log : List Happening) (s : Stage) : Prop where
  none : log.any Happening.isRejoin = false → s.Idle
  some : log.any Happening.isRejoin = true → Undisturbed (course log) →
    Stands (course log) (due log) s

theorem Stands.over (hs : Stands a wait s) (hi : s.Idle) : Over a := by
  have h := hs.stage
  cases s <;> first | exact h | exact hi.elim

theorem Stands.not_over (hs : Stands a wait s) (hi : ¬s.Idle) : ¬Over a := by
  have h := hs.stage
  cases s with
  | watching | settling => exact absurd trivial hi
  | attempt d p j => exact h.1
  | restoring d f t b => exact h.1

theorem stands_idle (hi : s.Idle) (ho : Over a) (hj : a.count .join = if confirmed a then 1 else 0)
    (he : a.count .ended ≤ 1) : Stands a wait s := by
  refine ⟨hj, he, ?_⟩
  cases s <;> first | exact ho | exact hi.elim

theorem due_append (hb : ∀ h ∈ b, h.isRejoin = false ∧ h.isRestore = false) :
    due (log ++ b) = due log := by
  induction b using List.reverseRecOn with
  | nil => rw [List.append_nil]
  | append_singleton b h ih =>
    rw [← List.append_assoc, due, List.foldl_append, ← due,
      ih fun x hx => hb x (List.mem_append_left _ hx)]
    have hh := hb h (by simp)
    cases h with
    | rejoin => cases hh.1
    | restore => cases hh.2
    | _ => rfl

theorem Agrees.append (ha : Agrees log s) (hb : ∀ h ∈ hs, h.isRejoin = false)
    (hi : s.Idle → s'.Idle)
    (hst : Stands (course log) (due log) s → Undisturbed (course log ++ hs) →
      Stands (course log ++ hs) (due (log ++ hs)) s') : Agrees (log ++ hs) s' := by
  have hany : (log ++ hs).any Happening.isRejoin = log.any Happening.isRejoin := by
    have hany : hs.any Happening.isRejoin = false :=
      List.any_eq_false.mpr fun h hh => Bool.not_eq_true _ ▸ hb h hh
    rw [List.any_append, hany, Bool.or_false]
  refine ⟨fun hn => hi (ha.none (hany ▸ hn)), fun hr hu => ?_⟩
  rw [course_append hb] at hu ⊢
  exact hst (ha.some (hany ▸ hr) (undisturbed_append hu)) hu

theorem Move.agrees (hm : Move now s hs s') (ha : Agrees log s) : Agrees (log ++ hs) s' := by
  cases hm with
  | stays => simpa using ha
  | idle hi hi' hh =>
    refine ha.append (fun h hm => ?_) (fun _ => hi') fun hst _ => ?_
    · rcases hh h hm with rfl | rfl | rfl <;> rfl
    · have ho := hst.over hi
      have hcount (x : Happening) (hx : x = .join ∨ x = .ended) : hs.count x = 0 :=
        List.count_eq_zero.mpr fun hm => by
          rcases hx with rfl | rfl <;> simpa using hh _ hm
      refine stands_idle hi' ho.append ?_ ?_
      · rw [List.count_append, hcount _ (Or.inl rfl), confirmed_append (Or.inl ho)]
        exact hst.joins
      · rw [List.count_append, hcount _ (Or.inr rfl)]
        exact hst.ended
  | rejoin hi =>
    refine ⟨fun hn => by simp [Happening.isRejoin] at hn, fun _ _ => ?_⟩
    rw [course_rejoin, due, List.foldl_append]
    exact ⟨rfl, Nat.zero_le _, by simp [Over], rfl, rfl, rfl⟩
  | echoed =>
    refine ha.append (by simp [Happening.isRejoin]) id fun hst _ => ?_
    obtain ⟨ho, hd, hp, hr⟩ := hst.stage
    have hc : confirmed (course log) = false := by rw [confirmed_eq ho, hp]; rfl
    have hj : (course log).count .join = 0 := by rw [hst.joins, hc]; rfl
    have ho' : ¬Over (course log ++ [.parted] ++ [.join]) :=
      not_over_snoc (not_over_snoc ho (by simp) (by simp) (by simp [hp])) (by simp) (by simp)
        (by simp [hp])
    have ho' : ¬Over (course log ++ [.parted, .join]) := by rwa [List.append_assoc] at ho'
    refine ⟨?_, ?_, ho', ?_, ?_, ?_⟩
    · rw [confirmed_eq ho', List.count_append, List.count_append, hj, hp]
      rfl
    · rw [List.count_append]
      exact hst.ended
    · rw [due_append (by simp [Happening.isRejoin, Happening.isRestore]), hd]
    · rw [List.count_append, hp]; rfl
    · rw [List.any_append, hr]; rfl
  | joined => 
    refine ha.append (by simp [Happening.isRejoin]) id fun hst _ => ?_
    obtain ⟨ho, hd, hp, hr⟩ := hst.stage
    have ho' : ¬Over (course log ++ [.joined]) :=
      not_over_snoc ho (by simp) (by simp) (by simp [hp])
    have hc : confirmed (course log) = true := by rw [confirmed_eq ho, hp]; rfl
    refine ⟨?_, ?_, ho', ?_, ?_, ?_⟩
    · rw [confirmed_append (Or.inr hc), List.count_append]
      exact hst.joins
    · rw [List.count_append]
      exact hst.ended
    · rw [due_append (by simp [Happening.isRejoin, Happening.isRestore]), hd]
    · rw [List.count_append, hp]; rfl
    · rw [List.any_append, hr]; rfl
  | disturbed hi hj he => 
    refine ha.append (by simp [Happening.isRejoin]) (absurd · hi) fun hst hu => ?_
    have ho := hst.not_over hi
    obtain ⟨-, hd⟩ := undisturbed_snoc.mp hu
    obtain ⟨hp, hr⟩ := (hd rfl).resolve_left ho
    have hst := hst.stage
    cases s with
    | watching | settling => exact absurd trivial hi
    | attempt d p j =>
      cases p with
      | true => cases hj
      | false =>
        rw [← List.count_pos_iff, hst.2.2.1] at hp
        cases hp
    | restoring d f t b =>
      rw [hst.2.2.2] at hr
      cases hr
  | left hp hi =>
    refine ha.append (by simp [Happening.isRejoin]) (fun _ => hi) fun hst _ => ?_
    have hc : Over (course log) ∨ confirmed (course log) = true := by
      have h := hst.stage
      cases s with
      | watching | settling => exact Or.inl h
      | attempt d p j =>
        cases p with
        | false => cases hp
        | true => right; rw [confirmed_eq h.1, h.2.2.1]; rfl
      | restoring d f t b => right; rw [confirmed_eq h.1, h.2.2.1]; rfl
    refine stands_idle hi ?_ ?_ ?_
    · rcases hc with ho | hc
      · exact ho.append
      · by_cases ho : Over (course log)
        · exact ho.append
        · rw [confirmed_eq ho, decide_eq_true_eq] at hc
          refine Or.inr (Or.inr ?_)
          rw [List.count_append]
          exact Nat.succ_le_succ hc
    · rw [confirmed_append hc, List.count_append]
      exact hst.joins
    · rw [List.count_append]
      exact hst.ended
  | leaving hi =>
    refine ha.append (by simp [Happening.isRejoin]) (fun _ => hi) fun hst _ => ?_
    refine stands_idle hi (Or.inr (Or.inl (by simp))) ?_ ?_
    · rw [List.count_append, confirmed_snoc (by simp)]
      exact hst.joins
    · rw [List.count_append]
      exact hst.ended
  | noted => 
    refine ha.append (by simp) id fun hst _ => ?_
    rw [List.append_nil, List.append_nil]
    exact ⟨hst.joins, hst.ended, hst.stage⟩
  | ended hi hi' => 
    refine ha.append (by simp [Happening.isRejoin]) (fun _ => hi') fun hst _ => ?_
    have ho := hst.not_over hi
    refine stands_idle hi' (Or.inl (by simp)) ?_ ?_
    · rw [List.count_append, confirmed_snoc (by simp)]
      exact hst.joins
    · rw [List.count_append, List.count_eq_zero.mpr fun he => ho (Or.inl he)]
      rfl
  | restore =>
    refine ha.append (by simp [Happening.isRejoin]) id fun hst _ => ?_
    obtain ⟨ho, hd, hp, hr⟩ := hst.stage
    refine ⟨?_, ?_, ?_, ?_, ?_, ?_⟩
    · rw [List.count_append, confirmed_snoc (by simp)]
      exact hst.joins
    · rw [List.count_append]
      exact hst.ended
    · exact not_over_snoc ho (by simp) (by simp) (by simp [hp])
    · rw [due, List.foldl_append]
      rfl
    · rw [List.count_append, hp]; rfl
    · rw [List.any_append]; simp [Happening.isRestore]

/-! ## What the operations do to one channel -/

variable {c : Channel} {ready : Bool} {flagsOf : String → Option String} {n : ℕ}

/-- Some steps are those for one channel, which they move. -/
structure Moves (now : ℕ) (c c' : Channel) (steps : List Step) : Prop where
  name : c'.name = c.name
  channel : ∀ s ∈ steps, s.channel = c.name
  move : Move now c.stage (steps.filterMap (Step.happening now)) c'.stage

theorem Moves.refl : Moves now c c [] := ⟨rfl, by simp, .stays⟩

theorem Channel.settle_moves (c : Channel) (now : ℕ) (hi : c.stage.Idle) : Moves now c (c.settle now) [] := by
  refine ⟨rfl, by simp, .idle hi ?_ (by simp)⟩
  unfold Channel.settle
  dsimp only
  split_ifs
  · split <;> trivial
  · trivial

theorem Channel.finish_moves (c : Channel) (now : ℕ) (hs : c.stage = .attempt d true true) :
    Moves now c (c.finish now).1 (c.finish now).2 := by
  have hi : ¬c.stage.Idle := by rw [hs]; exact id
  unfold Channel.finish
  dsimp only
  split_ifs
  · exact ⟨rfl, by simp [Step.channel], .ended hi trivial⟩
  · exact ⟨rfl, by simp [Step.channel], .ended hi trivial⟩
  · exact ⟨rfl, by simp [Step.channel], by rw [hs]; exact .restore⟩

theorem Channel.rosterChanged_moves (c : Channel) (now : ℕ) (users : List String) (nick : String)
    (complete : Bool) (hp : c.stage.Proper) :
    Moves now c (c.rosterChanged users nick complete now).1
      (c.rosterChanged users nick complete now).2 := by
  by_cases h : c.inChannel = true ∧ (c.synced || complete) = true
  · have hsee (hi : c.stage.Idle) :
        Moves now c ((c.see users nick complete).settle now) [] := by
      obtain ⟨hn, -, hm⟩ := (c.see users nick complete).settle_moves now hi
      exact ⟨hn, by simp, hm⟩
    unfold Channel.rosterChanged
    rw [h.1, h.2]
    simp only [Bool.not_true, Bool.false_eq_true, if_false]
    have hstage : (c.see users nick complete).stage = c.stage := rfl
    rw [hstage]
    cases hs : c.stage with
    | watching => exact hsee (by rw [hs]; trivial)
    | settling => exact hsee (by rw [hs]; trivial)
    | restoring => exact ⟨rfl, by simp, .stays⟩
    | attempt d p j =>
      cases j with
      | false => exact ⟨rfl, by simp, .stays⟩
      | true =>
        cases p with
        | false => exact absurd hs (hp d)
        | true =>
          cases complete with
          | false => exact ⟨rfl, by simp, .stays⟩
          | true => 
            obtain ⟨hn, hc, hm⟩ := (c.see users nick true).finish_moves now hs
            exact ⟨hn, hc, hm⟩
  · rw [c.rosterChanged_ignored h]
    exact Moves.refl

theorem Channel.attempt_moves {flags : String} (hi : c.stage.Idle) :
    Moves now c (c.attempt now flags n).1 (c.attempt now flags n).2.1 := by
  unfold Channel.attempt
  by_cases ht : maxTopic < byteLen c.topic
  · rw [if_pos ht]
    exact ⟨rfl, by simp [Step.channel], .idle hi trivial (by simp [Step.happening, Status.final])⟩
  · rw [if_neg ht]
    by_cases hn : maxRejoinsPerPoll ≤ n
    · rw [if_pos hn]
      exact ⟨rfl, by simp, .idle hi trivial (by simp)⟩
    · rw [if_neg hn]
      exact ⟨rfl, by simp [Step.channel], .rejoin hi⟩

theorem Channel.poll_moves (c : Channel) (now : ℕ) (ready : Bool)
    (flagsOf : String → Option String) (n : ℕ) :
    Moves now c (c.poll now ready flagsOf n).1 (c.poll now ready flagsOf n).2.1 := by
  unfold Channel.poll
  cases hs : c.stage with
  | watching => exact Moves.refl
  | settling due =>
    have hi : c.stage.Idle := by rw [hs]; trivial
    dsimp only
    by_cases hd : due ≤ now
    · rw [if_pos hd]
      split
      · by_cases hq : c.qualifies = true
        · rw [if_pos hq]
          exact Channel.attempt_moves hi
        · rw [if_neg hq]
          exact ⟨rfl, by simp, .idle hi trivial (by simp)⟩
      · exact ⟨rfl, by simp, .idle hi trivial (by simp)⟩
    · rw [if_neg hd]
      exact Moves.refl
  | attempt due p j =>
    have hi : ¬c.stage.Idle := by rw [hs]; exact id
    dsimp only
    split_ifs
    · exact ⟨rfl, by simp [Step.channel], .ended hi trivial⟩
    · exact ⟨rfl, by simp [Step.channel], .ended hi trivial⟩
    · exact Moves.refl
  | restoring due flags topic topicSeen =>
    have hi : ¬c.stage.Idle := by rw [hs]; exact id
    dsimp only
    by_cases hd : due ≤ now
    · rw [if_pos hd]
      have hf : (if c.qualifies then Stage.settling (now + stableTime) else .watching).Idle := by
        split_ifs <;> trivial
      refine ⟨rfl, by simp [Channel.judge, Step.channel], ?_⟩
      have hs : (c.judge now flags topic topicSeen ((flagsOf c.name).getD "")).2.filterMap
          (Step.happening now) = [.ended] := by
        unfold Channel.judge
        dsimp only
        split_ifs <;> rfl
      dsimp only
      rw [hs]
      exact .ended hi hf
    · rw [if_neg hd]
      exact Moves.refl

theorem Channel.poll_due (hi : ¬(c.poll now ready flagsOf n).1.stage.Idle)
    (hd : (c.poll now ready flagsOf n).1.stage.due = some d) : now < d := by
  have hattempt {flags : String} (hc : c.stage.Idle) (hi : ¬(c.attempt now flags n).1.stage.Idle)
      (hd : (c.attempt now flags n).1.stage.due = some d) : now < d := by
    unfold Channel.attempt at hi hd
    by_cases ht : maxTopic < byteLen c.topic
    · rw [if_pos ht] at hi
      exact absurd trivial hi
    · rw [if_neg ht] at hi hd
      by_cases hn : maxRejoinsPerPoll ≤ n
      · rw [if_pos hn] at hi
        exact absurd trivial hi
      · rw [if_neg hn] at hd
        cases hd
        exact Nat.lt_add_of_pos_right (by decide)
  unfold Channel.poll at hi hd
  cases hs : c.stage with
  | watching =>
    rw [hs] at hi
    dsimp only at hi
    rw [hs] at hi
    exact absurd trivial hi
  | settling due =>
    have hc : c.stage.Idle := by rw [hs]; trivial
    rw [hs] at hi hd
    dsimp only at hi hd
    by_cases hdue : due ≤ now
    · rw [if_pos hdue] at hi hd
      split at hi
      · rename_i flags hf
        rw [hf] at hd
        dsimp only at hd
        by_cases hq : c.qualifies = true
        · rw [if_pos hq] at hi hd
          exact hattempt hc hi hd
        · rw [if_neg hq] at hi
          exact absurd trivial hi
      · exact absurd trivial hi
    · rw [if_neg hdue, hs] at hi
      exact absurd trivial hi
  | attempt due p j =>
    rw [hs] at hi hd
    dsimp only at hi hd
    by_cases hdue : due ≤ now
    · rw [if_pos hdue] at hi
      exact absurd trivial hi
    · rw [if_neg hdue, hs] at hd
      cases hd
      exact Nat.lt_of_not_le hdue
  | restoring due flags topic topicSeen =>
    rw [hs] at hi hd
    dsimp only at hi hd
    by_cases hdue : due ≤ now
    · rw [if_pos hdue] at hi
      refine absurd ?_ hi
      unfold Channel.judge
      dsimp only
      split_ifs <;> trivial
    · rw [if_neg hdue, hs] at hd
      cases hd
      exact Nat.lt_of_not_le hdue

end OpRegain

end CayenChat
