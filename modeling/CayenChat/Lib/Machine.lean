import Mathlib

/-! # Runs of a deterministic machine

A machine is a step function on states and inputs. Conditions and properties
of the steps of a run are read along the run; an invariant kept by the steps
that meet a condition carries a property to every step.
-/

namespace Machine

variable {σ ι : Type*}

def exec (step : σ → ι → σ) : σ → List ι → σ := List.foldl step

def Along (C : σ → ι → Prop) (step : σ → ι → σ) : σ → List ι → Prop
  | _, [] => True
  | s, i :: is => C s i ∧ Along C step (step s i) is

instance Along.decidable (C : σ → ι → Prop) [∀ s i, Decidable (C s i)] (step : σ → ι → σ) :
    (s : σ) → (is : List ι) → Decidable (Along C step s is)
  | _, [] => isTrue trivial
  | s, i :: is =>
    haveI := Along.decidable C step (step s i) is
    inferInstanceAs (Decidable (C s i ∧ Along C step (step s i) is))

variable {C P : σ → ι → Prop} {step : σ → ι → σ} {s : σ} {i : ι} {is js : List ι}

@[simp] theorem exec_nil : exec step s [] = s := rfl
@[simp] theorem exec_cons : exec step s (i :: is) = exec step (step s i) is := rfl
@[simp] theorem exec_append : exec step s (is ++ js) = exec step (exec step s is) js :=
  List.foldl_append ..

@[simp] theorem along_nil : Along C step s [] := trivial
@[simp] theorem along_cons :
    Along C step s (i :: is) ↔ C s i ∧ Along C step (step s i) is := Iff.rfl

theorem along_append :
    Along C step s (is ++ js) ↔ Along C step s is ∧ Along C step (exec step s is) js := by
  induction is generalizing s with
  | nil => simp
  | cons i is ih => simp [ih, and_assoc]

theorem Along.mono (h : Along C step s is) (hcp : ∀ s i, C s i → P s i) :
    Along P step s is := by
  induction is generalizing s with
  | nil => trivial
  | cons i is ih => exact ⟨hcp _ _ h.1, ih h.2⟩

theorem Along.and (h : Along C step s is) (h' : Along P step s is) :
    Along (fun s i => C s i ∧ P s i) step s is := by
  induction is generalizing s with
  | nil => trivial
  | cons i is ih => exact ⟨⟨h.1, h'.1⟩, ih h.2 h'.2⟩

theorem along_true : Along (fun _ _ => True) step s is := by
  induction is generalizing s with
  | nil => trivial
  | cons i is ih => exact ⟨trivial, ih⟩

theorem along_of_mem (h : ∀ i ∈ is, ∀ s, P s i) : Along P step s is := by
  induction is generalizing s with
  | nil => trivial
  | cons i is ih =>
    exact ⟨h i List.mem_cons_self s, ih fun j hj => h j (List.mem_cons_of_mem _ hj)⟩

theorem exec_invariant (I : σ → Prop) (hs : ∀ s i, I s → C s i → I (step s i))
    (h0 : I s) (h : Along C step s is) : I (exec step s is) := by
  induction is generalizing s with
  | nil => exact h0
  | cons i is ih => exact ih (hs _ _ h0 h.1) h.2

theorem exec_invariant' (I : σ → Prop) (hs : ∀ s i, I s → I (step s i)) (h0 : I s) :
    I (exec step s is) :=
  exec_invariant I (fun s i h _ => hs s i h) h0 (C := fun _ _ => True) along_true

theorem Along.of_invariant (I : σ → Prop) (hs : ∀ s i, I s → C s i → I (step s i))
    (hp : ∀ s i, I s → C s i → P s i) (h0 : I s) (h : Along C step s is) :
    Along P step s is := by
  induction is generalizing s with
  | nil => trivial
  | cons i is ih => exact ⟨hp _ _ h0 h.1, ih (hs _ _ h0 h.1) h.2⟩

theorem along_of_invariant (I : σ → Prop) (hs : ∀ s i, I s → I (step s i))
    (hp : ∀ s i, I s → P s i) (h0 : I s) : Along P step s is :=
  Along.of_invariant I (fun s i h _ => hs s i h) (fun s i h _ => hp s i h) h0
    (C := fun _ _ => True) along_true

section Attempt

variable {ε : Type*} {f : σ → ι → Except ε σ} {s' : σ} {e : Except ε σ}

def attempt (f : σ → ι → Except ε σ) : Except ε σ → ι → Except ε σ
  | .ok s, i => f s i
  | .error e, _ => .error e

def BeforeRefusal (C : σ → ι → Prop) : Except ε σ → ι → Prop
  | .ok s, i => C s i
  | .error _, _ => True

instance [∀ s i, Decidable (C s i)] : (e : Except ε σ) → (i : ι) → Decidable (BeforeRefusal C e i)
  | .ok s, i => inferInstanceAs (Decidable (C s i))
  | .error _, _ => isTrue trivial

@[simp] theorem attempt_ok : attempt f (.ok s) i = f s i := rfl
@[simp] theorem attempt_error {e : ε} : attempt f (.error e) i = .error e := rfl

/-- An invariant kept by the steps that meet the condition and are not refused holds after a run
without refusal. -/
theorem attempt_invariant (I : σ → Prop) (hs : ∀ s i s', I s → C s i → f s i = .ok s' → I s')
    (h0 : I s) (h : Along (BeforeRefusal C) (attempt f) (.ok s) is)
    (he : exec (attempt f) (.ok s) is = .ok s') : I s' := by
  refine exec_invariant (fun e => ∀ s, e = .ok s → I s) (fun e i he hc s' h' => ?_)
    (fun s' h' => by cases h'; exact h0) h s' he
  cases e with
  | ok s => exact hs s i s' (he s rfl) hc h'
  | error e => cases h'

theorem attempt_invariant' (I : σ → Prop) (hs : ∀ s i s', I s → f s i = .ok s' → I s')
    (h0 : I s) (he : exec (attempt f) (.ok s) is = .ok s') : I s' :=
  attempt_invariant (C := fun _ _ => True) I (fun s i s' h _ => hs s i s' h) h0
    (along_true.mono fun e _ _ => by cases e <;> trivial) he

theorem attempt_along (I : σ → Prop) (hs : ∀ s i s', I s → C s i → f s i = .ok s' → I s')
    (hp : ∀ s i, I s → C s i → P s i) (h0 : I s)
    (h : Along (BeforeRefusal C) (attempt f) (.ok s) is) :
    Along (BeforeRefusal P) (attempt f) (.ok s) is := by
  refine Along.of_invariant (fun e => ∀ s, e = .ok s → I s) (fun e i he hc s' h' => ?_)
    (fun e i he hc => ?_) (fun s' h' => by cases h'; exact h0) h
  · cases e with
    | ok s => exact hs s i s' (he s rfl) hc h'
    | error e => cases h'
  · cases e with
    | ok s => exact hp s i (he s rfl) hc
    | error e => trivial

end Attempt

section Collect

variable {β : Type*}

def collect (f : σ → ι → List β) (step : σ → ι → σ) : σ → List ι → List β
  | _, [] => []
  | s, i :: is => f s i ++ collect f step (step s i) is

variable {f g : σ → ι → List β} {μ : σ → List β}

@[simp] theorem collect_nil : collect f step s [] = [] := rfl
@[simp] theorem collect_cons :
    collect f step s (i :: is) = f s i ++ collect f step (step s i) is := rfl

theorem collect_invariant (I : σ → List β → Prop)
    (hs : ∀ s l i, I s l → I (step s i) (l ++ f s i)) {l : List β} (h0 : I s l) :
    I (exec step s is) (l ++ collect f step s is) := by
  induction is generalizing s l with
  | nil => simpa using h0
  | cons i is ih =>
    have h := ih (hs s l i h0)
    rwa [List.append_assoc] at h

theorem collect_append :
    collect f step s (is ++ js) = collect f step s is ++ collect f step (exec step s is) js := by
  induction is generalizing s with
  | nil => rfl
  | cons i is ih => simp [ih]

theorem collect_balance (h : ∀ s i, μ s ++ f s i = g s i ++ μ (step s i)) (s : σ) (is : List ι) :
    μ s ++ collect f step s is = collect g step s is ++ μ (exec step s is) := by
  induction is generalizing s with
  | nil => simp
  | cons i is ih =>
    rw [collect_cons, collect_cons, exec_cons, ← List.append_assoc, h, List.append_assoc, ih,
      List.append_assoc]

theorem collect_perm (h : ∀ s i, (μ s ++ f s i).Perm (g s i ++ μ (step s i))) (s : σ)
    (is : List ι) :
    (μ s ++ collect f step s is).Perm (collect g step s is ++ μ (exec step s is)) := by
  induction is generalizing s with
  | nil => simp
  | cons i is ih =>
    rw [collect_cons, collect_cons, exec_cons, ← List.append_assoc, List.append_assoc (g s i)]
    refine ((h s i).append_right _).trans ?_
    rw [List.append_assoc]
    exact (ih _).append_left _

theorem collect_count [BEq β] [LawfulBEq β]
    (h : ∀ s i, (μ s ++ f s i).Perm (g s i ++ μ (step s i))) (s : σ) (is : List ι) (b : β) :
    (μ s).count b + (collect f step s is).count b =
      (collect g step s is).count b + (μ (exec step s is)).count b := by
  rw [← List.count_append, ← List.count_append]
  exact (collect_perm h s is).count_eq b

theorem count_collect_append [BEq β] (b : β) :
    (collect (fun s i => f s i ++ g s i) step s is).count b =
      (collect f step s is).count b + (collect g step s is).count b := by
  induction is generalizing s with
  | nil => rfl
  | cons i is ih => simp only [collect_cons, List.count_append, ih]; omega

end Collect

end Machine

/-! ## What a run says about its past

An input of a run with everything since it: the operator "since" on finite runs. It is read one
input at a time from the end of the run, as the state of a machine is.
-/

namespace Past

variable {ι : Type*} {P : List ι → ι → Prop} {Q : ι → List ι → ι → Prop}
  {run before earlier rest : List ι} {i j : ι}

/-- The input behind `before` has `P` where it came, and every later input has `Q` where it came. -/
def Since (P : List ι → ι → Prop) (Q : ι → List ι → ι → Prop) (run before : List ι) (i : ι) : Prop :=
  ∃ after, run = before ++ i :: after ∧ P before i ∧
    ∀ mid j rest, after = mid ++ j :: rest → Q i (before ++ i :: mid) j

@[simp] theorem since_nil : ¬ Since P Q [] before i := by
  rintro ⟨after, h, -⟩
  simp at h

theorem since_snoc : Since P Q (run ++ [j]) before i ↔
    (before = run ∧ i = j ∧ P run j) ∨ (Since P Q run before i ∧ Q i run j) := by
  constructor
  · rintro ⟨after, heq, hp, hq⟩
    rcases List.eq_nil_or_concat after with rfl | ⟨after, k, rfl⟩
    · obtain ⟨rfl, hij⟩ := List.append_inj' heq rfl
      cases hij
      exact Or.inl ⟨rfl, rfl, hp⟩
    · rw [List.concat_eq_append, ← List.cons_append, ← List.append_assoc] at heq
      obtain ⟨rfl, hjk⟩ := List.append_inj' heq rfl
      cases hjk
      refine Or.inr ⟨⟨after, rfl, hp, ?_⟩, hq after j [] (List.concat_eq_append ..)⟩
      rintro mid k rest rfl
      apply hq mid k (rest ++ [j])
      rw [List.concat_eq_append, List.append_assoc, List.cons_append]
  · rintro (⟨rfl, rfl, hp⟩ | ⟨⟨after, rfl, hp, hq⟩, hj⟩)
    · exact ⟨[], rfl, hp, by simp⟩
    · refine ⟨after ++ [j], by simp, hp, ?_⟩
      intro mid k rest heq
      rcases List.eq_nil_or_concat rest with rfl | ⟨rest, l, rfl⟩
      · obtain ⟨rfl, hjk⟩ := List.append_inj' heq rfl
        cases hjk
        exact hj
      · rw [List.concat_eq_append, ← List.cons_append, ← List.append_assoc] at heq
        exact hq mid k rest (List.append_inj' heq rfl).1

theorem Since.holds (h : Since P Q run before i) : P before i := h.choose_spec.2.1

theorem Since.length_lt (h : Since P Q run before i) : before.length < run.length := by
  obtain ⟨after, rfl, -, -⟩ := h
  rw [List.length_append, List.length_cons]
  omega

theorem Since.later (h : Since P Q run before i) (heq : run = earlier ++ j :: rest)
    (hlt : before.length < earlier.length) : Q i earlier j := by
  obtain ⟨after, rfl, -, hafter⟩ := h
  have hfirst : before ++ [i] <+: before ++ i :: after := ⟨after, by simp⟩
  have hprefix : before ++ [i] <+: earlier :=
    List.prefix_of_prefix_length_le hfirst ⟨j :: rest, heq.symm⟩ (by simpa using hlt)
  obtain ⟨mid, rfl⟩ := hprefix
  have hafter' : after = mid ++ j :: rest := by simpa using heq
  simpa using hafter mid j rest hafter'

theorem Since.last (h : Since P Q run before i) (hno : ∀ i l j, P l j → ¬ Q i l j)
    (heq : run = earlier ++ j :: rest) (hj : P earlier j) : earlier.length ≤ before.length := by
  by_contra hlt
  push Not at hlt
  exact hno i _ j hj (h.later heq hlt)

end Past

/-! ## The first offer is kept

A step may offer a value, which is taken where none is held, or clear the one
that is held. After a run the value held is that of the earliest offer that no
step has cleared since.
-/

namespace Machine

variable {σ ι β : Type*} {offers : σ → ι → β → Prop} {clears : σ → ι → Prop} {step : σ → ι → σ}
  {held : σ → Option β} {s : σ} {i : ι} {is before : List ι} {v : β}

/-- The input behind the first ones offers a value, and none behind it clears one. -/
def Offered (offers : σ → ι → β → Prop) (clears : σ → ι → Prop) (step : σ → ι → σ) (s : σ)
    (is before : List ι) (v : β) : Prop :=
  ∃ i after, is = before ++ i :: after ∧ offers (exec step s before) i v ∧
    Along (fun s i => ¬ clears s i) step (exec step s (before ++ [i])) after

def FirstOffered (offers : σ → ι → β → Prop) (clears : σ → ι → Prop) (step : σ → ι → σ) (s : σ)
    (is : List ι) (v : β) : Prop :=
  ∃ before, Offered offers clears step s is before v ∧
    ∀ earlier w, Offered offers clears step s is earlier w → before.length ≤ earlier.length

/-- A step clears what is held, or takes what is offered where nothing is held. -/
structure Latches (offers : σ → ι → β → Prop) (clears : σ → ι → Prop) (step : σ → ι → σ)
    (held : σ → Option β) (s : σ) (i : ι) : Prop where
  cleared : clears s i → held (step s i) = none ∧ ∀ v, ¬ offers s i v
  taken : ¬ clears s i → ∀ v, held (step s i) = some v ↔
    held s = some v ∨ held s = none ∧ offers s i v

theorem Offered.length_lt (h : Offered offers clears step s is before v) :
    before.length < is.length := by
  obtain ⟨i, after, rfl, -, -⟩ := h
  rw [List.length_append, List.length_cons]
  omega

theorem offered_snoc : Offered offers clears step s (is ++ [i]) before v ↔
    (Offered offers clears step s is before v ∧ ¬ clears (exec step s is) i) ∨
      before = is ∧ offers (exec step s is) i v := by
  constructor
  · rintro ⟨j, after, heq, hoff, hal⟩
    rcases List.eq_nil_or_concat after with rfl | ⟨after, k, rfl⟩
    · obtain ⟨rfl, hij⟩ := List.append_inj' heq rfl
      cases hij
      exact Or.inr ⟨rfl, hoff⟩
    · rw [List.concat_eq_append] at heq hal
      rw [← List.cons_append, ← List.append_assoc] at heq
      obtain ⟨rfl, hik⟩ := List.append_inj' heq rfl
      cases hik
      obtain ⟨hal, hk, -⟩ := along_append.mp hal
      refine Or.inl ⟨⟨j, after, rfl, hoff, hal⟩, ?_⟩
      rwa [← exec_append, List.append_assoc, List.singleton_append] at hk
  · rintro (⟨⟨j, after, rfl, hoff, hal⟩, hno⟩ | ⟨rfl, hoff⟩)
    · refine ⟨j, after ++ [i], by simp, hoff, along_append.mpr ⟨hal, ?_, trivial⟩⟩
      rwa [← exec_append, List.append_assoc, List.singleton_append]
    · exact ⟨i, [], rfl, hoff, trivial⟩

theorem Offered.first (h : Offered offers clears step s is before v) :
    ∃ w, FirstOffered offers clears step s is w := by
  classical
  have hex : ∃ n, ∃ before w, Offered offers clears step s is before w ∧ before.length = n :=
    ⟨_, before, v, h, rfl⟩
  obtain ⟨before', w, hw, hn⟩ := Nat.find_spec hex
  refine ⟨w, before', hw, fun earlier w' hw' => ?_⟩
  rw [hn]
  exact Nat.find_min' hex ⟨earlier, w', hw', rfl⟩

/-- After every run that starts with nothing held, the value of the earliest offer that has not
been cleared since is held. -/
theorem latched_iff (h0 : held s = none) (h : Along (Latches offers clears step held) step s is) :
    held (exec step s is) = some v ↔ FirstOffered offers clears step s is v := by
  induction is using List.reverseRecOn generalizing v with
  | nil =>
    constructor
    · intro hv
      rw [exec_nil, h0] at hv
      cases hv
    · rintro ⟨before, hb, -⟩
      exact absurd hb.length_lt (Nat.not_lt_zero _)
  | append_singleton is i ih =>
    obtain ⟨h, hi, -⟩ := along_append.mp h
    have ih := fun w => ih (v := w) h
    rw [exec_append, exec_cons, exec_nil]
    by_cases hc : clears (exec step s is) i
    · obtain ⟨hnone, hno⟩ := hi.cleared hc
      rw [hnone]
      constructor
      · intro hv
        cases hv
      · rintro ⟨before, hb, -⟩
        rcases offered_snoc.mp hb with ⟨-, hn⟩ | ⟨-, ho⟩
        · exact absurd hc hn
        · exact absurd ho (hno v)
    rw [hi.taken hc]
    constructor
    · rintro (hv | ⟨hnone, ho⟩)
      · obtain ⟨before, hb, hmin⟩ := (ih v).mp hv
        refine ⟨before, offered_snoc.mpr (Or.inl ⟨hb, hc⟩), fun earlier w he => ?_⟩
        rcases offered_snoc.mp he with ⟨he, -⟩ | ⟨rfl, -⟩
        · exact hmin earlier w he
        · exact hb.length_lt.le
      · refine ⟨is, offered_snoc.mpr (Or.inr ⟨rfl, ho⟩), fun earlier w he => ?_⟩
        rcases offered_snoc.mp he with ⟨he, -⟩ | ⟨rfl, -⟩
        · obtain ⟨w', hw'⟩ := he.first
          rw [(ih w').mpr hw'] at hnone
          cases hnone
        · exact le_rfl
    · rintro ⟨before, hb, hmin⟩
      rcases offered_snoc.mp hb with ⟨hb, -⟩ | ⟨rfl, ho⟩
      · left
        exact (ih v).mpr ⟨before, hb, fun earlier w he =>
          hmin earlier w (offered_snoc.mpr (Or.inl ⟨he, hc⟩))⟩
      · right
        refine ⟨?_, ho⟩
        by_contra hsome
        obtain ⟨w, hw⟩ := Option.ne_none_iff_exists'.mp hsome
        obtain ⟨earlier, he, -⟩ := (ih w).mp hw
        have hle := hmin earlier w (offered_snoc.mpr (Or.inl ⟨he, hc⟩))
        exact absurd he.length_lt (not_lt.mpr hle)

end Machine
