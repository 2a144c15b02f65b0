import Mathlib

/-! # Binary search

The search of a list by comparing its elements, as slices have it: the window
is halved until one element is left. Where the comparisons ascend, it finds an
element exactly when there is one, and a partition point is where the elements
that meet a condition end.
-/

namespace Search

/-- Halves the window of `size` elements from `base` until one is left; `up i` says that what is
looked for is at `i` or above. -/
def narrow (up : ℕ → Bool) : ℕ → ℕ → ℕ → ℕ
  | 0, _, base => base
  | fuel + 1, size, base =>
    if 1 < size then
      narrow up fuel (size - size / 2) (if up (base + size / 2) then base + size / 2 else base)
    else base

theorem narrow_spec {up : ℕ → Bool} {n : ℕ} (hup : ∀ i j, i ≤ j → j < n → up j = true → up i = true)
    (fuel : ℕ) {size base : ℕ} (hf : size ≤ fuel) (hs : 0 < size) (hn : base + size ≤ n)
    (hb : base = 0 ∨ up base = true) (ha : ∀ i, base + size ≤ i → i < n → up i = false) :
    let r := narrow up fuel size base
    r < n ∧ (r = 0 ∨ up r = true) ∧ ∀ i, r < i → i < n → up i = false := by
  induction fuel generalizing size base with
  | zero => omega
  | succ fuel ih =>
    unfold narrow
    by_cases h1 : 1 < size
    · rw [if_pos h1]
      by_cases hm : up (base + size / 2) = true
      · rw [if_pos hm]
        exact ih (by omega) (by omega) (by omega) (.inr hm) fun i hi => ha i (by omega)
      · rw [if_neg hm]
        apply ih (by omega) (by omega) (by omega) hb
        intro i hi hin
        by_contra hc
        exact hm (hup _ i (by omega) hin (Bool.not_eq_false _ ▸ hc))
    · rw [if_neg h1]
      exact ⟨by omega, hb, fun i hi => ha i (by omega)⟩

variable {α κ : Type*}

/-- Where a comparison says equal, or where such an element would go. -/
def binarySearchBy (cmp : α → Ordering) (l : List α) : Except ℕ ℕ :=
  let base := narrow (fun i => l[i]?.any fun a => cmp a != .gt) l.length l.length 0
  match l[base]?.map cmp with
  | none => .error 0
  | some .eq => .ok base
  | some .lt => .error (base + 1)
  | some .gt => .error base

def partitionPoint (p : α → Bool) (l : List α) : ℕ :=
  match binarySearchBy (fun a => if p a then .lt else .gt) l with
  | .ok i => i
  | .error i => i

def lookup [LinearOrder κ] (key : α → κ) (k : κ) (l : List α) : Option α :=
  match binarySearchBy (fun a => compare (key a) k) l with
  | .ok i => l[i]?
  | .error _ => none

section

variable {cmp : α → Ordering} {p : α → Bool} {l : List α} {i : ℕ}

theorem base_spec (h : l.Pairwise fun a b => cmp a = .gt → cmp b = .gt) (hl : l ≠ []) :
    let r := narrow (fun i => l[i]?.any fun a => cmp a != .gt) l.length l.length 0
    r < l.length ∧ (r = 0 ∨ ∀ a ∈ l[r]?, cmp a ≠ .gt) ∧
      ∀ i, r < i → ∀ a ∈ l[i]?, cmp a = .gt := by
  have hup : ∀ i j, i ≤ j → j < l.length → (l[j]?.any fun a => cmp a != .gt) = true →
      (l[i]?.any fun a => cmp a != .gt) = true := by
    intro i j hij hj hc
    have hi : i < l.length := by omega
    rw [List.getElem?_eq_getElem hj, Option.any_some, bne_iff_ne] at hc
    rw [List.getElem?_eq_getElem hi, Option.any_some, bne_iff_ne]
    intro hgt
    rcases Nat.lt_or_eq_of_le hij with hlt | rfl
    · exact hc (List.pairwise_iff_getElem.mp h i j hi hj hlt hgt)
    · exact hc hgt
  have hlen : 0 < l.length := List.length_pos_iff.mpr hl
  obtain ⟨hr, hbase, habove⟩ := narrow_spec hup l.length le_rfl hlen (by omega) (.inl rfl)
    fun i hi hin => by omega
  refine ⟨hr, hbase.imp_right fun hb a ha => ?_, fun i hi a ha => ?_⟩
  · rw [ha, Option.any_some, bne_iff_ne] at hb
    exact hb
  · have hin : i < l.length := by
      by_contra hc
      rw [List.getElem?_eq_none (by omega)] at ha
      cases ha
    have := habove i hi hin
    rw [ha, Option.any_some] at this
    simpa using this

theorem length_takeWhile_eq (hi : i ≤ l.length) (hlow : ∀ j < i, ∀ a ∈ l[j]?, p a = true)
    (hhigh : ∀ a ∈ l[i]?, p a = false) : (l.takeWhile p).length = i := by
  induction l generalizing i with
  | nil => exact (Nat.le_zero.mp hi).symm
  | cons a l ih =>
    cases i with
    | zero =>
      have ha : p a = false := hhigh a rfl
      simp [ha]
    | succ i =>
      have ha : p a = true := hlow 0 (by omega) a rfl
      rw [List.takeWhile_cons_of_pos ha, List.length_cons, ih (by simpa using hi)
        (fun j hj b hb => hlow (j + 1) (by omega) b (by simpa using hb))
        fun b hb => hhigh b (by simpa using hb)]

theorem partitionPoint_eq (h : l.Pairwise fun a b => p b = true → p a = true) :
    partitionPoint p l = (l.takeWhile p).length := by
  symm
  have hcmp : l.Pairwise fun a b => (if p a then Ordering.lt else .gt) = .gt →
      (if p b then Ordering.lt else .gt) = .gt := by
    refine h.imp fun {a b} hab hc => ?_
    by_cases hb : p b = true
    · rw [if_pos (hab hb)] at hc
      cases hc
    · rw [if_neg hb]
  rcases eq_or_ne l [] with rfl | hl
  · rfl
  · obtain ⟨hr, hbase, habove⟩ := base_spec hcmp hl
    unfold partitionPoint binarySearchBy
    dsimp only
    generalize narrow _ l.length l.length 0 = r at hr hbase habove ⊢
    have hget : l[r]? = some l[r] := List.getElem?_eq_getElem hr
    have hup (j : ℕ) (hj : r < j) (a : α) (ha : a ∈ l[j]?) : p a = false := by
      have := habove j hj a ha
      by_contra hc
      rw [if_pos (Bool.not_eq_false _ ▸ hc)] at this
      cases this
    rw [hget, Option.map_some]
    by_cases hp : p l[r] = true
    · rw [if_pos hp]
      change (l.takeWhile p).length = r + 1
      apply length_takeWhile_eq (by omega)
      · intro j hj a ha
        rcases Nat.lt_or_eq_of_le (Nat.lt_succ_iff.mp hj) with hlt | rfl
        · have hjn : j < l.length := by omega
          rw [List.getElem?_eq_getElem hjn, Option.mem_some] at ha
          rw [← ha]
          exact List.pairwise_iff_getElem.mp h j r hjn hr hlt hp
        · rw [hget, Option.mem_some] at ha
          rwa [← ha]
      · exact hup (r + 1) (by omega)
    · rw [if_neg hp]
      have hzero : r = 0 := by
        refine hbase.resolve_right fun hc => hc l[r] hget ?_
        rw [if_neg hp]
      subst hzero
      change (l.takeWhile p).length = 0
      apply length_takeWhile_eq (Nat.zero_le _) (by omega)
      intro a ha
      rw [hget, Option.mem_some] at ha
      rw [← ha]
      exact Bool.eq_false_iff.mpr hp

theorem takeWhile_eq_filter (h : l.Pairwise fun a b => p b = true → p a = true) :
    l.takeWhile p = l.filter p ∧ l.dropWhile p = l.filter fun a => !p a := by
  induction l with
  | nil => exact ⟨rfl, rfl⟩
  | cons a l ih =>
    obtain ⟨ha, hl⟩ := List.pairwise_cons.mp h
    by_cases hp : p a = true
    · simp [hp, ih hl]
    · have hno : ∀ b ∈ l, p b = false := fun b hb => by
        by_contra hc
        exact hp (ha b hb (Bool.not_eq_false _ ▸ hc))
      have hf : l.filter p = [] := List.filter_eq_nil_iff.mpr fun b hb => by simp [hno b hb]
      have ht : l.filter (fun a => !p a) = l :=
        List.filter_eq_self.mpr fun b hb => by simp [hno b hb]
      simp [hp, hf, ht]

theorem take_partitionPoint (h : l.Pairwise fun a b => p b = true → p a = true) :
    l.take (partitionPoint p l) = l.filter p := by
  rw [partitionPoint_eq h, ← (takeWhile_eq_filter h).1]
  exact (List.prefix_iff_eq_take.mp (List.takeWhile_prefix p)).symm

theorem drop_partitionPoint (h : l.Pairwise fun a b => p b = true → p a = true) :
    l.drop (partitionPoint p l) = l.filter fun a => !p a := by
  rw [partitionPoint_eq h, ← (takeWhile_eq_filter h).2]
  have hl : l.takeWhile p ++ l.dropWhile p = l := List.takeWhile_append_dropWhile
  have hd := congrArg (List.drop (l.takeWhile p).length) hl
  rw [List.drop_left] at hd
  exact hd.symm

theorem partitionPoint_le : partitionPoint p l ≤ l.length := by
  unfold partitionPoint binarySearchBy
  dsimp only
  generalize narrow _ l.length l.length 0 = r
  rcases Nat.lt_or_ge r l.length with hr | hr
  · rw [List.getElem?_eq_getElem hr, Option.map_some]
    by_cases hp : p l[r] = true
    · rw [if_pos hp]
      exact hr
    · rw [if_neg hp]
      exact hr.le
  · rw [List.getElem?_eq_none hr]
    exact Nat.zero_le _

end

section Keys

variable [LinearOrder κ] {key : α → κ} {k : κ} {l : List α} {a : α}

theorem lookup_eq_some (h : l.Pairwise fun a b => key a < key b) :
    lookup key k l = some a ↔ a ∈ l ∧ key a = k := by
  have hcmp : l.Pairwise fun a b => compare (key a) k = .gt → compare (key b) k = .gt := by
    refine h.imp fun {a b} hab hc => ?_
    rw [compare_gt_iff_gt] at hc ⊢
    exact hc.trans hab
  constructor
  · intro hs
    unfold lookup binarySearchBy at hs
    dsimp only at hs
    generalize narrow _ l.length l.length 0 = r at hs
    cases hget : l[r]? with
    | none =>
      rw [hget] at hs
      cases hs
    | some b =>
      rw [hget, Option.map_some] at hs
      cases hc : compare (key b) k with
      | eq =>
        rw [hc] at hs
        dsimp only at hs
        rw [hget, Option.some.injEq] at hs
        subst hs
        exact ⟨List.mem_of_getElem? hget, compare_eq_iff_eq.mp hc⟩
      | lt =>
        rw [hc] at hs
        cases hs
      | gt =>
        rw [hc] at hs
        cases hs
  · rintro ⟨ha, rfl⟩
    obtain ⟨i, hi, rfl⟩ := List.mem_iff_getElem.mp ha
    obtain ⟨hr, hbase, habove⟩ := base_spec hcmp (List.ne_nil_of_mem ha)
    unfold lookup binarySearchBy
    dsimp only
    generalize narrow _ l.length l.length 0 = r at hr hbase habove ⊢
    have hget : l[r]? = some l[r] := List.getElem?_eq_getElem hr
    have hri : r = i := by
      rcases Nat.lt_trichotomy r i with hlt | heq | hgt
      · have := habove i hlt l[i] (List.getElem?_eq_getElem hi)
        rw [compare_gt_iff_gt] at this
        exact absurd this (lt_irrefl _)
      · exact heq
      · -- the element at `r` would be greater
        have hc := hbase.resolve_left (by omega) l[r] hget
        have hlt := List.pairwise_iff_getElem.mp h i r hi hr hgt
        exact absurd (compare_gt_iff_gt.mpr hlt) hc
    subst hri
    rw [hget, Option.map_some, compare_eq_iff_eq.mpr rfl]
    exact hget

theorem lookup_eq_none (h : l.Pairwise fun a b => key a < key b) :
    lookup key k l = none ↔ ∀ a ∈ l, key a ≠ k := by
  constructor
  · intro hn a ha hk
    rw [(lookup_eq_some h).mpr ⟨ha, hk⟩] at hn
    cases hn
  · intro hn
    rw [Option.eq_none_iff_forall_not_mem]
    intro a ha
    exact hn a ((lookup_eq_some h).mp ha).1 ((lookup_eq_some h).mp ha).2

end Keys

end Search
