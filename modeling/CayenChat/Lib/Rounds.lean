import Mathlib

/-! # Going round a list

Something that goes round a list without repetition looks at the items behind the current one, the
current one last, and goes to the first that counts. Where the current item is decides the order it
looks in, so the items that count are visited in turn.
-/

namespace Round

open List

variable {α : Type*} {l r r' : List α} {x y : α} {p : α → Bool}

/-! ## Rotations of a list without repetition -/

theorem eq_of_head (hr : r ~r r') (hn : r.Nodup) (hx : r.head? = some x) (hx' : r'.head? = some x) :
    r = r' := by
  obtain ⟨n, hle, rfl⟩ := isRotated_iff_mod.mp hr
  rcases hle.lt_or_eq with hlt | rfl
  · rw [head?_rotate hlt] at hx'
    rw [head?_eq_getElem?] at hx
    have hzero : 0 < r.length := by omega
    rw [getElem?_eq_getElem hlt, Option.some.injEq] at hx'
    rw [getElem?_eq_getElem hzero, Option.some.injEq] at hx
    have hn : 0 = n := (hn.getElem_inj_iff).mp (hx.trans hx'.symm)
    rw [← hn, rotate_zero]
  · rw [rotate_length]

theorem eq_of_getLast (hr : r ~r r') (hn : r.Nodup) (hx : r.getLast? = some x)
    (hx' : r'.getLast? = some x) : r = r' := by
  apply reverse_injective
  apply eq_of_head hr.reverse (nodup_reverse.mpr hn) (x := x)
  · rwa [head?_reverse]
  · rwa [head?_reverse]

theorem isRotated_filter (h : r ~r r') (p : α → Bool) : r.filter p ~r r'.filter p := by
  obtain ⟨n, hle, rfl⟩ := isRotated_iff_mod.mp h
  rw [rotate_eq_drop_append_take hle, filter_append]
  have hsplit : r.filter p = (r.take n).filter p ++ (r.drop n).filter p := by
    rw [← filter_append, take_append_drop]
  rw [hsplit]
  exact isRotated_append

theorem next_round (hn : r.Nodup) (hr : r ~r r') (hy : r.find? p = some y)
    (hlast : r'.getLast? = some y) :
    ∃ a b, r = a ++ y :: b ∧ (∀ z ∈ a, p z = false) ∧ r' = b ++ a ++ [y] := by
  obtain ⟨-, a, b, rfl, ha⟩ := find?_eq_some_iff_append.mp hy
  refine ⟨a, b, rfl, fun z hz => by simpa using ha z hz, ?_⟩
  apply eq_of_getLast (x := y) _ (hr.nodup_iff.mp hn) hlast
  · simp
  · apply hr.symm.trans
    have : a ++ [y] ++ b ~r b ++ (a ++ [y]) := isRotated_append
    simpa using this

theorem filter_next (hn : r.Nodup) (hr : r ~r r') (hy : r.find? p = some y)
    (hlast : r'.getLast? = some y) :
    ∃ rest, r.filter p = y :: rest ∧ r'.filter p = rest ++ [y] := by
  have hp := find?_some hy
  obtain ⟨a, b, rfl, ha, rfl⟩ := next_round hn hr hy hlast
  have hnone : a.filter p = [] := filter_eq_nil_iff.mpr fun z hz => by simp [ha z hz]
  exact ⟨b.filter p, by simp [hnone, hp], by simp [hnone, hp]⟩

theorem filter_next_erased {q : α → Bool} (hn : r.Nodup) (hr : r ~r r') (hy : r.find? p = some y)
    (hlast : r'.getLast? = some y) (hq : ∀ z, q z = true ↔ p z = true ∧ z ≠ y) :
    r.filter p = y :: r'.filter q := by
  have hp := find?_some hy
  obtain ⟨a, b, rfl, ha, rfl⟩ := next_round hn hr hy hlast
  have hnone : a.filter p = [] := filter_eq_nil_iff.mpr fun z hz => by simp [ha z hz]
  have hnone' : a.filter q = [] := filter_eq_nil_iff.mpr fun z hz => by simp [hq, ha z hz]
  have hy' : q y = false := by
    by_contra h
    exact ((hq y).mp (by simpa using h)).2 rfl
  have hb : b.filter q = b.filter p := by
    apply filter_congr
    intro z hz
    have hne : z ≠ y := by
      rintro rfl
      have hnodup := (nodup_append.mp hn).2.1
      exact (nodup_cons.mp hnodup).1 hz
    rw [Bool.eq_iff_iff, hq]
    exact and_iff_left hne
  simp [hnone, hnone', hp, hy', hb]

theorem find?_back (hn : r.Nodup) (hx : r.getLast? = some x) (hp : p x = true)
    (hy : r.find? p = some y) (hr : r.reverse ~r r') (hlast : r'.getLast? = some y) :
    r'.find? p = some x := by
  obtain ⟨-, a, b, rfl, ha⟩ := find?_eq_some_iff_append.mp hy
  have hr' : a.reverse ++ (b.reverse ++ [y]) = r' := by
    apply eq_of_getLast (x := y) _ _ _ hlast
    · refine IsRotated.trans ?_ hr
      have : a.reverse ++ (b.reverse ++ [y]) ~r b.reverse ++ [y] ++ a.reverse := isRotated_append
      simpa using this
    · have := nodup_reverse.mpr hn
      rw [reverse_append, reverse_cons, nodup_append_comm] at this
      exact this
    · simp
  have hnone : a.reverse.find? p = none := by
    rw [find?_eq_none]
    intro z hz
    simpa using ha z (mem_reverse.mp hz)
  rw [← hr', find?_append, hnone, Option.none_or]
  rcases eq_nil_or_concat b with rfl | ⟨b, z, rfl⟩
  · have hxy : y = x := by simpa using hx
    simp [hxy, hp]
  · have hsplit : a ++ y :: b.concat z = (a ++ y :: b) ++ [z] := by simp
    rw [hsplit, getLast?_concat, Option.some.injEq] at hx
    simp [hx, hp]

/-! ## Runs -/

variable {σ β : Type*}

def visits (step : σ → σ) (seen : σ → β) : ℕ → σ → List β
  | 0, _ => []
  | n + 1, s => seen (step s) :: visits step seen n (step s)

@[simp] theorem length_visits (step : σ → σ) (seen : σ → β) (n : ℕ) (s : σ) :
    (visits step seen n s).length = n := by
  induction n generalizing s with
  | zero => rfl
  | succ n ih => rw [visits, length_cons, ih]

variable (step : σ → σ) (seen : σ → β) (round : σ → List β) (inv : σ → Prop) {s : σ}

theorem visits_round (hinv : ∀ s, inv s → inv (step s))
    (hstep : ∀ s y rest, inv s → round s = y :: rest →
      seen (step s) = y ∧ round (step s) = rest ++ [y]) (hs : inv s) :
    visits step seen (round s).length s = round s := by
  have htake : ∀ n s, inv s → n ≤ (round s).length → visits step seen n s = (round s).take n := by
    intro n
    induction n with
    | zero =>
      intro s _ _
      rfl
    | succ n ih =>
      intro s hs hn
      cases hround : round s with
      | nil => simp [hround] at hn
      | cons y rest =>
        obtain ⟨hseen, hnext⟩ := hstep s y rest hs hround
        have hle : n ≤ rest.length := by simpa [hround] using hn
        rw [visits, hseen, ih _ (hinv s hs) (by rw [hnext]; simp; omega), hnext, take_succ_cons,
          take_append_of_le_length hle]
  rw [htake _ s hs le_rfl, take_length]

theorem visits_consumed (hinv : ∀ s, inv s → inv (step s))
    (hstep : ∀ s y rest, inv s → round s = y :: rest → seen (step s) = y ∧ round (step s) = rest)
    (hs : inv s) : visits step seen (round s).length s = round s ∧
      round (step^[(round s).length] s) = [] := by
  induction hround : round s generalizing s with
  | nil => exact ⟨rfl, hround⟩
  | cons y rest ih =>
    obtain ⟨hseen, hnext⟩ := hstep s y rest hs hround
    obtain ⟨hvisits, hend⟩ := ih (hinv s hs) hnext
    exact ⟨by rw [length_cons, visits, hseen, hvisits], by rwa [length_cons, Function.iterate_succ_apply]⟩

end Round
