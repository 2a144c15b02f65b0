import Mathlib

/-! # Matching a pattern without going back

How much of a pattern has been read at the end of a text, and how that changes with one more
letter, by a table of what is left when the next letter differs. Reads outside of the pattern
or the table fail.
-/

namespace KnuthMorrisPratt

variable {α : Type*} {pattern text : List α} {fallback : List ℕ} {differs : ℕ → Option Bool}
  {c : α} {j k m n fuel : ℕ}

def Matched (pattern text : List α) (k : ℕ) : Prop :=
  k ≤ pattern.length ∧ pattern.take k <:+ text

/-- No more of the pattern is at the end of the text. -/
structure Longest (pattern text : List α) (k : ℕ) : Prop where
  matched : Matched pattern text k
  le : ∀ j, Matched pattern text j → j ≤ k

/-- For as many starts of the pattern as given, the table has what is left of each when its first
letter is taken off. -/
def Table (pattern : List α) (fallback : List ℕ) (n : ℕ) : Prop :=
  ∀ k, 0 < k → k ≤ n → ∃ b, fallback[k - 1]? = some b ∧ Longest pattern (pattern.take k).tail b

/-- Falls back as long as the pattern goes on in another way. -/
def retreat (differs : ℕ → Option Bool) (fallback : List ℕ) : ℕ → ℕ → Option ℕ
  | 0, _ => none
  | fuel + 1, matched =>
    if matched = 0 then some 0
    else do
      if ← differs matched then retreat differs fallback fuel (← fallback[matched - 1]?)
      else some matched

def advance [DecidableEq α] (pattern : List α) (differs : ℕ → Option Bool) (fallback : List ℕ)
    (c : α) (matched : ℕ) : Option ℕ :=
  (retreat differs fallback (matched + 1) matched).bind fun matched =>
    pattern[matched]?.map fun next => if next = c then matched + 1 else matched

theorem Matched.le_length (h : Matched pattern text k) : k ≤ text.length := by
  have := h.2.length_le
  rw [List.length_take, Nat.min_eq_left h.1] at this
  exact this

theorem matched_zero : Matched pattern text 0 := ⟨Nat.zero_le _, by simp⟩

theorem longest_nil : Longest pattern [] 0 :=
  ⟨matched_zero, fun _ h => h.le_length⟩

theorem Longest.eq_length (h : Longest pattern text k) : k = pattern.length ↔ pattern <:+ text := by
  constructor
  · rintro rfl
    simpa using h.matched.2
  · intro hs
    exact Nat.le_antisymm h.matched.1 (h.le _ ⟨Nat.le_refl _, by simpa using hs⟩)

theorem matched_tail_iff (hk : Matched pattern text k) (hj : j < k) :
    Matched pattern text j ↔ Matched pattern (pattern.take k).tail j := by
  have hlen : (pattern.take k).tail.length = k - 1 := by
    rw [List.length_tail, List.length_take, Nat.min_eq_left hk.1]
  have htail : (pattern.take k).tail <:+ pattern.take k := List.tail_suffix _
  constructor
  · intro h
    refine ⟨h.1, List.suffix_of_suffix_length_le h.2 (htail.trans hk.2) ?_⟩
    rw [List.length_take, Nat.min_eq_left h.1, hlen]
    omega
  · intro h
    exact ⟨h.1, h.2.trans (htail.trans hk.2)⟩

theorem matched_concat : Matched pattern (text ++ [c]) (k + 1) ↔
    Matched pattern text k ∧ pattern[k]? = some c := by
  constructor
  · rintro ⟨hle, hs⟩
    have hk : k < pattern.length := by omega
    rw [List.take_succ_eq_append_getElem hk] at hs
    obtain ⟨t, ht⟩ := hs
    rw [← List.append_assoc] at ht
    obtain ⟨ht, hc⟩ := List.append_inj' ht rfl
    exact ⟨⟨hk.le, t, ht⟩, by rw [List.getElem?_eq_getElem hk, List.singleton_inj.mp hc]⟩
  · rintro ⟨⟨hle, t, rfl⟩, hc⟩
    obtain ⟨hk, rfl⟩ := List.getElem?_eq_some_iff.mp hc
    refine ⟨hk, t, ?_⟩
    rw [List.take_succ_eq_append_getElem hk, List.append_assoc]

theorem retreat_spec (htable : Table pattern fallback n) (hn : m ≤ n) (hm : Matched pattern text m)
    (hdiffers : ∀ k, 0 < k → k ≤ m →
      ∃ b, differs k = some b ∧ (b = true ↔ pattern[k]? ≠ some c))
    (hfuel : m < fuel) :
    ∃ r, retreat differs fallback fuel m = some r ∧ r ≤ m ∧ Matched pattern text r ∧
      (r = 0 ∨ pattern[r]? = some c) ∧
      ∀ j, r < j → j ≤ m → Matched pattern text j → pattern[j]? ≠ some c := by
  induction fuel generalizing m with
  | zero => omega
  | succ fuel ih =>
    unfold retreat
    split
    · next hzero => exact ⟨0, rfl, Nat.zero_le _, matched_zero, .inl rfl, fun j hj hle => by omega⟩
    · next hpos =>
      obtain ⟨d, hd, hiff⟩ := hdiffers m (by omega) le_rfl
      rw [hd]
      cases d with
      | false =>
        have hgo : pattern[m]? = some c := by
          by_contra hne
          exact absurd (hiff.mpr hne) (by simp)
        exact ⟨m, rfl, le_rfl, hm, .inr hgo, fun j hj hle => by omega⟩
      | true =>
        obtain ⟨b, hb, hlong⟩ := htable m (by omega) hn
        have hblt : b < m := by
          have := hlong.matched.le_length
          rw [List.length_tail, List.length_take, Nat.min_eq_left hm.1] at this
          omega
        have hbm : Matched pattern text b := (matched_tail_iff hm hblt).mpr hlong.matched
        obtain ⟨r, hr, hrb, hrm, hrc, hrest⟩ := ih (by omega) hbm
          (fun k hk hkb => hdiffers k hk (by omega)) (by omega)
        refine ⟨r, ?_, by omega, hrm, hrc, fun j hj hjm hjt => ?_⟩
        · simp only [Option.bind_eq_bind, Option.bind_some, if_pos, hb]
          exact hr
        · -- Between what is left and what was read there is no match.
          rcases Nat.lt_or_eq_of_le hjm with hlt | rfl
          · have := hlong.le j ((matched_tail_iff hm hlt).mp hjt)
            exact hrest j hj this hjt
          · exact hiff.mp rfl

theorem advance_spec [DecidableEq α] (hne : pattern ≠ []) (htable : Table pattern fallback n)
    (hn : m ≤ n) (hm : Longest pattern text m)
    (hdiffers : ∀ k, 0 < k → k ≤ m →
      ∃ b, differs k = some b ∧ (b = true ↔ pattern[k]? ≠ some c)) :
    ∃ r, advance pattern differs fallback c m = some r ∧ Longest pattern (text ++ [c]) r := by
  obtain ⟨r, hr, hrm, hmatched, hzero, hrest⟩ :=
    retreat_spec htable hn hm.matched hdiffers (Nat.lt_succ_self m)
  have hlt : r < pattern.length := by
    rcases hzero with rfl | hc
    · exact List.length_pos_iff.mpr hne
    · exact (List.getElem?_eq_some_iff.mp hc).1
  unfold advance
  rw [hr, Option.bind_some, List.getElem?_eq_getElem hlt, Option.map_some]
  refine ⟨_, rfl, ?_⟩
  split
  · next hc =>
    have hget : pattern[r]? = some c := by rw [List.getElem?_eq_getElem hlt, hc]
    refine ⟨matched_concat.mpr ⟨hmatched, hget⟩, fun j hj => ?_⟩
    cases j with
    | zero => omega
    | succ j =>
      obtain ⟨hj, hjc⟩ := matched_concat.mp hj
      by_contra hlt
      exact hrest j (by omega) (hm.le j hj) hj hjc
  · next hc =>
    have hget : pattern[r]? ≠ some c := by
      rw [List.getElem?_eq_getElem hlt]
      simpa using hc
    obtain rfl : r = 0 := hzero.resolve_right hget
    refine ⟨matched_zero, fun j hj => ?_⟩
    cases j with
    | zero => omega
    | succ j =>
      obtain ⟨hj, hjc⟩ := matched_concat.mp hj
      rcases Nat.eq_zero_or_pos j with rfl | hpos
      · exact absurd hjc hget
      · exact absurd hjc (hrest j hpos (hm.le j hj) hj)

theorem tail_take_succ (hk : 0 < k) (hget : pattern[k]? = some c) :
    (pattern.take (k + 1)).tail = (pattern.take k).tail ++ [c] := by
  obtain ⟨hlt, rfl⟩ := List.getElem?_eq_some_iff.mp hget
  rw [List.take_succ_eq_append_getElem hlt, List.tail_append_of_ne_nil]
  rw [← List.length_pos_iff, List.length_take]
  omega

theorem Table.set (h : Table pattern fallback n) (hn : n < fallback.length)
    (hm : Longest pattern (pattern.take (n + 1)).tail m) :
    Table pattern (fallback.set n m) (n + 1) := by
  intro k hk hkn
  rcases Nat.lt_or_eq_of_le hkn with hlt | rfl
  · obtain ⟨b, hb, hlong⟩ := h k hk (by omega)
    exact ⟨b, by rw [List.getElem?_set_ne (by omega), hb], hlong⟩
  · exact ⟨m, by simp [hn], hm⟩

end KnuthMorrisPratt
