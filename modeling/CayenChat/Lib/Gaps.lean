import CayenChat.Lib.Ranges

/-! # The gaps between ranges

The stretches of positions that a list of ranges leaves free, found in one walk over ranges that
come apart and in order.
-/

namespace Utf8

namespace Range

/-- The free stretches between a position and an end, where the ranges come in order. -/
def gaps (len : ℕ) : List Range → ℕ → List Range
  | [], position => if position < len then [⟨position, len⟩] else []
  | r :: rs, position =>
    (if position < r.start then [⟨position, r.start⟩] else []) ++ gaps len rs r.stop

/-- Positions that are free, and reach as far as they can between a position and an end. -/
structure Gap (len : ℕ) (rs : List Range) (position : ℕ) (s : Range) : Prop where
  lt : s.start < s.stop
  le : s.stop ≤ len
  free : ∀ n, s.Contains n → ¬ Covers rs n
  first : s.start = position ∨ (position < s.start ∧ Covers rs (s.start - 1))
  last : s.stop = len ∨ Covers rs s.stop

variable {r s : Range} {rs : List Range} {n len position : ℕ}

theorem covers_cons : Covers (r :: rs) n ↔ r.Contains n ∨ Covers rs n := by
  simp [Covers]

theorem Gap.start_ge (h : Gap len rs position s) : position ≤ s.start := by
  rcases h.first with h | ⟨h, -⟩ <;> omega

theorem gap_cons (hlt : r.start < r.stop) (hpos : position ≤ r.start) (hlen : r.stop ≤ len)
    (hrs : ∀ n, Covers rs n → r.stop < n) :
    Gap len (r :: rs) position s ↔
      (position < r.start ∧ s = ⟨position, r.start⟩) ∨ Gap len rs r.stop s := by
  have hstart : Covers (r :: rs) r.start := covers_cons.mpr (Or.inl ⟨le_rfl, hlt⟩)
  have hge : ∀ n, Covers (r :: rs) n → r.start ≤ n := by
    intro n hn
    rcases covers_cons.mp hn with hn | hn
    · exact hn.1
    · have := hrs n hn
      omega
  constructor
  · intro h
    have hslt := h.lt
    by_cases hbefore : s.start < r.start
    · left
      have hstop : s.stop ≤ r.start := by
        by_contra hgt
        exact h.free r.start ⟨hbefore.le, by omega⟩ hstart
      have hfirst : s.start = position := by
        refine h.first.resolve_right ?_
        rintro ⟨-, hcov⟩
        have := hge _ hcov
        omega
      have hlast : r.start ≤ s.stop := by
        rcases h.last with hlast | hcov
        · omega
        · exact hge _ hcov
      obtain ⟨start, stop⟩ := s
      simp only at hfirst hstop hlast hbefore
      obtain rfl : stop = r.start := by omega
      exact ⟨by omega, by rw [hfirst]⟩
    · right
      have hbehind : r.stop ≤ s.start := by
        by_contra hin
        exact h.free s.start ⟨le_rfl, hslt⟩ (covers_cons.mpr (Or.inl ⟨by omega, by omega⟩))
      refine ⟨hslt, h.le, fun n hn hcov => h.free n hn (covers_cons.mpr (Or.inr hcov)), ?_, ?_⟩
      · rcases h.first with hfirst | ⟨-, hcov⟩
        · omega
        · rcases covers_cons.mp hcov with hin | hcov
          · have := hin.2
            omega
          · have := hrs _ hcov
            exact Or.inr ⟨by omega, hcov⟩
      · apply h.last.imp_right
        intro hcov
        refine (covers_cons.mp hcov).resolve_left ?_
        intro hin
        have := hin.2
        omega
  · rintro (⟨hbefore, rfl⟩ | h)
    · refine ⟨hbefore, by dsimp only; omega, ?_, Or.inl rfl, Or.inr hstart⟩
      rintro n ⟨-, hn⟩ hcov
      have := hge n hcov
      dsimp only at hn
      omega
    · have hge' := h.start_ge
      refine ⟨h.lt, h.le, ?_, ?_, h.last.imp_right fun hcov => covers_cons.mpr (Or.inr hcov)⟩
      · intro n hn hcov
        rcases covers_cons.mp hcov with hin | hcov
        · have := hin.2
          have := hn.1
          omega
        · exact h.free n hn hcov
      · right
        refine ⟨by omega, ?_⟩
        rcases h.first with hfirst | ⟨-, hcov⟩
        · exact covers_cons.mpr (Or.inl ⟨by omega, by omega⟩)
        · exact covers_cons.mpr (Or.inr hcov)

theorem gap_nil : Gap len [] position s ↔ position < len ∧ s = ⟨position, len⟩ := by
  have hno : ∀ n, ¬ Covers [] n := by simp [Covers]
  constructor
  · intro h
    have hfirst := h.first.resolve_right fun hcov => hno _ hcov.2
    have hlast := h.last.resolve_right (hno _)
    have hlt := h.lt
    obtain ⟨start, stop⟩ := s
    simp only at hfirst hlast hlt
    rw [hfirst, hlast] at hlt ⊢
    exact ⟨hlt, rfl⟩
  · rintro ⟨hlt, rfl⟩
    exact ⟨hlt, le_rfl, fun n _ => hno n, Or.inl rfl, Or.inl rfl⟩

theorem mem_gaps (hrs : Separate rs) (hpos : ∀ r ∈ rs, position ≤ r.start)
    (hlen : ∀ r ∈ rs, r.stop ≤ len) : s ∈ gaps len rs position ↔ Gap len rs position s := by
  induction rs generalizing position with
  | nil =>
    rw [gaps, gap_nil]
    split_ifs with h <;> simp [h]
  | cons r rs ih =>
    obtain ⟨hgap, hgaps⟩ := List.pairwise_cons.mp hrs.gap
    have hrest : Separate rs := ⟨fun t ht => hrs.lt t (List.mem_cons_of_mem _ ht), hgaps⟩
    have hcov : ∀ n, Covers rs n → r.stop < n := by
      rintro n ⟨t, ht, hn⟩
      exact (hgap t ht).trans_le hn.1
    rw [gap_cons (hrs.lt r List.mem_cons_self) (hpos r List.mem_cons_self)
      (hlen r List.mem_cons_self) hcov,
      ← ih hrest (fun t ht => (hgap t ht).le) fun t ht => hlen t (List.mem_cons_of_mem _ ht), gaps]
    split_ifs with h <;> simp [h]

theorem start_le_of_mem_gaps (hrs : Separate rs) (hpos : ∀ r ∈ rs, position ≤ r.start)
    (hlen : ∀ r ∈ rs, r.stop ≤ len) (hs : s ∈ gaps len rs position) : position ≤ s.start :=
  ((mem_gaps hrs hpos hlen).mp hs).start_ge

theorem gaps_ascending (hrs : Separate rs) (hpos : ∀ r ∈ rs, position ≤ r.start)
    (hlen : ∀ r ∈ rs, r.stop ≤ len) :
    (gaps len rs position).Pairwise fun s t => s.stop < t.start := by
  induction rs generalizing position with
  | nil =>
    rw [gaps]
    split_ifs <;> simp
  | cons r rs ih =>
    obtain ⟨hgap, hgaps⟩ := List.pairwise_cons.mp hrs.gap
    have hrest : Separate rs := ⟨fun t ht => hrs.lt t (List.mem_cons_of_mem _ ht), hgaps⟩
    have hpos' : ∀ t ∈ rs, r.stop ≤ t.start := fun t ht => (hgap t ht).le
    have hlen' : ∀ t ∈ rs, t.stop ≤ len := fun t ht => hlen t (List.mem_cons_of_mem _ ht)
    rw [gaps]
    refine List.pairwise_append.mpr ⟨by split_ifs <;> simp, ih hrest hpos' hlen', ?_⟩
    intro s hs t ht
    have hr := hrs.lt r List.mem_cons_self
    have htr := start_le_of_mem_gaps hrest hpos' hlen' ht
    split_ifs at hs
    · rw [List.mem_singleton.mp hs]
      exact hr.trans_le htr
    · cases hs

theorem span_gaps {text : List Char} (hrs : ∀ r ∈ rs, Span text r) (hpos : Boundary text position) :
    ∀ s ∈ gaps (size text) rs position, Span text s := by
  induction rs generalizing position with
  | nil =>
    intro s hs
    rw [gaps] at hs
    split_ifs at hs with h
    · rw [List.mem_singleton.mp hs]
      exact ⟨h.le, hpos, boundary_size text⟩
    · cases hs
  | cons r rs ih =>
    intro s hs
    have hr := hrs r List.mem_cons_self
    rcases List.mem_append.mp hs with hs | hs
    · split_ifs at hs with h
      · rw [List.mem_singleton.mp hs]
        exact ⟨h.le, hpos, hr.start⟩
      · cases hs
    · exact ih (fun t ht => hrs t (List.mem_cons_of_mem _ ht)) hr.stop s hs

end Range

end Utf8
