import CayenChat.Text.Compact

/-! # Drawn text and original text line up

Positions, ranges and links of a message are found in its drawn text and back, and what is copied
is the original with whole runs of references as their characters.
-/

namespace CayenChat.Text
open Utf8

namespace Compact

def pairs (self : Compact) : List (Range × Range) :=
  self.spans.map fun span => (span.original, span.shown)

def Draws (self : Compact) (text : List Char) : Prop := Redrawn 0 0 text self.text self.pairs

variable {self : Compact} {text m : List Char} {span : DrawnSpan} {byte byte' x x' y y' : ℕ}
  {stop stop' : Bool} {range : Range} {spans : List DrawnSpan}

theorem pairs_swap (self : Compact) :
    self.spans.map (fun span => (span.shown, span.original)) = self.pairs.map Prod.swap := by
  simp [pairs]

theorem mem_pairs (h : span ∈ self.spans) : (span.original, span.shown) ∈ self.pairs :=
  List.mem_map_of_mem (f := fun span : DrawnSpan => (span.original, span.shown)) h

/-! ## Positions of the original -/

def nearer (byte : ℕ) (span : Range × Range) : ℕ :=
  let middle := span.1.start + (span.1.stop - span.1.start) / 2
  if byte < middle then span.2.start else span.2.stop

theorem original_eq (self : Compact) (byte : ℕ) : self.original byte =
    mapped (nearer byte) byte (((0 : ℕ) : ℤ) - ((0 : ℕ) : ℤ)) (self.pairs.map Prod.swap) := by
  rw [original, pairs_swap]
  rfl

theorem nearer_cases (byte : ℕ) (span : Range × Range) :
    nearer byte span = span.2.start ∨ nearer byte span = span.2.stop := by
  unfold nearer
  dsimp only
  split_ifs
  · exact .inl rfl
  · exact .inr rfl

theorem Draws.chooses_nearer (h : self.Draws text) (byte : ℕ) :
    Chooses (nearer byte) (self.pairs.map Prod.swap) := by
  intro span hs
  have hmem := h.swap.aligned.mem hs
  have := nearer_cases byte span
  omega

theorem Draws.original_some (h : self.Draws text) (byte : ℕ) :
    ∃ x, self.original byte = some x ∧ (Boundary self.text byte → Boundary text x) := by
  rw [original_eq]
  obtain ⟨x, hx, -⟩ := h.swap.aligned.mapped_some (Nat.zero_le byte) (h.chooses_nearer byte)
  refine ⟨x, hx, ?_⟩
  intro hb
  exact h.swap.boundary (Nat.zero_le byte) hb (fun span _ => nearer_cases byte span) hx

theorem Draws.original_mono (h : self.Draws text) (hle : byte ≤ byte')
    (hx : self.original byte = some x) (hx' : self.original byte' = some x') : x ≤ x' := by
  rw [original_eq] at hx hx'
  refine h.swap.aligned.mapped_mono (Nat.zero_le byte) hle (h.chooses_nearer byte)
    (h.chooses_nearer byte') ?_ hx hx'
  intro span hs
  have hmem := h.swap.aligned.mem hs
  unfold nearer
  dsimp only
  split_ifs <;> omega

/-! ## Positions of the drawn text -/

def chosenEnd (stop : Bool) (span : Range × Range) : ℕ :=
  if stop then span.2.stop else span.2.start

theorem shown_eq (self : Compact) (byte : ℕ) (stop : Bool) : self.shown byte stop =
    mapped (chosenEnd stop) byte (((0 : ℕ) : ℤ) - ((0 : ℕ) : ℤ)) self.pairs := rfl

theorem chosenEnd_cases (stop : Bool) (span : Range × Range) :
    chosenEnd stop span = span.2.start ∨ chosenEnd stop span = span.2.stop := by
  cases stop
  · exact .inl rfl
  · exact .inr rfl

theorem Draws.chooses_end (h : self.Draws text) (stop : Bool) :
    Chooses (chosenEnd stop) self.pairs := by
  intro span hs
  have hmem := h.aligned.mem hs
  have := chosenEnd_cases stop span
  omega

theorem Draws.shown_some (h : self.Draws text) (byte : ℕ) (stop : Bool) :
    ∃ y, self.shown byte stop = some y ∧ (Boundary text byte → Boundary self.text y) := by
  rw [shown_eq]
  obtain ⟨y, hy, -⟩ := h.aligned.mapped_some (Nat.zero_le byte) (h.chooses_end stop)
  refine ⟨y, hy, ?_⟩
  intro hb
  exact h.boundary (Nat.zero_le byte) hb (fun span _ => chosenEnd_cases stop span) hy

theorem Draws.shown_mono (h : self.Draws text) (hle : byte ≤ byte')
    (hstop : stop = true → stop' = true) (hy : self.shown byte stop = some y)
    (hy' : self.shown byte' stop' = some y') : y ≤ y' := by
  rw [shown_eq] at hy hy'
  refine h.aligned.mapped_mono (Nat.zero_le byte) hle (h.chooses_end stop) (h.chooses_end stop')
    ?_ hy hy'
  intro span hs
  have hmem := h.aligned.mem hs
  cases stop <;> cases stop' <;> simp_all [chosenEnd]
  omega

theorem Draws.shown_ends (h : self.Draws text) (hs : span ∈ self.spans) (stop : Bool) :
    self.shown span.original.start stop = some span.shown.start ∧
      self.shown span.original.stop stop = some span.shown.stop := by
  rw [shown_eq, shown_eq]
  exact h.aligned.mapped_ends (mem_pairs hs)

theorem Draws.shown_inside (h : self.Draws text) (hs : span ∈ self.spans)
    (hlt : span.original.start < byte) (hlt' : byte < span.original.stop) (stop : Bool) :
    self.shown byte stop = some (if stop then span.shown.stop else span.shown.start) := by
  rw [shown_eq]
  exact h.aligned.mapped_inside (mem_pairs hs) hlt hlt'

/-! ## Back and forth -/

theorem Draws.original_shown (h : self.Draws text)
    (ho : ∀ span ∈ self.spans, byte ≤ span.original.start ∨ span.original.stop ≤ byte)
    (hy : self.shown byte stop = some y) : self.original y = some byte := by
  rw [shown_eq] at hy
  rw [original_eq]
  refine (h.aligned.mapped_swap (Nat.zero_le byte) ?_ (h.chooses_end stop) hy).1
  intro pair hp
  obtain ⟨span, hs, rfl⟩ := List.mem_map.mp hp
  exact ho span hs

theorem Draws.shown_original (h : self.Draws text)
    (ho : ∀ span ∈ self.spans, byte ≤ span.shown.start ∨ span.shown.stop ≤ byte)
    (hx : self.original byte = some x) (stop : Bool) : self.shown x stop = some byte := by
  rw [original_eq] at hx
  rw [shown_eq]
  have hout : Outside (self.pairs.map Prod.swap) byte := by
    rw [← pairs_swap]
    intro pair hp
    obtain ⟨span, hs, rfl⟩ := List.mem_map.mp hp
    exact ho span hs
  have hback : mapped (chosenEnd stop) x (((0 : ℕ) : ℤ) - ((0 : ℕ) : ℤ))
      ((self.pairs.map Prod.swap).map Prod.swap) = some byte :=
    (h.swap.aligned.mapped_swap (Nat.zero_le byte) hout (h.chooses_nearer byte) hx).1
  rwa [List.map_map, Prod.swap_swap_eq, List.map_id] at hback

theorem Draws.shownRange_some (h : self.Draws text) (hle : range.start ≤ range.stop) :
    ∃ covered, self.shownRange range = some covered ∧ covered.start ≤ covered.stop ∧
      ∀ span ∈ self.spans, span.original.start < range.stop → range.start < span.original.stop →
        covered.start ≤ span.shown.start ∧ span.shown.stop ≤ covered.stop := by
  obtain ⟨start, hstart, -⟩ := h.shown_some range.start false
  obtain ⟨stop, hstop, -⟩ := h.shown_some range.stop true
  refine ⟨⟨start, stop⟩, by simp [shownRange, hstart, hstop],
    h.shown_mono hle (by simp) hstart hstop, ?_⟩
  intro span hs hlt hlt'
  constructor
  · by_cases hin : span.original.start < range.start
    · rw [h.shown_inside hs hin hlt', Option.some.injEq] at hstart
      exact hstart.ge
    · exact h.shown_mono (not_lt.mp hin) (by simp) hstart (h.shown_ends hs false).1
  · by_cases hin : range.stop < span.original.stop
    · rw [h.shown_inside hs hlt hin, Option.some.injEq] at hstop
      exact hstop.le
    · exact h.shown_mono (not_lt.mp hin) (by simp) (h.shown_ends hs true).2 hstop

/-! ## Copying -/

/-- Spans that can be copied: parts of the text in order, with what is drawn for each. -/
structure Copyable (compact : Compact) (text : List Char) (spans : List DrawnSpan) : Prop where
  span : ∀ span ∈ spans, Span text span.original ∧ span.original.start < span.original.stop ∧
    ∃ m, slice compact.text span.shown.start span.shown.stop = some m
  ascending : spans.Pairwise fun s t => s.original.stop ≤ t.original.start

variable {start mid : ℕ} {m' : List Char}

theorem Copyable.tail (h : self.Copyable text (span :: spans)) : self.Copyable text spans :=
  ⟨fun s hs => h.span s (List.mem_cons_of_mem _ hs), (List.pairwise_cons.mp h.ascending).2⟩

theorem Copyable.behind (h : self.Copyable text (span :: spans)) :
    ∀ s ∈ spans, span.original.stop ≤ s.original.start := (List.pairwise_cons.mp h.ascending).1

theorem slice_self (h : Boundary text x) : slice text x x = some [] := by
  obtain ⟨p, q, rfl, rfl⟩ := h
  exact slice_eq_some.mpr ⟨p, q, by simp, rfl, rfl⟩

theorem slice_some (h : Boundary text x) (h' : Boundary text y) (hle : x ≤ y) :
    ∃ m, slice text x y = some m := (Span.mk hle h h' : Span text ⟨x, y⟩).slice

theorem copyFrom_plain
    (h : ∀ s ∈ spans, s.original.stop ≤ start ∨ byte ≤ s.original.start) :
    self.copyFrom text byte start spans = slice text (min start byte) byte := by
  induction spans with
  | nil => rfl
  | cons s spans ih =>
    rw [copyFrom, if_pos (h s List.mem_cons_self)]
    exact ih fun t ht => h t (List.mem_cons_of_mem _ ht)

theorem Copyable.copyFrom_some (h : self.Copyable text spans) (hstart : Boundary text start)
    (hbyte : Boundary text byte) : ∃ m, self.copyFrom text byte start spans = some m := by
  induction spans generalizing start with
  | nil =>
    rw [copyFrom]
    obtain hle | hle := Nat.le_total start byte
    · rw [Nat.min_eq_left hle]
      exact slice_some hstart hbyte hle
    · rw [Nat.min_eq_right hle]
      exact ⟨_, slice_self hbyte⟩
  | cons s spans ih =>
    rw [copyFrom]
    split_ifs with hskip
    · exact ih h.tail hstart
    · obtain ⟨hspan, -, shown, hshown⟩ := h.span s List.mem_cons_self
      have hmax : Boundary text (max s.original.start start) := by
        obtain hle | hle := Nat.le_total s.original.start start
        · rwa [Nat.max_eq_right hle]
        · rw [Nat.max_eq_left hle]
          exact hspan.start
      obtain ⟨before, hbefore⟩ := slice_some hstart hmax (Nat.le_max_right ..)
      obtain ⟨after, hafter⟩ := ih h.tail hspan.stop
      exact ⟨_, by rw [hbefore, hshown, hafter]; rfl⟩

theorem Copyable.copyFrom_within (h : self.Copyable text spans) (hs : span ∈ spans)
    (hstart : Boundary text start) (hbyte : Boundary text byte)
    (hle : span.original.start ≤ start) (hle' : byte ≤ span.original.stop)
    (hlt : span.original.start < byte) (hlt' : start < span.original.stop) :
    self.copyFrom text byte start spans =
      slice self.text span.shown.start span.shown.stop := by
  induction spans with
  | nil => cases hs
  | cons s spans ih =>
    rw [copyFrom]
    obtain rfl | hs := List.mem_cons.mp hs
    · obtain ⟨-, -, shown, hshown⟩ := h.span _ List.mem_cons_self
      have hplain : self.copyFrom text byte span.original.stop spans =
          slice text (min span.original.stop byte) byte :=
        copyFrom_plain fun t ht => .inr (hle'.trans (h.behind t ht))
      rw [if_neg (by omega), Nat.max_eq_right hle, slice_self hstart, hshown, hplain,
        Nat.min_eq_right hle', slice_self hbyte]
      simp
    · have := h.behind span hs
      rw [if_pos (by omega)]
      exact ih h.tail hs

theorem Copyable.copyFrom_concat (h : self.Copyable text spans) (hstart : Boundary text start)
    (hmid : Boundary text mid) (hbyte : Boundary text byte) (hle : start ≤ mid)
    (hle' : mid ≤ byte)
    (hout : ∀ s ∈ spans, mid ≤ s.original.start ∨ s.original.stop ≤ mid)
    (hm : self.copyFrom text mid start spans = some m)
    (hm' : self.copyFrom text byte mid spans = some m') :
    self.copyFrom text byte start spans = some (m ++ m') := by
  induction spans generalizing start m with
  | nil =>
    rw [copyFrom] at hm hm' ⊢
    rw [Nat.min_eq_left hle] at hm
    rw [Nat.min_eq_left hle'] at hm'
    rw [Nat.min_eq_left (hle.trans hle')]
    exact slice_trans hm hm'
  | cons s spans ih =>
    obtain ⟨hspan, hne, shown, hshown⟩ := h.span s List.mem_cons_self
    have hbehind := h.behind
    have hout' : ∀ t ∈ spans, mid ≤ t.original.start ∨ t.original.stop ≤ mid :=
      fun t ht => hout t (List.mem_cons_of_mem _ ht)
    by_cases hpast : s.original.stop ≤ start
    · rw [copyFrom, if_pos (.inl (by omega))] at hm hm' ⊢
      exact ih h.tail hstart hle hout' hm hm'
    · obtain hnext | hstop := hout s List.mem_cons_self
      · -- The span is behind the position where the ranges meet.
        have hplain : self.copyFrom text mid start (s :: spans) =
            slice text (min start mid) mid := by
          refine copyFrom_plain ?_
          intro t ht
          obtain rfl | ht := List.mem_cons.mp ht
          · exact .inr hnext
          · have := hbehind t ht
            exact .inr (by omega)
        rw [hplain, Nat.min_eq_left hle] at hm
        rw [copyFrom] at hm' ⊢
        by_cases hend : byte ≤ s.original.start
        · have hrest : ∀ begin : ℕ, self.copyFrom text byte begin spans =
              slice text (min begin byte) byte := by
            intro begin
            refine copyFrom_plain fun t ht => .inr ?_
            have := hbehind t ht
            omega
          rw [if_pos (.inr hend), hrest, Nat.min_eq_left (by omega)] at hm' ⊢
          exact slice_trans hm hm'
        · rw [if_neg (by omega), Nat.max_eq_left (by omega)] at hm' ⊢
          obtain ⟨before, hbefore⟩ := slice_some hmid hspan.start hnext
          obtain ⟨after, hafter⟩ := h.tail.copyFrom_some hspan.stop hbyte
          rw [hbefore, hshown, hafter] at hm'
          rw [slice_trans hm hbefore, hshown, hafter]
          simp_all
      · have hmeet : s.original.start < mid := by omega
        have hskip : self.copyFrom text byte mid spans = some m' := by
          rwa [copyFrom, if_pos (.inl hstop)] at hm'
        rw [copyFrom, if_neg (by omega)] at hm ⊢
        have hmax : Boundary text (max s.original.start start) := by
          obtain hle | hle := Nat.le_total s.original.start start
          · rwa [Nat.max_eq_right hle]
          · rw [Nat.max_eq_left hle]
            exact hspan.start
        obtain ⟨before, hbefore⟩ := slice_some hstart hmax (Nat.le_max_right ..)
        obtain ⟨after, hafter⟩ := h.tail.copyFrom_some hspan.stop hmid
        rw [hbefore, hshown, hafter] at hm
        rw [hbefore, hshown, ih h.tail hspan.stop hstop hout' hafter hskip]
        obtain rfl := Option.some.inj hm
        simp

end Compact

/-! ## Everything lines up -/

/-- The drawn text and the original line up, whatever is shortened and decoded. -/
structure LinesUp (text : List Char) (urls : List (Range × String)) (shorten decode : Bool)
    (compact : Compact) : Prop where
  draws : compact.Draws text
  ascending : compact.spans.Pairwise fun s t =>
    s.original.stop ≤ t.original.start ∧ s.shown.stop ≤ t.shown.start
  replaced : ∀ r, Replaced text urls shorten decode r ↔
    ∃ span ∈ compact.spans, StandsFor compact.text span r
  original : ∀ byte, ∃ x, compact.original byte = some x ∧
    (Boundary compact.text byte → Boundary text x)
  shown : ∀ byte stop, ∃ y, compact.shown byte stop = some y ∧
    (Boundary text byte → Boundary compact.text y)
  original_mono : ∀ byte byte' x x', byte ≤ byte' → compact.original byte = some x →
    compact.original byte' = some x' → x ≤ x'
  shown_mono : ∀ byte byte' stop stop' y y', byte ≤ byte' → (stop = true → stop' = true) →
    compact.shown byte stop = some y → compact.shown byte' stop' = some y' → y ≤ y'
  original_shown : ∀ byte stop y,
    (∀ span ∈ compact.spans, byte ≤ span.original.start ∨ span.original.stop ≤ byte) →
    compact.shown byte stop = some y → compact.original y = some byte
  shown_original : ∀ byte stop x,
    (∀ span ∈ compact.spans, byte ≤ span.shown.start ∨ span.shown.stop ≤ byte) →
    compact.original byte = some x → compact.shown x stop = some byte
  covers : ∀ range : Range, range.start ≤ range.stop → ∃ covered,
    compact.shownRange range = some covered ∧ covered.start ≤ covered.stop ∧
      ∀ span ∈ compact.spans, span.original.start < range.stop →
        range.start < span.original.stop →
        covered.start ≤ span.shown.start ∧ span.shown.stop ≤ covered.stop
  labels : ∃ drawn, compact.shownUrls urls = some drawn ∧
    List.Forall₂ (fun link shown => shown.2 = link.2 ∧ ∃ url,
      slice text link.1.start link.1.stop = some url ∧
      slice compact.text shown.1.start shown.1.stop =
        if shorten then (label url).map Prod.fst else some url) urls drawn
  copies : ∀ range, Span text range → ∃ m, compact.copyText text range = some m
  copies_text : ∀ range, Span text range →
    (∀ span ∈ compact.spans, span.decoded = true →
      range.stop ≤ span.original.start ∨ span.original.stop ≤ range.start) →
    compact.copyText text range = slice text range.start range.stop
  copies_run : ∀ range, Span text range → ∀ span ∈ compact.spans, span.decoded = true →
    span.original.start ≤ range.start → range.stop ≤ span.original.stop →
    span.original.start < range.stop → range.start < span.original.stop →
    compact.copyText text range = slice compact.text span.shown.start span.shown.stop
  copies_concat : ∀ a b c m m', Span text ⟨a, b⟩ → Span text ⟨b, c⟩ →
    (∀ span ∈ compact.spans, span.decoded = true →
      b ≤ span.original.start ∨ span.original.stop ≤ b) →
    compact.copyText text ⟨a, b⟩ = some m → compact.copyText text ⟨b, c⟩ = some m' →
    compact.copyText text ⟨a, c⟩ = some (m ++ m')

variable {text : List Char} {urls : List (Range × String)} {shorten decode : Bool}
  {compact : Compact} {rs : List Replacement} {span : DrawnSpan} {r : Replacement}

theorem exists_stands (h : List.Forall₂ (StandsFor compact.text) compact.spans rs)
    (hs : span ∈ compact.spans) : ∃ r ∈ rs, StandsFor compact.text span r := by
  revert hs
  generalize compact.spans = spans at h
  induction h with
  | nil => simp
  | cons hstands _ ih =>
    intro hs
    obtain rfl | hs := List.mem_cons.mp hs
    · exact ⟨_, List.mem_cons_self, hstands⟩
    · obtain ⟨r, hr, hstands⟩ := ih hs
      exact ⟨r, List.mem_cons_of_mem _ hr, hstands⟩

theorem exists_span (h : List.Forall₂ (StandsFor compact.text) compact.spans rs)
    (hr : r ∈ rs) : ∃ span ∈ compact.spans, StandsFor compact.text span r := by
  generalize compact.spans = spans at h ⊢
  induction h with
  | nil => cases hr
  | cons hstands _ ih =>
    obtain rfl | hr := List.mem_cons.mp hr
    · exact ⟨_, List.mem_cons_self, hstands⟩
    · obtain ⟨span, hs, hstands⟩ := ih hr
      exact ⟨span, List.mem_cons_of_mem _ hs, hstands⟩

theorem StandsFor.unique {r' : Replacement} (h : StandsFor compact.text span r)
    (h' : StandsFor compact.text span r') : r = r' := by
  obtain ⟨range, shown, decoded⟩ := r
  obtain ⟨range', shown', decoded'⟩ := r'
  have horiginal := h.original.symm.trans h'.original
  have hdecoded := h.decoded.symm.trans h'.decoded
  have hshown := h.shown.symm.trans h'.shown
  simp_all

theorem link_drawn (hdraws : compact.Draws text)
    (hreplaced : ∀ r, Replaced text urls shorten decode r ↔
      ∃ span ∈ compact.spans, StandsFor compact.text span r)
    (hstands : ∀ span ∈ compact.spans, ∃ r, StandsFor compact.text span r)
    (hspan : ∀ link ∈ urls, Span text link.1 ∧ link.1.start < link.1.stop)
    {link : Range × String} (hlink : link ∈ urls) :
    ∃ shown url, compact.shownRange link.1 = some shown ∧
      slice text link.1.start link.1.stop = some url ∧
      slice compact.text shown.start shown.stop =
        if shorten then (label url).map Prod.fst else some url := by
  obtain ⟨url, hurl⟩ := (hspan link hlink).1.slice
  cases shorten with
  | true =>
    obtain ⟨shown, cut, hlabel, -⟩ := label_some url
    obtain ⟨s, hs, hstand⟩ := (hreplaced ⟨link.1, shown, false⟩).mp
      (.inl ⟨rfl, rfl, link, hlink, rfl, url, cut, hurl, hlabel⟩)
    have hrange : s.original = link.1 := hstand.original
    refine ⟨s.shown, url, ?_, hurl, ?_⟩
    · rw [← hrange, Compact.shownRange, (hdraws.shown_ends hs false).1,
        (hdraws.shown_ends hs true).2]
      rfl
    · rw [hstand.shown, hlabel]
      rfl
  | false =>
    obtain ⟨runs, hruns, hup⟩ := findReferences_runs text fun l hl => (hspan l hl).2
    obtain ⟨start, hstart, -⟩ := hdraws.shown_some link.1.start false
    obtain ⟨stop, hstop, -⟩ := hdraws.shown_some link.1.stop true
    have hout : ∀ pair ∈ compact.pairs,
        ¬(pair.1.start < link.1.stop ∧ link.1.start < pair.1.stop) := by
      intro pair hp
      obtain ⟨s, hs, rfl⟩ := List.mem_map.mp hp
      obtain ⟨r, hr⟩ := hstands s hs
      obtain ⟨-, hfalse, -⟩ | ⟨-, -, runs', hruns', hmem⟩ := (hreplaced r).mpr ⟨s, hs, hr⟩
      · cases hfalse
      · rw [hruns, Option.some.injEq] at hruns'
        subst hruns'
        have := hup.apart _ hmem link hlink
        dsimp only at this ⊢
        rw [hr.original]
        tauto
    have hs := (hspan link hlink).1
    obtain ⟨m, hm, hm'⟩ := hdraws.slice_mapped (Nat.zero_le _) hs.le hs.start hs.stop
      (hdraws.chooses_end false) (hdraws.chooses_end true) hout hstart hstop
    refine ⟨⟨start, stop⟩, url, by simp [Compact.shownRange, hstart, hstop], hurl, ?_⟩
    rw [Nat.sub_zero, Nat.sub_zero] at hm hm'
    rw [hm']
    rw [hm] at hurl
    exact hurl

theorem links_drawn (hdraws : compact.Draws text)
    (hreplaced : ∀ r, Replaced text urls shorten decode r ↔
      ∃ span ∈ compact.spans, StandsFor compact.text span r)
    (hstands : ∀ span ∈ compact.spans, ∃ r, StandsFor compact.text span r)
    (hspan : ∀ link ∈ urls, Span text link.1 ∧ link.1.start < link.1.stop)
    (links : List (Range × String)) (hlinks : ∀ link ∈ links, link ∈ urls) :
    ∃ drawn, compact.shownUrls links = some drawn ∧
      List.Forall₂ (fun link shown => shown.2 = link.2 ∧ ∃ url,
        slice text link.1.start link.1.stop = some url ∧
        slice compact.text shown.1.start shown.1.stop =
          if shorten then (label url).map Prod.fst else some url) links drawn := by
  unfold Compact.shownUrls
  induction links with
  | nil => exact ⟨[], rfl, .nil⟩
  | cons link links ih =>
    obtain ⟨drawn, hdrawn, hforall⟩ := ih fun l hl => hlinks l (List.mem_cons_of_mem _ hl)
    obtain ⟨shown, url, hshown, hurl, hlabel⟩ :=
      link_drawn hdraws hreplaced hstands hspan (hlinks link List.mem_cons_self)
    refine ⟨(shown, link.2) :: drawn, ?_, .cons ⟨rfl, url, hurl, hlabel⟩ hforall⟩
    rw [List.mapM_cons, hdrawn]
    simp [hshown]

theorem copyable (horder : InOrder text rs)
    (hstands : List.Forall₂ (StandsFor compact.text) compact.spans rs)
    (hascending : compact.spans.Pairwise fun s t =>
      s.original.stop ≤ t.original.start ∧ s.shown.stop ≤ t.shown.start) :
    compact.Copyable text (compact.spans.filter DrawnSpan.decoded) where
  span := by
    intro span hs
    obtain ⟨r, hr, hstand⟩ := exists_stands hstands (List.mem_of_mem_filter hs)
    obtain ⟨hspan, hlt, -⟩ := horder.span r hr
    rw [hstand.original]
    exact ⟨hspan, hlt, _, hstand.shown⟩
  ascending := (hascending.imp And.left).filter _

/-- In every text the drawn text and the original line up. -/
theorem drawn_text_lines_up (parse : List Char → Option Url) (text : List Char)
    (shorten decode : Bool) : ∃ urls compact, find parse text = some urls ∧
      Compact.new text urls shorten decode = some compact ∧
      LinesUp text urls shorten decode compact := by
  obtain ⟨urls, hfind, -, hurls, hlinks⟩ := find_safe parse text
  have hspan : ∀ link ∈ urls, Span text link.1 ∧ link.1.start < link.1.stop :=
    fun link hl => ⟨(hlinks link hl).2.1, (hlinks link hl).1⟩
  obtain ⟨rs, hrs, horder, hreplaced⟩ := replacements_some text shorten decode hspan hurls
  obtain ⟨drawn, spans, hdraw, hredrawn, hforall⟩ :=
    draw_spec horder (List.nil_append text).symm (fun r _ => Nat.zero_le _) [] []
  obtain ⟨compact, hcompact⟩ : ∃ compact : Compact, compact = ⟨drawn, spans⟩ := ⟨_, rfl⟩
  have hdraws : compact.Draws text := by rwa [hcompact]
  have hstands : List.Forall₂ (StandsFor compact.text) compact.spans rs := by rwa [hcompact]
  have hascending : compact.spans.Pairwise fun s t =>
      s.original.stop ≤ t.original.start ∧ s.shown.stop ≤ t.shown.start :=
    List.pairwise_map.mp hdraws.aligned.ascending
  have hspans : ∀ r, Replaced text urls shorten decode r ↔
      ∃ span ∈ compact.spans, StandsFor compact.text span r := by
    intro r
    rw [← hreplaced]
    constructor
    · exact exists_span hstands
    · rintro ⟨span, hs, hstand⟩
      obtain ⟨r', hr', hstand'⟩ := exists_stands hstands hs
      rwa [hstand.unique hstand']
  have hall : ∀ span ∈ compact.spans, ∃ r, StandsFor compact.text span r := by
    intro span hs
    obtain ⟨r, -, hstand⟩ := exists_stands hstands hs
    exact ⟨r, hstand⟩
  have hcopyable := copyable horder hstands hascending
  have hdecoded : ∀ span, span ∈ compact.spans.filter DrawnSpan.decoded ↔
      span ∈ compact.spans ∧ span.decoded = true := fun span => List.mem_filter
  refine ⟨urls, compact, hfind, ?_, ?_⟩
  · rw [Compact.new, hrs, hcompact]
    exact hdraw
  · constructor
    case draws => exact hdraws
    case ascending => exact hascending
    case replaced => exact hspans
    case original => exact hdraws.original_some
    case shown => exact hdraws.shown_some
    case original_mono => exact fun _ _ _ _ => hdraws.original_mono
    case shown_mono => exact fun _ _ _ _ _ _ => hdraws.shown_mono
    case original_shown => exact fun _ _ _ => hdraws.original_shown
    case shown_original => exact fun _ stop _ ho hx => hdraws.shown_original ho hx stop
    case covers => exact fun _ => hdraws.shownRange_some
    case labels =>
      exact links_drawn hdraws hspans hall hspan urls fun _ hl => hl
    case copies =>
      intro range hr
      exact hcopyable.copyFrom_some hr.start hr.stop
    case copies_text =>
      intro range hr hout
      rw [Compact.copyText, Compact.copyFrom_plain, Nat.min_eq_left hr.le]
      intro span hs
      obtain ⟨hs, hd⟩ := (hdecoded span).mp hs
      exact (hout span hs hd).symm
    case copies_run =>
      intro range hr span hs hd
      exact hcopyable.copyFrom_within ((hdecoded span).mpr ⟨hs, hd⟩) hr.start hr.stop
    case copies_concat =>
      intro a b c m m' hab hbc hout
      refine hcopyable.copyFrom_concat hab.start hab.stop hbc.stop hab.le hbc.le ?_
      intro span hs
      obtain ⟨hs, hd⟩ := (hdecoded span).mp hs
      exact hout span hs hd

/-- Adjacent references are copied as one, so that two ranges that meet between them give the
characters of both twice. -/
theorem references_copied_twice : ∃ (text : List Char) (compact : Compact),
    find (fun _ => none) text = some [] ∧ Compact.new text [] false true = some compact ∧
      Occurs text ⟨0, 5⟩ 'A' ∧ Occurs text ⟨5, 10⟩ 'B' ∧
      compact.copyText text ⟨0, 5⟩ = some ['A', 'B'] ∧
      compact.copyText text ⟨5, 10⟩ = some ['A', 'B'] ∧
      compact.copyText text ⟨0, 10⟩ = some ['A', 'B'] := by
  have hnames : ∀ digits ch, digits ≠ [] → digits.length ≤ 8 →
      (∀ c ∈ digits, Radix.isDigit 10 c = true) → Radix.value 10 digits = ch.toNat →
      Showable ch → IsReference ('&' :: '#' :: (digits ++ [';'])) ch :=
    fun digits ch h1 h2 h3 h4 h5 => .decimal ⟨h1, h2, h3, h4, h5⟩
  refine ⟨['&', '#', '6', '5', ';', '&', '#', '6', '6', ';'],
    ⟨['A', 'B'], [⟨⟨0, 10⟩, ⟨0, 2⟩, true⟩]⟩, by decide +kernel, by decide +kernel, ?_, ?_,
    by decide +kernel, by decide +kernel, by decide +kernel⟩
  · exact ⟨[], ['&', '#', '6', '5', ';'], ['&', '#', '6', '6', ';'], rfl, rfl, rfl,
      hnames ['6', '5'] 'A' (by decide) (by decide)
        (by simp [Radix.isDigit, Radix.toDigit]) (by decide +kernel)
        ⟨rfl, by decide +kernel, rfl, by decide +kernel⟩⟩
  · exact ⟨['&', '#', '6', '5', ';'], ['&', '#', '6', '6', ';'], [], rfl, rfl, rfl,
      hnames ['6', '6'] 'B' (by decide) (by decide)
        (by simp [Radix.isDigit, Radix.toDigit]) (by decide +kernel)
        ⟨rfl, by decide +kernel, rfl, by decide +kernel⟩⟩

end CayenChat.Text
