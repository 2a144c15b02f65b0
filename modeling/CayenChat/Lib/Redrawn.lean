import CayenChat.Lib.Substrings

/-! # A text drawn with some ranges replaced

Ranges of a text are drawn as other texts. A position is mapped by the distance between the ends of
the last range before it and of what is drawn for that; inside a range, a position in what is drawn
for it is chosen. The maps of both directions are one map.
-/

namespace Utf8

/-- Ranges and what is drawn for them, from two positions on. -/
inductive Aligned : ℕ → ℕ → List (Range × Range) → Prop
  | nil {a b : ℕ} : Aligned a b []
  | cons {a b gap : ℕ} {r s : Range} {spans : List (Range × Range)} (start : r.start = a + gap)
      (start' : s.start = b + gap) (some : r.start < r.stop) (some' : s.start < s.stop)
      (behind : Aligned r.stop s.stop spans) : Aligned a b ((r, s) :: spans)

/-- A text and what is drawn for it, from two positions on. -/
inductive Redrawn : ℕ → ℕ → List Char → List Char → List (Range × Range) → Prop
  | nil {a b : ℕ} {rest : List Char} : Redrawn a b rest rest []
  | cons {a b : ℕ} {before old new rest rest' : List Char} {spans : List (Range × Range)}
      (some : old ≠ []) (some' : new ≠ [])
      (behind : Redrawn (a + size before + size old) (b + size before + size new) rest rest'
        spans) :
      Redrawn a b (before ++ (old ++ rest)) (before ++ (new ++ rest'))
        ((⟨a + size before, a + size before + size old⟩,
          ⟨b + size before, b + size before + size new⟩) :: spans)

def shifted (x : ℕ) (delta : ℤ) : Option ℕ := if 0 ≤ x + delta then some (x + delta).toNat else none

def mapped (inside : Range × Range → ℕ) (x : ℕ) : ℤ → List (Range × Range) → Option ℕ
  | delta, [] => shifted x delta
  | delta, span :: spans =>
    if span.1.stop ≤ x then mapped inside x (span.2.stop - span.1.stop) spans
    else if span.1.start < x then some (inside span)
    else shifted x delta

def Outside (spans : List (Range × Range)) (x : ℕ) : Prop :=
  ∀ span ∈ spans, x ≤ span.1.start ∨ span.1.stop ≤ x

def Chooses (inside : Range × Range → ℕ) (spans : List (Range × Range)) : Prop :=
  ∀ span ∈ spans, span.2.start ≤ inside span ∧ inside span ≤ span.2.stop

variable {a b x y x' y' : ℕ} {spans : List (Range × Range)} {span : Range × Range}
  {inside inside' : Range × Range → ℕ} {text drawn : List Char}

theorem size_pos {s : List Char} (h : s ≠ []) : 0 < size s :=
  Nat.pos_of_ne_zero fun h' => h (size_eq_zero.mp h')

theorem shifted_of_le (h : a ≤ x) : shifted x ((b : ℤ) - a) = some (b + (x - a)) := by
  unfold shifted
  rw [if_pos (by omega)]
  congr 1
  omega

theorem Redrawn.aligned (h : Redrawn a b text drawn spans) : Aligned a b spans := by
  induction h with
  | nil => exact .nil
  | cons hsome hsome' _ ih =>
    exact .cons rfl rfl (Nat.lt_add_of_pos_right (size_pos hsome))
      (Nat.lt_add_of_pos_right (size_pos hsome')) ih

theorem Aligned.swap (h : Aligned a b spans) : Aligned b a (spans.map Prod.swap) := by
  induction h with
  | nil => exact .nil
  | cons hstart hstart' hsome hsome' _ ih => exact .cons hstart' hstart hsome' hsome ih

theorem Redrawn.swap (h : Redrawn a b text drawn spans) :
    Redrawn b a drawn text (spans.map Prod.swap) := by
  induction h with
  | nil => exact .nil
  | cons hsome hsome' _ ih => exact .cons hsome' hsome ih

theorem Aligned.mem (h : Aligned a b spans) (hs : span ∈ spans) :
    a ≤ span.1.start ∧ span.1.start < span.1.stop ∧
      b ≤ span.2.start ∧ span.2.start < span.2.stop := by
  induction h with
  | nil => cases hs
  | cons hstart hstart' hsome hsome' _ ih =>
    obtain rfl | hs := List.mem_cons.mp hs
    · dsimp only
      exact ⟨by omega, hsome, by omega, hsome'⟩
    · obtain ⟨h1, h2, h3, h4⟩ := ih hs
      exact ⟨by omega, h2, by omega, h4⟩

theorem Aligned.ascending (h : Aligned a b spans) :
    spans.Pairwise fun s t => s.1.stop ≤ t.1.start ∧ s.2.stop ≤ t.2.start := by
  induction h with
  | nil => exact .nil
  | cons _ _ _ _ hrest ih =>
    refine List.pairwise_cons.mpr ⟨?_, ih⟩
    intro t ht
    have hmem := hrest.mem ht
    exact ⟨hmem.1, hmem.2.2.1⟩

theorem Chooses.tail (h : Chooses inside (span :: spans)) : Chooses inside spans :=
  fun s hs => h s (List.mem_cons_of_mem _ hs)

theorem Outside.tail (h : Outside (span :: spans) x) : Outside spans x :=
  fun s hs => h s (List.mem_cons_of_mem _ hs)

theorem Aligned.mapped_some (h : Aligned a b spans) (hx : a ≤ x) (hin : Chooses inside spans) :
    ∃ y, mapped inside x (b - a) spans = some y ∧ b ≤ y := by
  induction h with
  | nil => exact ⟨_, shifted_of_le hx, Nat.le_add_right ..⟩
  | @cons a b gap r s spans hstart hstart' hsome hsome' _ ih =>
    unfold mapped
    dsimp only
    split_ifs with hstop hinside
    · obtain ⟨y, hy, hle⟩ := ih hstop hin.tail
      exact ⟨y, hy, by omega⟩
    · have := hin _ List.mem_cons_self
      exact ⟨_, rfl, by dsimp only at this; omega⟩
    · exact ⟨_, shifted_of_le hx, Nat.le_add_right ..⟩

theorem Aligned.mapped_mono (h : Aligned a b spans) (hx : a ≤ x) (hle : x ≤ x')
    (hin : Chooses inside spans) (hin' : Chooses inside' spans)
    (hii : ∀ span ∈ spans, inside span ≤ inside' span)
    (hy : mapped inside x (b - a) spans = some y)
    (hy' : mapped inside' x' (b - a) spans = some y') : y ≤ y' := by
  induction h with
  | nil =>
    rw [mapped, shifted_of_le hx, Option.some.injEq] at hy
    rw [mapped, shifted_of_le (hx.trans hle), Option.some.injEq] at hy'
    omega
  | @cons a b gap r s spans hstart hstart' hsome hsome' hrest ih =>
    have hhead := hin _ List.mem_cons_self
    have hhead' := hin' _ List.mem_cons_self
    have hboth := hii _ List.mem_cons_self
    unfold mapped at hy hy'
    dsimp only at hy hy' hhead hhead'
    rw [shifted_of_le hx] at hy
    rw [shifted_of_le (hx.trans hle)] at hy'
    by_cases hstop' : r.stop ≤ x'
    · obtain ⟨z, hz, hbz⟩ := hrest.mapped_some hstop' hin'.tail
      rw [if_pos hstop'] at hy'
      by_cases hstop : r.stop ≤ x
      · rw [if_pos hstop] at hy
        exact ih hstop hin.tail hin'.tail (fun t ht => hii t (List.mem_cons_of_mem _ ht)) hy hy'
      · rw [if_neg hstop] at hy
        rw [hz, Option.some.injEq] at hy'
        split_ifs at hy <;> rw [Option.some.injEq] at hy <;> omega
    · rw [if_neg hstop'] at hy'
      rw [if_neg (by omega)] at hy
      split_ifs at hy hy' <;> rw [Option.some.injEq] at hy hy' <;> omega

theorem Aligned.mapped_origin (h : Aligned a b spans) : mapped inside a (b - a) spans = some b := by
  have hshift : shifted a ((b : ℤ) - a) = some b := by
    rw [shifted_of_le le_rfl, Nat.sub_self, Nat.add_zero]
  cases h with
  | nil => exact hshift
  | cons hstart _ hsome _ _ =>
    unfold mapped
    dsimp only
    rwa [if_neg (by omega), if_neg (by omega)]

theorem Aligned.mapped_ends (h : Aligned a b spans) (hs : span ∈ spans) :
    mapped inside span.1.start (b - a) spans = some span.2.start ∧
      mapped inside span.1.stop (b - a) spans = some span.2.stop := by
  induction h with
  | nil => cases hs
  | @cons a b gap r s spans hstart hstart' hsome hsome' hrest ih =>
    unfold mapped
    obtain rfl | hs := List.mem_cons.mp hs
    · dsimp only
      rw [if_neg (by omega), if_neg (by omega), if_pos le_rfl, shifted_of_le (by omega)]
      refine ⟨?_, hrest.mapped_origin⟩
      congr 1
      omega
    · have hmem := hrest.mem hs
      dsimp only
      rw [if_pos hmem.1, if_pos (by omega)]
      exact ih hs

theorem Aligned.mapped_inside (h : Aligned a b spans) (hs : span ∈ spans) (hx : span.1.start < x)
    (hx' : x < span.1.stop) : mapped inside x (b - a) spans = some (inside span) := by
  induction h with
  | nil => cases hs
  | @cons a b gap r s spans hstart hstart' hsome hsome' hrest ih =>
    unfold mapped
    obtain rfl | hs := List.mem_cons.mp hs
    · dsimp only at hx hx' ⊢
      rw [if_neg (by omega), if_pos hx]
    · have hmem := hrest.mem hs
      dsimp only
      rw [if_pos (by omega)]
      exact ih hs

theorem Aligned.mapped_swap (h : Aligned a b spans) (hx : a ≤ x) (ho : Outside spans x)
    (hin : Chooses inside spans) (hy : mapped inside x (b - a) spans = some y) :
    mapped inside' y (a - b) (spans.map Prod.swap) = some x ∧
      Outside (spans.map Prod.swap) y := by
  induction h with
  | @nil a b =>
    rw [mapped, shifted_of_le hx, Option.some.injEq] at hy
    rw [List.map_nil, mapped, shifted_of_le (by omega)]
    refine ⟨?_, by simp [Outside]⟩
    congr 1
    omega
  | @cons a b gap r s spans hstart hstart' hsome hsome' hrest ih =>
    have hhead := ho _ List.mem_cons_self
    unfold mapped at hy
    dsimp only at hy hhead
    rw [List.map_cons]
    unfold mapped
    simp only [Prod.fst_swap, Prod.snd_swap]
    by_cases hstop : r.stop ≤ x
    · rw [if_pos hstop] at hy
      obtain ⟨z, hz, hbz⟩ := hrest.mapped_some hstop hin.tail
      rw [hz, Option.some.injEq] at hy
      subst hy
      obtain ⟨hback, hout⟩ := ih hstop ho.tail hin.tail hz
      rw [if_pos hbz]
      refine ⟨hback, ?_⟩
      rintro t (- | ⟨-, ht⟩)
      · exact .inr hbz
      · exact hout t ht
    · have hle : x ≤ r.start := by omega
      rw [if_neg hstop, if_neg (by omega), shifted_of_le hx, Option.some.injEq] at hy
      rw [if_neg (by omega), if_neg (by omega), shifted_of_le (by omega)]
      refine ⟨by congr 1; omega, ?_⟩
      rintro t (- | ⟨-, ht⟩)
      · exact .inl (by dsimp only [Prod.fst_swap]; omega)
      · have := hrest.swap.mem ht
        exact .inl (by omega)

theorem Redrawn.boundary (h : Redrawn a b text drawn spans) (hx : a ≤ x)
    (hb : Boundary text (x - a))
    (hin : ∀ span ∈ spans, inside span = span.2.start ∨ inside span = span.2.stop)
    (hy : mapped inside x (b - a) spans = some y) : Boundary drawn (y - b) := by
  induction h with
  | nil =>
    rw [mapped, shifted_of_le hx, Option.some.injEq] at hy
    rwa [← hy, Nat.add_sub_cancel_left]
  | @cons a b before old new rest rest' spans hsome hsome' hrest ih =>
    have hnew : Boundary (before ++ (new ++ rest')) (size before + size new) := by
      rw [← List.append_assoc, ← size_append]
      exact boundary_append ..
    unfold mapped at hy
    dsimp only at hy
    split_ifs at hy with hstop hinside
    · have hbehind : Boundary rest (x - (a + size before + size old)) := by
        rw [← List.append_assoc] at hb
        have := hb.of_append_right (by rw [size_append]; omega)
        rwa [size_append, Nat.sub_sub, ← Nat.add_assoc] at this
      have hin' : Chooses inside spans := by
        intro t ht
        have hmem := hrest.aligned.mem ht
        have := hin t (List.mem_cons_of_mem _ ht)
        omega
      obtain ⟨z, hz, hle⟩ := hrest.aligned.mapped_some hstop hin'
      have := ih hstop hbehind (fun t ht => hin t (List.mem_cons_of_mem _ ht)) hy
      rw [hz, Option.some.injEq] at hy
      have hshift : y - b = size (before ++ new) + (y - (b + size before + size new)) := by
        rw [size_append]
        omega
      rw [hshift, ← List.append_assoc]
      exact this.append_right _
    · rw [Option.some.injEq] at hy
      obtain heq | heq := hin _ List.mem_cons_self
      · rw [← hy, heq, Nat.add_sub_cancel_left]
        exact boundary_append ..
      · have hshift : b + size before + size new - b = size before + size new := by omega
        rw [← hy, heq, hshift]
        exact hnew
    · rw [shifted_of_le hx, Option.some.injEq] at hy
      rw [← hy, Nat.add_sub_cancel_left]
      exact (hb.of_append (by omega)).append_left _

theorem slice_append_left {s m : List Char} {i j : ℕ} (h : slice s i j = some m) (t : List Char) :
    slice (s ++ t) i j = some m := by
  obtain ⟨p, q, rfl, rfl, rfl⟩ := slice_eq_some.mp h
  exact slice_eq_some.mpr ⟨p, q ++ t, by simp, rfl, rfl⟩

theorem slice_append_right {t m : List Char} {i j : ℕ} (h : slice t i j = some m) (s : List Char) :
    slice (s ++ t) (size s + i) (size s + j) = some m := by
  obtain ⟨p, q, rfl, rfl, rfl⟩ := slice_eq_some.mp h
  exact slice_eq_some.mpr ⟨s ++ p, q, by simp, by simp, by simp [Nat.add_assoc]⟩

theorem slice_trans {s m n : List Char} {i j k : ℕ} (h : slice s i j = some m)
    (h' : slice s j k = some n) : slice s i k = some (m ++ n) := by
  obtain ⟨p, q, rfl, rfl, rfl⟩ := slice_eq_some.mp h
  obtain ⟨p', q', heq, hp, rfl⟩ := slice_eq_some.mp h'
  rw [List.append_assoc p' n q'] at heq
  obtain ⟨u, rfl, hu⟩ := prefix_of_size_le heq.symm (by rw [hp, size_append])
  have hnil : u = [] := by
    rw [size_append, size_append] at hp
    exact size_eq_zero.mp (by omega)
  subst hnil
  rw [List.nil_append] at hu
  refine slice_eq_some.mpr ⟨p, q', by rw [hu]; simp, rfl, ?_⟩
  rw [hp, size_append, Nat.add_assoc]

theorem Redrawn.slice_mapped (h : Redrawn a b text drawn spans) (hx : a ≤ x) (hxx : x ≤ x')
    (hb : Boundary text (x - a)) (hb' : Boundary text (x' - a))
    (hin : Chooses inside spans) (hin' : Chooses inside' spans)
    (hout : ∀ span ∈ spans, ¬(span.1.start < x' ∧ x < span.1.stop))
    (hy : mapped inside x (b - a) spans = some y)
    (hy' : mapped inside' x' (b - a) spans = some y') :
    ∃ m, slice text (x - a) (x' - a) = some m ∧ slice drawn (y - b) (y' - b) = some m := by
  induction h with
  | nil =>
    rw [mapped, shifted_of_le hx, Option.some.injEq] at hy
    rw [mapped, shifted_of_le (hx.trans hxx), Option.some.injEq] at hy'
    obtain ⟨m, hm⟩ := (Span.mk (Nat.sub_le_sub_right hxx _) hb hb' :
      Span _ ⟨x - _, x' - _⟩).slice
    rw [← hy, ← hy', Nat.add_sub_cancel_left, Nat.add_sub_cancel_left]
    exact ⟨m, hm, hm⟩
  | @cons a b before old new rest rest' spans hsome hsome' hrest ih =>
    have hhead := hout _ List.mem_cons_self
    unfold mapped at hy hy'
    dsimp only at hy hy' hhead
    by_cases hstop : a + size before + size old ≤ x
    · have hstop' := hstop.trans hxx
      rw [if_pos hstop] at hy
      rw [if_pos hstop'] at hy'
      have hbehind : ∀ z, a + size before + size old ≤ z →
          Boundary (before ++ (old ++ rest)) (z - a) →
          Boundary rest (z - (a + size before + size old)) := by
        intro z hz hbz
        rw [← List.append_assoc] at hbz
        have := hbz.of_append_right (by rw [size_append]; omega)
        rwa [size_append, Nat.sub_sub, ← Nat.add_assoc] at this
      obtain ⟨m, hm, hm'⟩ := ih hstop (hbehind x hstop hb) (hbehind x' hstop' hb') hin.tail
        hin'.tail (fun t ht => hout t (List.mem_cons_of_mem _ ht)) hy hy'
      obtain ⟨z, hz, hle⟩ := hrest.aligned.mapped_some hstop hin.tail
      obtain ⟨z', hz', hle'⟩ := hrest.aligned.mapped_some hstop' hin'.tail
      rw [hz, Option.some.injEq] at hy
      rw [hz', Option.some.injEq] at hy'
      subst hy hy'
      have hold := slice_append_right hm (before ++ old)
      have hnew := slice_append_right hm' (before ++ new)
      have hshift : ∀ (part : List Char) (c d : ℕ), c + size before + size part ≤ d →
          size (before ++ part) + (d - (c + size before + size part)) = d - c := by
        intro part c d hcd
        rw [size_append]
        omega
      rw [hshift old a x hstop, hshift old a x' hstop', List.append_assoc] at hold
      rw [hshift new b z hle, hshift new b z' hle', List.append_assoc] at hnew
      exact ⟨m, hold, hnew⟩
    · have hpos := size_pos hsome
      have hbefore : x' ≤ a + size before := by
        by_contra hlt
        exact hhead ⟨by omega, by omega⟩
      rw [if_neg hstop, if_neg (by omega), shifted_of_le hx, Option.some.injEq] at hy
      rw [if_neg (by omega), if_neg (by omega), shifted_of_le (hx.trans hxx),
        Option.some.injEq] at hy'
      obtain ⟨m, hm⟩ := (Span.mk (Nat.sub_le_sub_right hxx a) (hb.of_append (by omega))
        (hb'.of_append (by omega)) : Span before ⟨x - a, x' - a⟩).slice
      rw [← hy, ← hy', Nat.add_sub_cancel_left, Nat.add_sub_cancel_left]
      exact ⟨m, slice_append_left hm _, slice_append_left hm _⟩

end Utf8
