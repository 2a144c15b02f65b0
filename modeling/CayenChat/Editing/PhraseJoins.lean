import CayenChat.Editing.Phrases
import CayenChat.Lib.Arrange
import CayenChat.Lib.Gaps
import CayenChat.Lib.Map

/-! # Where a line is not broken

The offsets inside phrases, found in the stretches of a text that are not protected and kept for
the next drawing. The kept ones are what would be found again.
-/

namespace CayenChat.Editing
open Utf8 Utf8.Range SelectUnit

/-- `u32::try_from`. -/
def toU32 (n : ℕ) : Option ℕ := if n < 2 ^ 32 then some n else none

def PhraseModel.joins (model : PhraseModel) (text : List Char) : List ℕ :=
  if text.any isKana then
    (model.scan text).filterMap fun (offset, bothJapanese, split) =>
      if bothJapanese && !split then toU32 offset else none
  else []

def phraseCapacity : ℕ := 512

def merged (ranges : List Range) (len : ℕ) : List Range :=
  (((ranges.map fun r => (⟨min r.start len, min r.stop len⟩ : Range)).filter fun r =>
    r.start < r.stop).insertionSort fun r s => r.start ≤ s.start).foldl push []

def segments (ranges : List Range) (len : ℕ) : List Range := gaps len ranges 0

def cacheKey (shift : ℕ) (ranges : List Range) (text : List Char) : List Char :=
  Nat.toDigits 10 shift ++ ';' :: (ranges.flatMap fun r =>
    Nat.toDigits 10 r.start ++ '-' :: (Nat.toDigits 10 r.stop ++ [','])) ++ '|' :: text

abbrev PhraseJoins := Map (List Char) (Option (List ℕ))

/-- What the joins of a text are asked with. -/
structure Ask where
  enabled : Bool
  shift : ℕ
  text : List Char
  ranges : List Range
  /-- The shift is a machine word and the text fits into memory. -/
  shift_lt : shift < 2 ^ 64
  text_lt : size text < 2 ^ 63

/-- The joins of one stretch, moved by its start and the shift; `none` where the stretch cuts
through a character. Additions are those of 64 bits. -/
def stretchJoins (model : PhraseModel) (shift : ℕ) (text : List Char) (s : Range) :
    Option (List ℕ) :=
  (slice text s.start s.stop).map fun stretch =>
    (model.joins stretch).filterMap fun offset => toU32 ((offset + s.start + shift) % 2 ^ 64)

def computed (model : PhraseModel) (shift : ℕ) (ranges : List Range) (text : List Char) :
    Option (Option (List ℕ)) :=
  ((segments ranges (size text)).mapM (stretchJoins model shift text)).map fun parts =>
    if parts.flatten = [] then none else some parts.flatten

/-- The answer and the cache behind it; `none` where a slice would cut through a character. -/
def PhraseJoins.joins (model : PhraseModel) (cache : PhraseJoins) (ask : Ask) :
    Option (Option (List ℕ) × PhraseJoins) :=
  if !ask.enabled then some (none, ∅)
  else
    let ranges := merged ask.ranges (size ask.text)
    let key := cacheKey ask.shift ranges ask.text
    match cache.lookup key with
    | some found => some (found, cache)
    | none => (computed model ask.shift ranges ask.text).map fun joins =>
        (joins, Memo.keep phraseCapacity cache key joins)

def PhraseJoins.state (model : PhraseModel) (asks : List Ask) : Option PhraseJoins :=
  asks.foldlM (fun cache ask => (cache.joins model ask).map Prod.snd) ∅

variable {model : PhraseModel} {text : List Char} {ranges : List Range} {r s : Range}
  {shift n len : ℕ} {ask : Ask}

/-! ## The ranges -/

theorem clamped_spec (ranges : List Range) (len : ℕ) {clamped : List Range}
    (h : clamped = ((ranges.map fun r => (⟨min r.start len, min r.stop len⟩ : Range)).filter
      fun r => r.start < r.stop).insertionSort fun r s => r.start ≤ s.start) :
    clamped.Pairwise (fun r s => r.start ≤ s.start) ∧ (∀ r ∈ clamped, r.start < r.stop) ∧
      ∀ r, r ∈ clamped ↔ ∃ s ∈ ranges, r = ⟨min s.start len, min s.stop len⟩ ∧ r.start < r.stop := by
  have hmem : ∀ r, r ∈ clamped ↔
      ∃ s ∈ ranges, r = ⟨min s.start len, min s.stop len⟩ ∧ r.start < r.stop := by
    intro r
    rw [h, List.mem_insertionSort, List.mem_filter, List.mem_map, decide_eq_true_eq]
    constructor
    · rintro ⟨⟨s, hs, rfl⟩, hlt⟩
      exact ⟨s, hs, rfl, hlt⟩
    · rintro ⟨s, hs, rfl, hlt⟩
      exact ⟨⟨s, hs, rfl⟩, hlt⟩
  refine ⟨?_, fun r hr => ((hmem r).mp hr).choose_spec.2.2, hmem⟩
  have : Std.Total fun r s : Range => r.start ≤ s.start := ⟨fun r s => Nat.le_total ..⟩
  have : IsTrans Range fun r s => r.start ≤ s.start := ⟨fun _ _ _ => Nat.le_trans⟩
  rw [h]
  exact List.pairwise_insertionSort _ _

theorem merged_spec (ranges : List Range) (len : ℕ) :
    Separate (merged ranges len) ∧ (∀ r ∈ merged ranges len, r.stop ≤ len) ∧
      ∀ n < len, Covers (merged ranges len) n ↔ Covers ranges n := by
  obtain ⟨hsorted, hlt, hmem⟩ := clamped_spec ranges len rfl
  have hnil : Separate [] := ⟨by simp, .nil⟩
  obtain ⟨hsep, hcov⟩ := foldl_push hnil (by simp) hsorted hlt
  have hcovers : ∀ n, Covers (merged ranges len) n ↔
      ∃ s ∈ ranges, min s.start len ≤ n ∧ n < min s.stop len := by
    intro n
    have hnil : ¬ Covers [] n := by simp [Covers]
    rw [merged, hcov n, or_iff_right hnil]
    constructor
    · rintro ⟨r, hr, hn⟩
      obtain ⟨s, hs, rfl, -⟩ := (hmem r).mp hr
      exact ⟨s, hs, hn⟩
    · rintro ⟨s, hs, hn⟩
      exact ⟨_, (hmem _).mpr ⟨s, hs, rfl, hn.1.trans_lt hn.2⟩, hn⟩
  refine ⟨hsep, ?_, ?_⟩
  · intro r hr
    have hr' := hsep.lt r hr
    obtain ⟨s, -, -, hlast⟩ := (hcovers (r.stop - 1)).mp ⟨r, hr, by omega, by omega⟩
    omega
  · intro n hn
    rw [hcovers]
    constructor
    · rintro ⟨s, hs, hstart, hstop⟩
      exact ⟨s, hs, by omega, by omega⟩
    · rintro ⟨s, hs, hstart, hstop⟩
      exact ⟨s, hs, by omega, by omega⟩

def OnCharacters (text : List Char) (r : Range) : Prop :=
  (Boundary text r.start ∨ size text ≤ r.start) ∧ (Boundary text r.stop ∨ size text ≤ r.stop)

theorem boundary_clamped (h : Boundary text n ∨ size text ≤ n) : Boundary text (min n (size text)) := by
  rcases h with h | h
  · rw [Nat.min_eq_left h.le]
    exact h
  · rw [Nat.min_eq_right h]
    exact boundary_size text

theorem span_merged (h : ∀ r ∈ ranges, OnCharacters text r) :
    ∀ r ∈ merged ranges (size text), Span text r := by
  obtain ⟨-, -, hmem⟩ := clamped_spec ranges (size text) rfl
  apply span_foldl_push (by simp)
  intro r hr
  obtain ⟨s, hs, rfl, hlt⟩ := (hmem r).mp hr
  exact ⟨hlt.le, boundary_clamped (h s hs).1, boundary_clamped (h s hs).2⟩

/-- A stretch of the text that no range touches, with a range or an end of the text on either
side. -/
structure Stretch (text : List Char) (ranges : List Range) (s : Range) : Prop where
  lt : s.start < s.stop
  le : s.stop ≤ size text
  free : ∀ n, s.Contains n → ¬ Covers ranges n
  first : s.start = 0 ∨ Covers ranges (s.start - 1)
  last : s.stop = size text ∨ Covers ranges s.stop

theorem mem_segments :
    s ∈ segments (merged ranges (size text)) (size text) ↔ Stretch text ranges s := by
  obtain ⟨hsep, hle, hcov⟩ := merged_spec ranges (size text)
  rw [segments, mem_gaps hsep (fun _ _ => Nat.zero_le _) hle]
  constructor
  · intro h
    have hlt := h.lt
    have hstop := h.le
    refine ⟨hlt, hstop, ?_, ?_, ?_⟩
    · intro n hn hcovers
      exact h.free n hn ((hcov n (hn.2.trans_le hstop)).mpr hcovers)
    · rcases h.first with hfirst | ⟨-, hfirst⟩
      · exact Or.inl hfirst
      · exact Or.inr ((hcov _ (by omega)).mp hfirst)
    · by_cases hlast : s.stop = size text
      · exact Or.inl hlast
      · exact Or.inr ((hcov _ (by omega)).mp (h.last.resolve_left hlast))
  · intro h
    have hlt := h.lt
    have hstop := h.le
    refine ⟨hlt, hstop, ?_, ?_, ?_⟩
    · intro n hn hcovers
      exact h.free n hn ((hcov n (hn.2.trans_le hstop)).mp hcovers)
    · by_cases hfirst : s.start = 0
      · exact Or.inl hfirst
      · exact Or.inr ⟨by omega, (hcov _ (by omega)).mpr (h.first.resolve_left hfirst)⟩
    · by_cases hlast : s.stop = size text
      · exact Or.inl hlast
      · exact Or.inr ((hcov _ (by omega)).mpr (h.last.resolve_left hlast))

theorem segments_ascending (text : List Char) (ranges : List Range) :
    (segments (merged ranges (size text)) (size text)).Pairwise fun s t => s.stop < t.start := by
  obtain ⟨hsep, hle, -⟩ := merged_spec ranges (size text)
  exact gaps_ascending hsep (fun _ _ => Nat.zero_le _) hle

/-! ## The joins -/

theorem toU32_eq_some {m : ℕ} : toU32 n = some m ↔ n < 2 ^ 32 ∧ n = m := by
  rw [toU32]
  split_ifs with h
  · rw [Option.some.injEq, and_iff_right h]
  · exact ⟨fun hm => (by cases hm), fun hm => absurd hm.1 h⟩

theorem scan_ascending (model : PhraseModel) (text : List Char) :
    (model.scan text).Pairwise (fun a b => a.1 < b.1) ∧
      ∀ entry ∈ model.scan text, 0 < entry.1 ∧ entry.1 < size text := by
  have hrange : ∀ i ∈ (List.range text.length).tail, 0 < i ∧ i < text.length := by
    rw [List.tail_range]
    intro i hi
    rw [List.mem_range'_1] at hi
    omega
  constructor
  · rw [PhraseModel.scan, List.pairwise_map]
    refine List.Pairwise.imp_of_mem ?_
      (List.pairwise_lt_range (n := text.length) |>.sublist (List.tail_sublist _))
    intro i j _ hj hlt
    exact size_take_lt hlt (hrange j hj).2.le
  · intro entry hentry
    obtain ⟨i, hi, rfl⟩ := List.mem_map.mp hentry
    obtain ⟨hpos, hlt⟩ := hrange i hi
    have hstart : size (text.take 0) < size (text.take i) := size_take_lt hpos hlt.le
    have hstop : size (text.take i) < size (text.take text.length) := size_take_lt hlt le_rfl
    rw [List.take_length] at hstop
    exact ⟨(Nat.zero_le _).trans_lt hstart, hstop⟩

theorem joins_ascending (model : PhraseModel) (text : List Char) :
    (model.joins text).Pairwise (· < ·) ∧
      ∀ offset ∈ model.joins text, 0 < offset ∧ offset < size text := by
  have hentry : ∀ {entry : ℕ × Bool × Bool} {offset : ℕ},
      (if entry.2.1 && !entry.2.2 then toU32 entry.1 else none) = some offset →
        entry.1 = offset := by
    intro entry offset h
    split_ifs at h
    exact (toU32_eq_some.mp h).2
  obtain ⟨hasc, hin⟩ := scan_ascending model text
  rw [PhraseModel.joins]
  split_ifs
  · constructor
    · rw [List.pairwise_filterMap]
      apply hasc.imp
      intro a b hab offset hoffset offset' hoffset'
      rw [← hentry hoffset, ← hentry hoffset']
      exact hab
    · intro offset hoffset
      obtain ⟨entry, hmem, hoffset⟩ := List.mem_filterMap.mp hoffset
      rw [← hentry hoffset]
      exact hin entry hmem
  · simp

def positions (model : PhraseModel) (text : List Char) (s : Range) : List ℕ :=
  (model.joins ((slice text s.start s.stop).getD [])).map (· + s.start)

theorem positions_inside {p : ℕ} (hs : Span text s) (hp : p ∈ positions model text s) :
    s.start < p ∧ p < s.stop := by
  obtain ⟨offset, hoffset, rfl⟩ := List.mem_map.mp hp
  obtain ⟨stretch, hslice⟩ := hs.slice
  rw [hslice, Option.getD_some] at hoffset
  have hin := (joins_ascending model stretch).2 offset hoffset
  obtain ⟨_, _, _, _, hsize⟩ := slice_eq_some.mp hslice
  omega

theorem positions_ascending (model : PhraseModel) (text : List Char) (s : Range) :
    (positions model text s).Pairwise (· < ·) := by
  rw [positions, List.pairwise_map]
  apply (joins_ascending ..).1.imp
  intro a b hab
  omega

theorem stretchJoins_eq (hs : Span text s) : stretchJoins model shift text s =
    some ((positions model text s).filterMap fun p => toU32 ((p + shift) % 2 ^ 64)) := by
  obtain ⟨stretch, hslice⟩ := hs.slice
  rw [stretchJoins, hslice, Option.map_some, positions, hslice, Option.getD_some,
    List.filterMap_map]
  rfl

def moved (model : PhraseModel) (ask : Ask) (stretches : List Range) : List ℕ :=
  (stretches.flatMap (positions model ask.text)).filterMap fun p =>
    toU32 ((p + ask.shift) % 2 ^ 64)

theorem computed_eq (h : ∀ r ∈ ask.ranges, OnCharacters ask.text r) :
    computed model ask.shift (merged ask.ranges (size ask.text)) ask.text =
      some (if moved model ask (segments (merged ask.ranges (size ask.text)) (size ask.text)) = []
        then none
        else some (moved model ask
          (segments (merged ask.ranges (size ask.text)) (size ask.text)))) := by
  have hspan : ∀ s ∈ segments (merged ask.ranges (size ask.text)) (size ask.text),
      Span ask.text s := span_gaps (span_merged h) (boundary_zero _)
  rw [computed, Arrange.mapM_some fun s hs => stretchJoins_eq (hspan s hs), Option.map_some]
  have hflatten : ((segments (merged ask.ranges (size ask.text)) (size ask.text)).map fun s =>
      (positions model ask.text s).filterMap fun p => toU32 ((p + ask.shift) % 2 ^ 64)).flatten =
      moved model ask (segments (merged ask.ranges (size ask.text)) (size ask.text)) := by
    rw [moved, List.filterMap_flatMap, List.flatMap_def]
  rw [hflatten]

/-! ## The key -/

theorem digits_append_inj {a b : ℕ} {c d : Char} {x y : List Char} (hc : c.isDigit = false)
    (hd : d.isDigit = false) (h : Nat.toDigits 10 a ++ c :: x = Nat.toDigits 10 b ++ d :: y) :
    a = b ∧ c = d ∧ x = y := by
  have hdigits : ∀ n, ∀ e ∈ Nat.toDigits 10 n, e.isDigit = true :=
    fun n e he => Nat.isDigit_of_mem_toDigits (by decide) (by decide) he
  have htake := congrArg (List.takeWhile Char.isDigit) h
  rw [List.takeWhile_append_of_pos (hdigits a), List.takeWhile_append_of_pos (hdigits b),
    List.takeWhile_cons_of_neg (by simp [hc]), List.takeWhile_cons_of_neg (by simp [hd]),
    List.append_nil, List.append_nil] at htake
  rw [htake] at h
  obtain ⟨hcd, hxy⟩ := List.cons.inj (List.append_cancel_left h)
  have hvalue := congrArg (Nat.ofDigitChars 10 · 0) htake
  simp only [Nat.ofDigitChars_toDigits (b := 10) (by decide) (by decide)] at hvalue
  exact ⟨hvalue, hcd, hxy⟩

theorem digits_ne_cons {a : ℕ} {c : Char} {x y : List Char} (hc : c.isDigit = false) :
    c :: x ≠ Nat.toDigits 10 a ++ y := by
  intro h
  cases hdigits : Nat.toDigits 10 a with
  | nil => exact Nat.toDigits_ne_nil hdigits
  | cons e digits =>
    have he : e.isDigit = true := Nat.isDigit_of_mem_toDigits (b := 10) (n := a) (by decide)
      (by decide) (by simp [hdigits])
    rw [hdigits, List.cons_append] at h
    rw [← (List.cons.inj h).1, hc] at he
    cases he

theorem cacheKey_injective :
    Function.Injective fun ask : ℕ × List Range × List Char => cacheKey ask.1 ask.2.1 ask.2.2 := by
  rintro ⟨shift, ranges, text⟩ ⟨shift', ranges', text'⟩ h
  simp only [cacheKey, List.append_assoc, List.cons_append] at h
  obtain ⟨rfl, -, hrest⟩ := digits_append_inj (by decide) (by decide) h
  clear h
  simp only [Prod.mk.injEq, true_and]
  induction ranges generalizing ranges' with
  | nil =>
    cases ranges' with
    | nil => simpa using hrest
    | cons r ranges' =>
      simp only [List.flatMap_nil, List.nil_append, List.flatMap_cons, List.append_assoc] at hrest
      exact absurd hrest (digits_ne_cons (by decide))
  | cons r ranges ih =>
    cases ranges' with
    | nil =>
      simp only [List.flatMap_nil, List.nil_append, List.flatMap_cons, List.append_assoc] at hrest
      exact absurd hrest.symm (digits_ne_cons (by decide))
    | cons r' ranges' =>
      simp only [List.flatMap_cons, List.append_assoc, List.cons_append, List.nil_append] at hrest
      obtain ⟨hstart, -, hrest⟩ := digits_append_inj (by decide) (by decide) hrest
      obtain ⟨hstop, -, hrest⟩ := digits_append_inj (by decide) (by decide) hrest
      obtain ⟨rfl, rfl⟩ := ih ranges' hrest
      cases r
      cases r'
      simp_all

/-! ## The cache -/

def found (model : PhraseModel) (ask : ℕ × List Range × List Char) : Option (List ℕ) :=
  (computed model ask.1 ask.2.1 ask.2.2).getD none

/-- The cache holds only what would be found again, and not too much of it. -/
structure Sound (model : PhraseModel) (cache : PhraseJoins) : Prop where
  honest : Memo.Honest (found model) (fun ask => cacheKey ask.1 ask.2.1 ask.2.2) cache
  short : cache.entries.length ≤ phraseCapacity

theorem sound_empty (model : PhraseModel) : Sound model ∅ := ⟨Memo.honest_empty, Nat.zero_le _⟩

def answer (model : PhraseModel) (ask : Ask) : Option (List ℕ) :=
  if ask.enabled then found model (ask.shift, merged ask.ranges (size ask.text), ask.text) else none

variable {cache : PhraseJoins}

theorem Sound.joins (hcache : Sound model cache) (hask : ∀ r ∈ ask.ranges, OnCharacters ask.text r) :
    ∃ next, PhraseJoins.joins model cache ask = some (answer model ask, next) ∧ Sound model next := by
  rw [PhraseJoins.joins, answer]
  cases ask.enabled with
  | false => exact ⟨∅, rfl, sound_empty model⟩
  | true =>
    rw [if_neg (by decide), if_pos rfl]
    dsimp only
    cases hlookup : cache.lookup
        (cacheKey ask.shift (merged ask.ranges (size ask.text)) ask.text) with
    | some joins =>
      have heq := hcache.honest.eq cacheKey_injective
        (a := (ask.shift, merged ask.ranges (size ask.text), ask.text)) hlookup
      exact ⟨cache, by rw [← heq], hcache⟩
    | none =>
      have hfound : found model (ask.shift, merged ask.ranges (size ask.text), ask.text) =
          _ := congrArg (·.getD none) (computed_eq hask)
      rw [Option.getD_some] at hfound
      rw [computed_eq hask, ← hfound]
      exact ⟨_, rfl,
        hcache.honest.keep (ask.shift, merged ask.ranges (size ask.text), ask.text),
        Memo.length_keep (by decide)⟩

theorem sound_state {asks : List Ask} (hcache : Sound model cache)
    (hasks : ∀ ask ∈ asks, ∀ r ∈ ask.ranges, OnCharacters ask.text r) :
    ∃ next, asks.foldlM (fun cache ask => (PhraseJoins.joins model cache ask).map Prod.snd) cache =
      some next ∧ Sound model next := by
  induction asks generalizing cache with
  | nil => exact ⟨cache, rfl, hcache⟩
  | cons ask asks ih =>
    obtain ⟨hask, hasks⟩ := List.forall_mem_cons.mp hasks
    obtain ⟨mid, hmid, hsound⟩ := hcache.joins hask
    obtain ⟨next, hnext, hsound⟩ := ih hsound hasks
    refine ⟨next, ?_, hsound⟩
    rw [List.foldlM_cons, hmid]
    exact hnext

/-! ## What is answered -/

theorem moved_ascending (ask : Ask) {stretches : List Range}
    (hspan : ∀ s ∈ stretches, Span ask.text s)
    (hasc : stretches.Pairwise fun s t => s.stop < t.start) :
    (moved model ask stretches).Pairwise (· < ·) := by
  have hin : ∀ p ∈ stretches.flatMap (positions model ask.text), p < size ask.text := by
    intro p hp
    obtain ⟨s, hs, hp⟩ := List.mem_flatMap.mp hp
    exact (positions_inside (hspan s hs) hp).2.trans_le (hspan s hs).stop.le
  have hpositions : (stretches.flatMap (positions model ask.text)).Pairwise (· < ·) := by
    rw [List.pairwise_flatMap]
    refine ⟨fun s _ => positions_ascending model ask.text s, ?_⟩
    refine List.Pairwise.imp_of_mem ?_ hasc
    intro s t hs ht hst p hp q hq
    have hps := (positions_inside (hspan s hs) hp).2
    have hqt := (positions_inside (hspan t ht) hq).1
    omega
  rw [moved, List.pairwise_filterMap]
  refine List.Pairwise.imp_of_mem ?_ hpositions
  intro p q hp hq hpq offset hoffset offset' hoffset'
  obtain ⟨hlt, rfl⟩ := toU32_eq_some.mp hoffset
  obtain ⟨hlt', rfl⟩ := toU32_eq_some.mp hoffset'
  -- Where only the greater one wraps around, the smaller one does not fit.
  have := hin p hp
  have := hin q hq
  have := ask.shift_lt
  have := ask.text_lt
  omega

def Uncached (model : PhraseModel) (ask : Ask) (joins : Option (List ℕ)) : Prop :=
  ∃ stretches : List Range, (∀ s, s ∈ stretches ↔ Stretch ask.text ask.ranges s) ∧
    stretches.Pairwise (fun s t => s.stop < t.start) ∧
    (∀ s ∈ stretches, (slice ask.text s.start s.stop).isSome = true) ∧
    joins = if moved model ask stretches = [] then none else some (moved model ask stretches)

theorem uncached_answer (hask : ∀ r ∈ ask.ranges, OnCharacters ask.text r)
    (henabled : ask.enabled = true) : Uncached model ask (answer model ask) := by
  refine ⟨_, fun s => mem_segments, segments_ascending .., ?_, ?_⟩
  · intro s hs
    obtain ⟨stretch, hslice⟩ := (span_gaps (span_merged hask) (boundary_zero _) s hs).slice
    rw [hslice]
    rfl
  · rw [answer, if_pos henabled, found, computed_eq hask, Option.getD_some]

theorem Uncached.outside {offsets : List ℕ} (h : Uncached model ask (some offsets)) :
    offsets.Pairwise (· < ·) ∧ ∀ offset ∈ offsets, ∃ p, offset = (p + ask.shift) % 2 ^ 64 ∧
      ∀ r ∈ ask.ranges, ¬ (r.start < p ∧ p < r.stop) := by
  obtain ⟨stretches, hmem, hasc, hslice, heq⟩ := h
  have hspan : ∀ s ∈ stretches, Span ask.text s := by
    intro s hs
    obtain ⟨m, hm⟩ := Option.isSome_iff_exists.mp (hslice s hs)
    obtain ⟨p, q, htext, hstart, hstop⟩ := slice_eq_some.mp hm
    have := span_append p m q
    rwa [← htext, hstop, hstart] at this
  split_ifs at heq
  cases heq
  refine ⟨moved_ascending ask hspan hasc, ?_⟩
  intro offset hoffset
  obtain ⟨p, hp, hoffset⟩ := List.mem_filterMap.mp hoffset
  refine ⟨p, (toU32_eq_some.mp hoffset).2.symm, ?_⟩
  rintro r hr ⟨hstart, hstop⟩
  obtain ⟨s, hs, hp⟩ := List.mem_flatMap.mp hp
  have hin := positions_inside (hspan s hs) hp
  exact ((hmem s).mp hs).free p ⟨hin.1.le, hin.2⟩ ⟨r, hr, hstart.le, hstop⟩

/-- The cache of joins is transparent: whatever was asked before, a call is answered as without a
cache. It answers the joins of the stretches outside the protected ranges, moved by their starts
and the shift; those that do not fit into 32 bits are left out. No two answers share an entry, and
the cache stays small. -/
theorem phrase_cache_transparent (model : PhraseModel) (asks : List Ask) (ask : Ask)
    (hasks : ∀ a ∈ asks ++ [ask], ∀ r ∈ a.ranges, OnCharacters a.text r) :
    (∃ cache joins next, PhraseJoins.state model asks = some cache ∧
      PhraseJoins.joins model cache ask = some (joins, next) ∧
      next.entries.length ≤ phraseCapacity ∧
      (ask.enabled = false → joins = none) ∧
      (ask.enabled = true → Uncached model ask joins ∧
        ∀ offsets, joins = some offsets → offsets.Pairwise (· < ·) ∧
          ∀ offset ∈ offsets, ∃ p, offset = (p + ask.shift) % 2 ^ 64 ∧
            ∀ r ∈ ask.ranges, ¬ (r.start < p ∧ p < r.stop))) ∧
    ∀ shift shift' ranges ranges' text text',
      cacheKey shift ranges text = cacheKey shift' ranges' text' →
        shift = shift' ∧ ranges = ranges' ∧ text = text' := by
  constructor
  · have hask : ∀ r ∈ ask.ranges, OnCharacters ask.text r := hasks ask (by simp)
    obtain ⟨cache, hstate, hsound⟩ := sound_state (sound_empty model)
      fun a ha => hasks a (List.mem_append_left _ ha)
    obtain ⟨next, hjoins, hnext⟩ := hsound.joins hask
    refine ⟨cache, answer model ask, next, hstate, hjoins, hnext.short, ?_, ?_⟩
    · intro hoff
      rw [answer, hoff, if_neg Bool.false_ne_true]
    · intro hon
      have huncached : Uncached model ask (answer model ask) := uncached_answer hask hon
      refine ⟨huncached, ?_⟩
      intro offsets heq
      rw [heq] at huncached
      exact huncached.outside
  · intro shift shift' ranges ranges' text text' h
    have heq : (shift, ranges, text) = (shift', ranges', text') := cacheKey_injective h
    simpa using heq

private def noWeights : PhraseModel := ⟨fun _ _ => none, 0⟩

private def shifted (shift : ℕ) (h : shift < 2 ^ 64) : Ask :=
  ⟨true, shift, ['あ', 'あ'], [⟨6, 9⟩], h, by decide⟩

private theorem shifted_size (shift : ℕ) (h : shift < 2 ^ 64) : size (shifted shift h).text = 6 :=
  show size ['あ', 'あ'] = 6 by decide

private theorem shifted_ranges (shift : ℕ) (h : shift < 2 ^ 64) :
    ∀ r ∈ (shifted shift h).ranges, OnCharacters (shifted shift h).text r := by
  intro r hr
  obtain rfl := List.mem_singleton.mp hr
  rw [OnCharacters, shifted_size]
  exact ⟨Or.inr (by decide), Or.inr (by decide)⟩

private theorem shifted_stretch (shift : ℕ) (h : shift < 2 ^ 64) :
    Stretch (shifted shift h).text (shifted shift h).ranges ⟨0, 6⟩ := by
  have hsize := shifted_size shift h
  refine ⟨by decide, hsize.ge, ?_, Or.inl rfl, Or.inl hsize.symm⟩
  rintro n ⟨-, hn⟩ ⟨r, hr, hstart, -⟩
  obtain rfl := List.mem_singleton.mp hr
  exact absurd hn (Nat.not_lt.mpr hstart)

/-- Moved far enough, a join does not fit and is not answered. -/
theorem shifted_join_lost : ¬ ∀ (model : PhraseModel) (ask : Ask),
    (∀ r ∈ ask.ranges, OnCharacters ask.text r) → ask.enabled = true →
      ∃ stretches : List Range, (∀ s, s ∈ stretches ↔ Stretch ask.text ask.ranges s) ∧
        (PhraseJoins.joins model ∅ ask).map Prod.fst =
          some (if stretches.flatMap (positions model ask.text) = [] then none
            else some ((stretches.flatMap (positions model ask.text)).map (· + ask.shift))) := by
  intro h
  obtain ⟨stretches, hmem, heq⟩ := h noWeights (shifted (2 ^ 32) (by decide))
    (shifted_ranges _ _) rfl
  have hwhole := (hmem ⟨0, 6⟩).mpr (shifted_stretch _ _)
  have hposition : 3 ∈ stretches.flatMap (positions noWeights ['あ', 'あ']) :=
    List.mem_flatMap.mpr ⟨_, hwhole, by decide +kernel⟩
  have hnone : (PhraseJoins.joins noWeights ∅ (shifted (2 ^ 32) (by decide))).map Prod.fst =
      some none := by decide +kernel
  have hne : stretches.flatMap (positions noWeights (shifted (2 ^ 32) (by decide)).text) ≠ [] :=
    List.ne_nil_of_mem hposition
  rw [hnone, if_neg hne] at heq
  cases heq

theorem phrase_cache_transparent_shifted :
    ∃ cache joins next, PhraseJoins.state noWeights [shifted 4 (by decide)] = some cache ∧
      PhraseJoins.joins noWeights cache (shifted 5 (by decide)) = some (joins, next) ∧
      Uncached noWeights (shifted 5 (by decide)) joins := by
  obtain ⟨⟨cache, joins, next, hstate, hjoins, -, -, hon⟩, -⟩ := phrase_cache_transparent noWeights
    [shifted 4 (by decide)] (shifted 5 (by decide)) (by
      intro ask hask
      simp only [List.singleton_append, List.mem_cons, List.not_mem_nil, or_false] at hask
      rcases hask with rfl | rfl
      · exact shifted_ranges 4 _
      · exact shifted_ranges 5 _)
  exact ⟨cache, joins, next, hstate, hjoins, (hon rfl).1⟩

end CayenChat.Editing
