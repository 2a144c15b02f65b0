import CayenChat.Lib.Utf8
import CayenChat.Wire.Text

/-! # What a click selects and a key moves over

The word, phrase or line around a position, and the positions that the arrow
keys go to. How a text falls into characters as they are seen, into words and
into segments, and where a phrase of Japanese starts, is a parameter.
-/

namespace CayenChat.Editing

open Utf8

/-- What is looked up in tables of Unicode and in the model of Japanese phrases. -/
structure Script where
  /-- Where the characters as they are seen start. -/
  graphemes : List Char → List ℕ
  /-- The words, and the segments between their bounds. -/
  words : List Char → List Range
  segments : List Char → List Range
  /-- Whether a phrase starts with the character. -/
  phraseStarts : List Char → ℕ → Bool
  alphanumeric : Char → Bool
  lowercase : List Char → List Char
  grapheme_boundary : ∀ s, ∀ n ∈ graphemes s, Boundary s n
  word_span : ∀ s, ∀ r ∈ words s, Span s r
  segment_span : ∀ s, ∀ r ∈ segments s, Span s r

/-- How far a click selects. -/
inductive SelectUnit
  /-- A phrase or word. -/
  | word
  | line
  deriving DecidableEq

namespace SelectUnit

def ofClick : ℕ → Option SelectUnit
  | 0 | 1 => none
  | 2 => some .word
  | _ => some .line

def isKana (c : Char) : Bool :=
  let n := c.toNat
  0x3041 ≤ n && n ≤ 0x30FF || 0x31F0 ≤ n && n ≤ 0x31FF || 0xFF66 ≤ n && n ≤ 0xFF9F

def isJapanese (c : Char) : Bool :=
  let n := c.toNat
  isKana c || 0x3000 ≤ n && n ≤ 0x303F || 0x3400 ≤ n && n ≤ 0x4DBF ||
    0x4E00 ≤ n && n ≤ 0x9FFF || 0xF900 ≤ n && n ≤ 0xFAFF || 0xFF00 ≤ n && n ≤ 0xFF9F ||
    0x20000 ≤ n && n ≤ 0x2FFFF

variable (script : Script)

def boundaries (text : List Char) : List ℕ :=
  if text.any isKana then
    ((List.range text.length).tail.filter (script.phraseStarts text)).map fun i => size (text.take i)
  else []

def isSymbol (c : Char) : Bool := !isWhitespace c && !script.alphanumeric c && !isJapanese c

def run (line : List Char) (at_ : ℕ) (member : Char → Bool) : Option Range := do
  let (before, after) ← split line at_
  pure ⟨size (before.reverse.dropWhile member), at_ + size (after.takeWhile member)⟩

def phraseRange (line : List Char) (at_ : ℕ) : Option Range := do
  let span ← run line at_ isJapanese
  let here := at_ - span.start
  let text ← slice line span.start span.stop
  let start := ((boundaries script text).reverse.find? (· ≤ here)).getD 0
  let stop := ((boundaries script text).find? (here < ·)).getD (span.stop - span.start)
  pure ⟨span.start + start, span.start + stop⟩

def hit (line before after : List Char) : Option (ℕ × Char) :=
  match after.head? with
  | some c => some (size before, c)
  | none => line.getLast?.map fun c => (size line - c.utf8Size, c)

/-- The word that a character stands in. -/
def wordAt (line : List Char) (at_ : ℕ) (c : Char) : Option Range :=
  if isWhitespace c then run line at_ isWhitespace
  else if isJapanese c then phraseRange script line at_
  else do
    let found := ((script.segments line).find? fun r => r.start ≤ at_ && at_ < r.stop).getD (.at at_)
    let segment ← slice line found.start found.stop
    if segment.any script.alphanumeric then pure found else run line at_ (isSymbol script)

def wordRange (line : List Char) (offset : ℕ) : Option Range := do
  let (before, after) ← split line offset
  match hit line before after with
  | none => pure (.at offset)
  | some (at_, c) => wordAt script line at_ c

def lineStart (before : List Char) : ℕ := size (before.reverse.dropWhile (· != '\n'))

def lineRest (after : List Char) : ℕ := size (after.takeWhile (· != '\n'))

/-- What the unit selects around a position. -/
def range (text : List Char) (offset : ℕ) (unit : SelectUnit) : Option Range := do
  let offset := floor text (min offset (size text))
  let (before, after) ← split text offset
  let start := lineStart before
  let line ← slice text start (offset + lineRest after)
  let inner ← match unit with
    | .line => pure ⟨0, size line⟩
    | .word => wordRange script line (offset - start)
  pure ⟨start + inner.start, start + inner.stop⟩

/-! ### They select whole characters -/

variable {script} {line text before after : List Char} {n offset : ℕ} {member : Char → Bool}

theorem run_span (h : Boundary line n) (member : Char → Bool) :
    ∃ r, run line n member = some r ∧ Span line r ∧ r.start ≤ n ∧ n ≤ r.stop := by
  obtain ⟨p, q, rfl, rfl⟩ := h
  have hstart := boundary_dropWhile_reverse p member
  have hstop := boundary_takeWhile q member
  refine ⟨_, by rw [run, split_append]; rfl, ⟨?_, ?_, ?_⟩, hstart.le, Nat.le_add_right ..⟩
  · exact hstart.le.trans (Nat.le_add_right ..)
  · exact hstart.append_left q
  · exact hstop.append_right p

theorem boundaries_boundary {b : ℕ} (h : b ∈ boundaries script text) : Boundary text b := by
  unfold boundaries at h
  split at h
  · obtain ⟨i, -, rfl⟩ := List.mem_map.mp h
    exact ⟨text.take i, text.drop i, (List.take_append_drop i text).symm, rfl⟩
  · cases h

theorem phraseRange_span (h : Boundary line n) :
    ∃ r, phraseRange script line n = some r ∧ Span line r := by
  obtain ⟨span, hrun, hspan, hle, hge⟩ := run_span h isJapanese
  obtain ⟨p, m, q, rfl, hstart, hstop⟩ := hspan.parts
  have hslice : slice (p ++ m ++ q) span.start span.stop = some m :=
    slice_eq_some.mpr ⟨p, q, rfl, hstart, hstop⟩
  refine ⟨_, by
    rw [phraseRange, hrun]
    simp only [Option.bind_eq_bind, Option.bind_some, hslice]
    rfl, ?_⟩
  rw [← hstart]
  apply Span.within (r := ⟨_, _⟩)
  refine ⟨?_, ?_, ?_⟩
  · have hfirst : ((boundaries script m).reverse.find? (· ≤ n - size p)).getD 0 ≤ n - size p := by
      cases hf : (boundaries script m).reverse.find? (· ≤ n - size p) with
      | none => exact Nat.zero_le _
      | some b => simpa using List.find?_some hf
    have hlast : n - size p ≤
        ((boundaries script m).find? (n - size p < ·)).getD (span.stop - size p) := by
      cases hf : (boundaries script m).find? (n - size p < ·) with
      | none =>
        simp only [Option.getD_none]
        omega
      | some b =>
        have hb : n - size p < b := by simpa using List.find?_some hf
        exact hb.le
    exact hfirst.trans hlast
  · apply boundary_find? _ (boundary_zero m)
    exact fun b hb => boundaries_boundary (List.mem_reverse.mp hb)
  · apply boundary_find? fun b hb => boundaries_boundary hb
    rw [← hstop, Nat.add_sub_cancel_left]
    exact boundary_size m

theorem hit_boundary {c : Char} (h : hit (before ++ after) before after = some (n, c)) :
    Boundary (before ++ after) n := by
  unfold hit at h
  cases after with
  | cons c' after =>
    cases h
    exact boundary_append ..
  | nil =>
    rw [List.append_nil] at h ⊢
    rcases before.eq_nil_or_concat' with rfl | ⟨l, d, rfl⟩
    · cases h
    · simp at h
      obtain ⟨rfl, -⟩ := h
      exact boundary_append ..

theorem wordAt_span (script : Script) (h : Boundary line n) (c : Char) :
    ∃ r, wordAt script line n c = some r ∧ Span line r := by
  unfold wordAt
  split
  · obtain ⟨r, hr, hspan, -⟩ := run_span h isWhitespace
    exact ⟨r, hr, hspan⟩
  split
  · exact phraseRange_span h
  have hfound : Span line (((script.segments line).find? fun r =>
      r.start ≤ n && n < r.stop).getD (.at n)) := by
    cases hf : (script.segments line).find? fun r => r.start ≤ n && n < r.stop with
    | none => exact h.span
    | some r => exact script.segment_span line r (List.mem_of_find?_eq_some hf)
  obtain ⟨segment, hsegment⟩ := hfound.slice
  simp only [hsegment, Option.bind_eq_bind, Option.bind_some]
  split
  · exact ⟨_, rfl, hfound⟩
  · obtain ⟨r, hr, hspan, -⟩ := run_span h (isSymbol script)
    exact ⟨r, hr, hspan⟩

theorem wordRange_span (script : Script) (h : Boundary line n) :
    ∃ r, wordRange script line n = some r ∧ Span line r := by
  obtain ⟨p, q, rfl, rfl⟩ := id h
  rw [wordRange, split_append]
  simp only [Option.bind_eq_bind, Option.bind_some]
  cases hh : hit (p ++ q) p q with
  | none => exact ⟨_, rfl, h.span⟩
  | some found => exact wordAt_span script (hit_boundary hh) found.2

theorem lineStart_le (before : List Char) : lineStart before ≤ size before :=
  (boundary_dropWhile_reverse before _).le

theorem line_parts (p q : List Char) :
    ∃ a b c d, p = a ++ b ∧ q = c ++ d ∧ size a = lineStart p ∧ size c = lineRest q := by
  obtain ⟨a, b, hp, ha⟩ := boundary_dropWhile_reverse p (· != '\n')
  obtain ⟨c, d, hq, hc⟩ := boundary_takeWhile q (· != '\n')
  exact ⟨a, b, c, d, hp, hq, ha, hc⟩

theorem range_span (script : Script) (text : List Char) (offset : ℕ) (unit : SelectUnit) :
    ∃ r, range script text offset unit = some r ∧ Span text r := by
  obtain ⟨p, q, htext, hp⟩ := boundary_floor text (min offset (size text))
  obtain ⟨a, b, c, d, rfl, rfl, ha, hc⟩ := line_parts p q
  have hparts : text = a ++ (b ++ c) ++ d := by
    rw [htext]
    simp
  have hsplit : split text (floor text (min offset (size text))) = some (a ++ b, c ++ d) :=
    split_eq_some.mpr ⟨htext, hp⟩
  have hline : slice text (lineStart (a ++ b))
      (floor text (min offset (size text)) + lineRest (c ++ d)) = some (b ++ c) :=
    slice_eq_some.mpr ⟨a, d, hparts, ha, by rw [← hp, ← hc, size_append, size_append]; omega⟩
  have hinner : ∀ r, Span (b ++ c) r →
      Span text ⟨lineStart (a ++ b) + r.start, lineStart (a ++ b) + r.stop⟩ := by
    intro r hr
    rw [hparts, ← ha]
    exact hr.within a d
  unfold range
  simp only [hsplit, hline, Option.bind_eq_bind, Option.bind_some]
  cases unit with
  | line =>
    exact ⟨_, rfl, hinner ⟨0, _⟩ ⟨Nat.zero_le _, boundary_zero _, boundary_size _⟩⟩
  | word =>
    have hhere : Boundary (b ++ c)
        (floor text (min offset (size text)) - lineStart (a ++ b)) := by
      rw [← hp, ← ha, size_append, Nat.add_sub_cancel_left]
      exact boundary_append b c
    obtain ⟨r, hr, hspan⟩ := wordRange_span script hhere
    exact ⟨_, by rw [hr]; rfl, hinner r hspan⟩

end SelectUnit

/-! ## Where the keys go -/

section Keys

variable (script : Script)

def previousBoundary (text : List Char) (offset : ℕ) : ℕ :=
  ((script.graphemes text).reverse.find? (· < offset)).getD 0

def nextBoundary (text : List Char) (offset : ℕ) : ℕ :=
  ((script.graphemes text).find? (offset < ·)).getD (size text)

def wordBoundaryLeft (text : List Char) (offset : ℕ) : ℕ :=
  (((script.words text).takeWhile (·.start < offset)).getLast?.map Range.start).getD 0

def wordBoundaryRight (text : List Char) (offset : ℕ) : ℕ :=
  (((script.words text).find? (offset < ·.stop)).map Range.stop).getD (size text)

def whitespaceAround (text : List Char) (offset : ℕ) : Option Range := do
  let (before, after) ← split text offset
  pure ⟨size (before.reverse.dropWhile isWhitespace),
    size text - size (after.dropWhile isWhitespace)⟩

def nicknameStart (text : List Char) (cursor : ℕ) : Option ℕ := do
  let (before, _) ← split text cursor
  pure (size (before.reverse.dropWhile fun c =>
    script.alphanumeric c || "_-[]\\`^\x7b\x7d|".toList.contains c))

def nicknameMatches (start : List Char) (members : List (List Char)) : List (List Char) :=
  if start.isEmpty then []
  else
    (members.map fun member => member.dropWhile fun c => "@+%&~".toList.contains c).filter
      fun nick => (script.lowercase start).isPrefixOf (script.lowercase nick)

variable {script} {text : List Char} {offset : ℕ}

theorem previousBoundary_boundary (script : Script) (text : List Char) (offset : ℕ) :
    Boundary text (previousBoundary script text offset) :=
  boundary_find? (fun n hn => script.grapheme_boundary text n (List.mem_reverse.mp hn))
    (boundary_zero text) _

theorem nextBoundary_boundary (script : Script) (text : List Char) (offset : ℕ) :
    Boundary text (nextBoundary script text offset) :=
  boundary_find? (script.grapheme_boundary text) (boundary_size text) _

theorem wordBoundaryLeft_boundary (script : Script) (text : List Char) (offset : ℕ) :
    Boundary text (wordBoundaryLeft script text offset) := by
  unfold wordBoundaryLeft
  cases h : ((script.words text).takeWhile (·.start < offset)).getLast? with
  | none => exact boundary_zero text
  | some r =>
    have hr := (List.takeWhile_sublist _).subset (List.mem_of_getLast? h)
    exact (script.word_span text r hr).start

theorem wordBoundaryRight_boundary (script : Script) (text : List Char) (offset : ℕ) :
    Boundary text (wordBoundaryRight script text offset) := by
  unfold wordBoundaryRight
  cases h : (script.words text).find? (offset < ·.stop) with
  | none => exact boundary_size text
  | some r => exact (script.word_span text r (List.mem_of_find?_eq_some h)).stop

theorem whitespaceAround_span (h : Boundary text offset) :
    ∃ r, whitespaceAround text offset = some r ∧ Span text r := by
  obtain ⟨p, q, rfl, rfl⟩ := h
  have hstart := boundary_dropWhile_reverse p isWhitespace
  have hstop := boundary_takeWhile q isWhitespace
  have hrest : size q = size (q.takeWhile isWhitespace) + size (q.dropWhile isWhitespace) := by
    rw [← size_append, List.takeWhile_append_dropWhile]
  have heq : size (p ++ q) - size (q.dropWhile isWhitespace) =
      size p + size (q.takeWhile isWhitespace) := by
    rw [size_append]
    omega
  refine ⟨_, by rw [whitespaceAround, split_append]; rfl, ⟨?_, ?_, ?_⟩⟩
  · have hle := hstart.le
    dsimp only
    omega
  · exact hstart.append_left q
  · dsimp only
    rw [heq]
    exact hstop.append_right p

theorem nicknameStart_boundary (h : Boundary text offset) :
    ∃ n, nicknameStart script text offset = some n ∧ Boundary text n ∧ n ≤ offset := by
  obtain ⟨p, q, rfl, rfl⟩ := h
  have hstart := boundary_dropWhile_reverse p fun c =>
    script.alphanumeric c || "_-[]\\`^\x7b\x7d|".toList.contains c
  exact ⟨_, by rw [nicknameStart, split_append]; rfl, hstart.append_left q, hstart.le⟩

end Keys

end CayenChat.Editing
