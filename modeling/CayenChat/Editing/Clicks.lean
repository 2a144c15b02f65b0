import CayenChat.Editing.Operations
import CayenChat.Editing.Phrases

/-! # Units that a click selects

Each character of a line is selected by one of three rules. Units of one rule are equal or disjoint,
save that a run of symbols may overlap a word, and the selection of a drag is what its two units
span.
-/

namespace CayenChat.Editing
open Utf8 SelectUnit

variable {script : Script} {line text a l d : List Char} {member : Char → Bool} {c c' : Char}
  {n n' offset offset' : ℕ} {r r' : Range}

/-! ## Words of a line -/

/-- The rules by which the word at a character is selected. -/
inductive Rule
  | whiteSpace | japanese | other
  deriving DecidableEq

def ruleOf (c : Char) : Rule :=
  if isWhitespace c then .whiteSpace else if isJapanese c then .japanese else .other

/-- What is selected around a position of a line, by the rule of the character there. -/
inductive WordUnit (script : Script) (line : List Char) (n : ℕ) : Rule → Range → Prop
  | whiteSpace {r : Range} (hrun : MaximalRun line isWhitespace r) (hn : r.Contains n) :
    WordUnit script line n .whiteSpace r
  | japanese {span phrase : Range} {m : List Char}
    (hrun : MaximalRun line isJapanese span) (hspan : span.Contains n)
    (hm : slice line span.start span.stop = some m)
    (hphrase : phrase ∈ pieces 0 (boundaries script m) (size m))
    (hn : (phrase.shift span.start).Contains n) :
    WordUnit script line n .japanese (phrase.shift span.start)
  | segment {r : Range} {m : List Char} (hr : r ∈ script.segments line)
    (hm : slice line r.start r.stop = some m)
    (hword : m.any script.alphanumeric = true) (hn : r.Contains n) :
    WordUnit script line n .other r
  | symbols {r : Range} (hrun : MaximalRun line (isSymbol script) r) (hn : r.Contains n)
    (hplain : ∀ r' ∈ script.segments line, r'.Contains n →
      ∀ m, slice line r'.start r'.stop = some m → m.any script.alphanumeric = false) :
    WordUnit script line n .other r

theorem run_maximal (h : Boundary line n) (member : Char → Bool) :
    ∃ r, run line n member = some r ∧ MaximalRun line member r ∧ r.start ≤ n ∧ n ≤ r.stop := by
  obtain ⟨r, hrun, -, hstart, hstop⟩ := run_span h member
  refine ⟨r, hrun, ?_, hstart, hstop⟩
  obtain ⟨p, q, rfl, rfl⟩ := h
  rw [run, split_append] at hrun
  simp only [Option.bind_eq_bind, Option.bind_some, Option.pure_def, Option.some.injEq] at hrun
  have hp : p = (p.reverse.dropWhile member).reverse ++ (p.reverse.takeWhile member).reverse := by
    rw [← List.reverse_append, List.takeWhile_append_dropWhile, List.reverse_reverse]
  have hq : q = q.takeWhile member ++ q.dropWhile member := List.takeWhile_append_dropWhile.symm
  have hmiddle : ∀ c ∈ (p.reverse.takeWhile member).reverse ++ q.takeWhile member,
      member c = true := by
    intro c hc
    obtain hc | hc := List.mem_append.mp hc
    · exact List.mem_takeWhile_imp (List.mem_reverse.mp hc)
    · exact List.mem_takeWhile_imp hc
  have hlast : ∀ c, (p.reverse.dropWhile member).reverse.getLast? = some c →
      member c = false := by
    intro c hc
    have := List.head?_dropWhile_not member p.reverse
    rw [List.getLast?_reverse] at hc
    rw [hc] at this
    simpa using this
  have hhead : ∀ c, (q.dropWhile member).head? = some c → member c = false := by
    intro c hc
    have := List.head?_dropWhile_not member q
    rw [hc] at this
    simpa using this
  have hmax := maximalRun_append hmiddle hlast hhead
  have htext : p ++ q = (p.reverse.dropWhile member).reverse ++
      ((p.reverse.takeWhile member).reverse ++ q.takeWhile member) ++ q.dropWhile member := by
    conv_lhs => rw [hp, hq]
    simp
  have hsize : size p = size (p.reverse.dropWhile member) +
      size (p.reverse.takeWhile member) := by
    conv_lhs => rw [hp]
    simp
  rw [← htext, size_reverse, size_append, size_reverse, ← Nat.add_assoc, ← hsize] at hmax
  rwa [hrun] at hmax

theorem run_around (h : CharAt line n c) (hmember : member c = true) :
    ∃ r, run line n member = some r ∧ MaximalRun line member r ∧ r.Contains n := by
  obtain ⟨r, hrun, hmax, hstart, hstop⟩ := run_maximal h.boundary member
  refine ⟨r, hrun, hmax, hstart, ?_⟩
  rcases hstop.eq_or_lt with rfl | hlt
  · rw [hmax.behind c h] at hmember
    cases hmember
  · exact hlt

theorem phraseRange_unit (h : CharAt line n c) (hc : isJapanese c = true) :
    ∃ r, phraseRange script line n = some r ∧ WordUnit script line n .japanese r := by
  obtain ⟨span, hrun, hmax, hcontains⟩ := run_around h hc
  obtain ⟨m, hm⟩ := hmax.span.slice
  obtain ⟨p, q, -, hp, hstop⟩ := slice_eq_some.mp hm
  obtain ⟨hstart, hlt⟩ := id hcontains
  have hne : m ≠ [] := by
    rintro rfl
    rw [size_nil] at hstop
    omega
  obtain ⟨hascending, -⟩ := boundaries_ascending script hne
  obtain ⟨hmem, hpiece⟩ := find_mem_pieces hascending (Nat.zero_le (n - span.start))
    (show n - span.start < size m by omega)
  have hsize : span.stop - span.start = size m := by omega
  refine ⟨_, ?_, .japanese hmax hcontains hm hmem ?_⟩
  · rw [phraseRange, hrun]
    simp only [Option.bind_eq_bind, Option.bind_some, hm, hsize]
    rfl
  · obtain ⟨hfirst, hlast⟩ := hpiece
    refine ⟨?_, ?_⟩ <;> dsimp only [Range.shift] at * <;> omega

theorem wordAt_unit (hsegments : Partition (script.segments line) 0 (size line))
    (h : CharAt line n c) :
    ∃ r, wordAt script line n c = some r ∧ WordUnit script line n (ruleOf c) r := by
  unfold wordAt ruleOf
  split_ifs with hwhite hjapanese
  · obtain ⟨r, hr, hmax, hn⟩ := run_around h hwhite
    exact ⟨r, hr, .whiteSpace hmax hn⟩
  · exact phraseRange_unit h hjapanese
  obtain ⟨r₀, hr₀, hn₀⟩ := hsegments.exists_mem (Nat.zero_le n) h.lt_size
  obtain ⟨r, hfound⟩ : ∃ r, ((script.segments line).find? fun r => r.start ≤ n && n < r.stop) =
      some r := by
    rw [← Option.isSome_iff_exists, List.find?_isSome]
    exact ⟨r₀, hr₀, by simpa [Range.Contains] using hn₀⟩
  have hr := List.mem_of_find?_eq_some hfound
  have hn : r.Contains n := by simpa [Range.Contains] using List.find?_some hfound
  obtain ⟨m, hm⟩ := (script.segment_span line r hr).slice
  simp only [hfound, Option.getD_some, hm, Option.bind_eq_bind, Option.bind_some]
  split_ifs with hword
  · exact ⟨r, rfl, .segment hr hm hword hn⟩
  have hplain : m.any script.alphanumeric = false := Bool.eq_false_iff.mpr hword
  have hsymbol : isSymbol script c = true := by
    obtain ⟨p, q, rfl, hp, hstop⟩ := slice_eq_some.mp hm
    have hmem := (charAt_middle h (hp.trans_le hn.1) (hn.2.trans_eq hstop.symm)).mem
    have halpha := List.any_eq_false.mp hplain c hmem
    simp [isSymbol, hwhite, hjapanese, halpha]
  obtain ⟨r', hr', hmax, hn'⟩ := run_around h hsymbol
  refine ⟨r', hr', .symbols hmax hn' ?_⟩
  intro other hother hcontains m' hm'
  obtain rfl := hsegments.eq_of_mem hother hr hcontains hn
  rw [hm, Option.some.injEq] at hm'
  exact hm' ▸ hplain

variable {k k' : Rule}

theorem WordUnit.contains (h : WordUnit script line n k r) : r.Contains n := by
  cases h <;> assumption

theorem WordUnit.eq_or_disjoint (h : WordUnit script line n k r) (h' : WordUnit script line n' k r')
    (hk : k ≠ .other) : r = r' ∨ r.stop ≤ r'.start ∨ r'.stop ≤ r.start := by
  cases h with
  | whiteSpace hrun hn =>
    cases h' with
    | whiteSpace hrun' hn' =>
      obtain heq | hlt | hlt := hrun.eq_or_apart hrun'
      · exact .inl heq
      · exact .inr (.inl hlt.le)
      · exact .inr (.inr hlt.le)
  | @japanese span phrase m hrun hspan hm hphrase hn =>
    cases h' with
    | @japanese span' phrase' m' hrun' hspan' hm' hphrase' hn' =>
      have hparts : ∀ {span : Range} {m : List Char}, span.Contains n ∨ span.Contains n' →
          slice line span.start span.stop = some m →
          Partition (pieces 0 (boundaries script m) (size m)) 0 (size m) ∧
            span.start + size m = span.stop := by
        intro span m hcontains hm
        obtain ⟨p, q, -, hp, hstop⟩ := slice_eq_some.mp hm
        have hne : m ≠ [] := by
          rintro rfl
          rw [size_nil] at hstop
          obtain ⟨hle, hlt⟩ | ⟨hle, hlt⟩ := hcontains <;> omega
        obtain ⟨hascending, hbound⟩ := boundaries_ascending script hne
        exact ⟨partition_pieces hascending hbound, by omega⟩
      obtain ⟨hpart, hsize⟩ := hparts (.inl hspan) hm
      obtain ⟨hpart', hsize'⟩ := hparts (.inr hspan') hm'
      obtain rfl | hlt | hlt := hrun.eq_or_apart hrun'
      · obtain rfl : m = m' := Option.some.inj (hm.symm.trans hm')
        obtain rfl | hle | hle := hpart.eq_or_disjoint hphrase hphrase'
        · exact .inl rfl
        · exact .inr (.inl (Nat.add_le_add_left hle _))
        · exact .inr (.inr (Nat.add_le_add_left hle _))
      · have := hpart.stop_le hphrase
        refine .inr (.inl ?_)
        dsimp only [Range.shift]
        omega
      · have := hpart'.stop_le hphrase'
        refine .inr (.inr ?_)
        dsimp only [Range.shift]
        omega
  | segment => exact absurd rfl hk
  | symbols => exact absurd rfl hk

theorem WordUnit.eq_of_nested (hsegments : Partition (script.segments line) 0 (size line))
    (h : WordUnit script line n k r) (h' : WordUnit script line n' k r')
    (hstart : r.start ≤ r'.start) (hstop : r'.stop ≤ r.stop) : r = r' := by
  have hin : r.Contains n' := by
    obtain ⟨hle, hlt⟩ := h'.contains
    exact ⟨by omega, by omega⟩
  by_cases hk : k = .other
  · subst hk
    cases h with
    | segment hr hm hword hn =>
      cases h' with
      | segment hr' hm' hword' hn' => exact hsegments.eq_of_mem hr hr' hin hn'
      | symbols hrun' hn' hplain' =>
        have := hplain' r hr hin _ hm
        rw [hword] at this
        cases this
    | symbols hrun hn hplain =>
      cases h' with
      | segment hr' hm' hword' hn' =>
        obtain ⟨c, hc, halpha⟩ := List.any_eq_true.mp hword'
        obtain ⟨p, q, hline, hp, hsize⟩ := slice_eq_some.mp hm'
        obtain ⟨j, hj⟩ := exists_charAt_of_mem hc
        have hlt := hj.lt_size
        have hat := hj.append_right p q
        rw [← hline] at hat
        have hsymbol := hrun.inside _ c hat ⟨by omega, by omega⟩
        simp [isSymbol, halpha] at hsymbol
      | symbols hrun' hn' hplain' =>
        obtain ⟨hle, hlt⟩ := hn'
        exact hrun.eq_of_touch hrun' hstart (by omega)
  · obtain ⟨hle, hlt⟩ := h'.contains
    obtain heq | hapart | hapart := h.eq_or_disjoint h' hk
    · exact heq
    all_goals omega

theorem WordUnit.spanned (hsegments : Partition (script.segments line) 0 (size line))
    (h : WordUnit script line n k r) (h' : WordUnit script line n' k' r')
    (hcross : k = k' ∨ ¬r.Contains n' ∧ ¬r'.Contains n) :
    (r'.start < r.start → r'.stop ≤ r.stop) ∧ (r.start ≤ r'.start → r.stop ≤ r'.stop) := by
  obtain ⟨hle, hlt⟩ := h.contains
  obtain ⟨hle', hlt'⟩ := h'.contains
  constructor
  · intro hstart
    by_contra hstop
    obtain rfl | ⟨-, hout⟩ := hcross
    · obtain rfl := h'.eq_of_nested hsegments h hstart.le (by omega)
      omega
    · exact hout ⟨by omega, by omega⟩
  · intro hstart
    by_contra hstop
    obtain rfl | ⟨hout, -⟩ := hcross
    · obtain rfl := h.eq_of_nested hsegments h' hstart (by omega)
      omega
    · exact hout ⟨by omega, by omega⟩

/-! ## Clicks on a text -/

def here (text : List Char) (offset : ℕ) : ℕ := floor text (min offset (size text))

/-- The hard line that an offset is on. -/
structure OnLine (text : List Char) (offset : ℕ) (line : Range) : Prop where
  run : MaximalRun text (· != '\n') line
  start : line.start ≤ here text offset
  stop : here text offset ≤ line.stop

/-- The character that an offset hits: the one there, or the last one of the line. -/
structure Hit (text : List Char) (offset : ℕ) (line : Range) (n : ℕ) (c : Char) : Prop where
  onLine : OnLine text offset line
  char : CharAt text n c
  inside : line.Contains n
  here : n = here text offset ∨ here text offset = line.stop ∧ n + c.utf8Size = line.stop

/-- A unit of a line that holds the character hit, and is empty on an empty line only. -/
structure Proper (text : List Char) (offset : ℕ) (line r : Range) : Prop where
  span : Span text r
  inside : line.start ≤ r.start ∧ r.stop ≤ line.stop
  hit : ∀ n c, Hit text offset line n c → r.start ≤ n ∧ n + c.utf8Size ≤ r.stop
  empty : r.start = r.stop ↔ line.start = line.stop

def innerRange (script : Script) (l : List Char) (offset : ℕ) : SelectUnit → Option Range
  | .line => some ⟨0, size l⟩
  | .word => wordRange script l offset

theorem here_boundary (text : List Char) (offset : ℕ) : Boundary text (here text offset) :=
  boundary_floor text _

theorem OnLine.parts (h : OnLine text offset r) :
    ∃ a l d, text = a ++ l ++ d ∧ r = ⟨size a, size a + size l⟩ := by
  obtain ⟨a, l, d, htext, hstart, hstop⟩ := h.run.span.parts
  obtain ⟨start, stop⟩ := r
  exact ⟨a, l, d, htext, by simp_all⟩

theorem exists_onLine (text : List Char) (offset : ℕ) : ∃ line, OnLine text offset line := by
  obtain ⟨r, -, hmax, hstart, hstop⟩ := run_maximal (here_boundary text offset) (· != '\n')
  exact ⟨r, hmax, hstart, hstop⟩

theorem OnLine.unique (h : OnLine text offset r) (h' : OnLine text offset r') : r = r' := by
  have := h.start
  have := h.stop
  have := h'.start
  have := h'.stop
  obtain heq | hlt | hlt := h.run.eq_or_apart h'.run
  · exact heq
  all_goals omega

theorem range_onLine (script : Script) (unit : SelectUnit)
    (h : OnLine (a ++ l ++ d) offset ⟨size a, size a + size l⟩) :
    SelectUnit.range script (a ++ l ++ d) offset unit =
      (innerRange script l (here (a ++ l ++ d) offset - size a) unit).map (·.shift (size a)) := by
  obtain ⟨p, q, htext, hp⟩ := here_boundary (a ++ l ++ d) offset
  have hline : OnLine (a ++ l ++ d) offset
      ⟨lineStart p, here (a ++ l ++ d) offset + lineRest q⟩ := by
    obtain ⟨r, hrun, hmax, hstart, hstop⟩ :=
      run_maximal (here_boundary (a ++ l ++ d) offset) (· != '\n')
    have hsplit : split (a ++ l ++ d) (here (a ++ l ++ d) offset) = some (p, q) :=
      split_eq_some.mpr ⟨htext, hp⟩
    rw [run, hsplit] at hrun
    obtain rfl := Option.some.inj hrun
    exact ⟨hmax, hstart, hstop⟩
  obtain ⟨hstart, hstop⟩ := Range.mk.inj (hline.unique h)
  have hsplit : split (a ++ l ++ d) (floor (a ++ l ++ d) (min offset (size (a ++ l ++ d)))) =
      some (p, q) := split_eq_some.mpr ⟨htext, hp⟩
  have hslice : slice (a ++ l ++ d) (size a)
      (floor (a ++ l ++ d) (min offset (size (a ++ l ++ d))) + lineRest q) = some l := by
    rw [show floor (a ++ l ++ d) (min offset (size (a ++ l ++ d))) + lineRest q =
      size a + size l from hstop]
    exact slice_append a l d
  unfold SelectUnit.range
  simp only [hsplit, hstart, hslice, Option.bind_eq_bind, Option.bind_some]
  cases unit with
  | line => rfl
  | word =>
    rw [innerRange, here]
    cases wordRange script l
      (floor (a ++ l ++ d) (min offset (size (a ++ l ++ d))) - size a) <;> rfl

theorem wordRange_hit (script : Script) (h : Boundary l n) (hne : l ≠ []) :
    ∃ n' c, CharAt l n' c ∧ (n' = n ∨ n = size l ∧ n' + c.utf8Size = n) ∧
      wordRange script l n = wordAt script l n' c := by
  obtain ⟨p, q, rfl, rfl⟩ := h
  cases q with
  | cons c q =>
    refine ⟨size p, c, ⟨p, q, rfl, rfl⟩, .inl rfl, ?_⟩
    rw [wordRange, split_append]
    rfl
  | nil =>
    rw [List.append_nil] at hne ⊢
    rcases p.eq_nil_or_concat' with rfl | ⟨p, c, rfl⟩
    · exact absurd rfl hne
    · refine ⟨size p, c, ⟨p, [], rfl, rfl⟩, .inr ⟨rfl, by simp⟩, ?_⟩
      have hsplit := split_append (p ++ [c]) []
      rw [List.append_nil] at hsplit
      rw [wordRange, hsplit]
      simp [hit]

theorem Hit.unique {line : Range} (h : Hit text offset line n c)
    (h' : Hit text offset line n' c') : n = n' ∧ c = c' := by
  have heq : n = n' := by
    have hpos := c.utf8Size_pos
    have hpos' := c'.utf8Size_pos
    obtain ⟨-, hlt⟩ := h.inside
    obtain ⟨-, hlt'⟩ := h'.inside
    obtain hn | ⟨hend, hn⟩ := h.here <;> obtain hn' | ⟨hend', hn'⟩ := h'.here
    · rw [hn, hn']
    · omega
    · omega
    · rcases Nat.lt_trichotomy n n' with hless | heq | hless
      · have := h.char.next_le h'.char.boundary hless
        omega
      · exact heq
      · have := h'.char.next_le h.char.boundary hless
        omega
  subst heq
  exact ⟨rfl, h.char.unique h'.char⟩

theorem OnLine.exists_hit (script : Script)
    (h : OnLine (a ++ l ++ d) offset ⟨size a, size a + size l⟩)
    (hne : l ≠ []) : ∃ n c, Hit (a ++ l ++ d) offset ⟨size a, size a + size l⟩ (size a + n) c ∧
      CharAt l n c ∧ wordRange script l (here (a ++ l ++ d) offset - size a) =
        wordAt script l n c := by
  have hstart : size a ≤ here (a ++ l ++ d) offset := h.start
  have hstop : here (a ++ l ++ d) offset ≤ size a + size l := h.stop
  have hb : Boundary l (here (a ++ l ++ d) offset - size a) := by
    have hleft : Boundary (a ++ l) (here (a ++ l ++ d) offset) :=
      (here_boundary _ _).of_append (by rw [size_append]; exact hstop)
    exact hleft.of_append_right hstart
  obtain ⟨n, c, hc, hn, hword⟩ := wordRange_hit script hb hne
  have hlt := hc.lt_size
  refine ⟨n, c, ⟨h, hc.append_right a d, ⟨Nat.le_add_right .., by dsimp only; omega⟩, ?_⟩, hc,
    hword⟩
  obtain rfl | ⟨hend, hn⟩ := hn
  · exact .inl (by omega)
  · exact .inr ⟨by dsimp only; omega, by dsimp only; omega⟩

theorem Hit.wordUnit (hsegments : Partition (script.segments l) 0 (size l))
    (h : Hit (a ++ l ++ d) offset ⟨size a, size a + size l⟩ n c) :
    ∃ r, SelectUnit.range script (a ++ l ++ d) offset .word = some (r.shift (size a)) ∧
      WordUnit script l (n - size a) (ruleOf c) r ∧ Span l r := by
  have hne : l ≠ [] := by
    rintro rfl
    obtain ⟨hle, hlt⟩ := h.inside
    simp only [size_nil] at hle hlt
    omega
  obtain ⟨n₀, c₀, hhit, hc, hword⟩ := h.onLine.exists_hit script hne
  obtain ⟨rfl, rfl⟩ := h.unique hhit
  obtain ⟨r, hr, hunit⟩ := wordAt_unit hsegments hc
  obtain ⟨r', hr', hspan⟩ := wordAt_span script hc.boundary c
  obtain rfl := Option.some.inj (hr.symm.trans hr')
  refine ⟨r, ?_, by rwa [Nat.add_sub_cancel_left], hspan⟩
  rw [range_onLine script .word h.onLine, innerRange, hword, hr]
  rfl

theorem range_proper (script : Script)
    (hsegments : ∀ line, Partition (script.segments line) 0 (size line))
    (unit : SelectUnit) (h : OnLine text offset r) :
    ∃ r', SelectUnit.range script text offset unit = some r' ∧ Proper text offset r r' := by
  obtain ⟨a, l, d, rfl, rfl⟩ := h.parts
  obtain ⟨r', hr', hspan⟩ := range_span script (a ++ l ++ d) offset unit
  refine ⟨r', hr', ?_⟩
  have hhit : ∀ {x : Range}, Span (a ++ l ++ d) x →
      (∀ n c, Hit (a ++ l ++ d) offset ⟨size a, size a + size l⟩ n c → x.Contains n) →
      ∀ n c, Hit (a ++ l ++ d) offset ⟨size a, size a + size l⟩ n c →
        x.start ≤ n ∧ n + c.utf8Size ≤ x.stop :=
    fun hx hcontains n c hhit =>
      ⟨(hcontains n c hhit).1, hhit.char.next_le hx.stop (hcontains n c hhit).2⟩
  have hinner := range_onLine script unit h
  rw [hr'] at hinner
  cases unit with
  | line =>
    obtain rfl := Option.some.inj hinner
    exact ⟨hspan, ⟨Nat.le_refl _, Nat.le_refl _⟩, hhit hspan fun n c hhit => hhit.inside, Iff.rfl⟩
  | word =>
    by_cases hne : l = []
    · subst hne
      have hstart : size a ≤ here (a ++ [] ++ d) offset := h.start
      have hstop : here (a ++ [] ++ d) offset ≤ size a + 0 := h.stop
      have hword : wordRange script [] (here (a ++ [] ++ d) offset - size a) = some (.at 0) := by
        rw [show here (a ++ [] ++ d) offset - size a = 0 by omega]
        rfl
      rw [innerRange, hword] at hinner
      obtain rfl := Option.some.inj hinner
      refine ⟨hspan, ⟨Nat.le_refl _, Nat.le_refl _⟩, ?_, ⟨fun _ => rfl, fun _ => rfl⟩⟩
      intro n c hhit
      obtain ⟨hle, hlt⟩ := hhit.inside
      simp only [size_nil] at hle hlt
      omega
    · obtain ⟨n, c, hn, -, -⟩ := h.exists_hit script hne
      obtain ⟨r, hr, hunit, hinside⟩ := hn.wordUnit (hsegments l)
      obtain rfl := Option.some.inj (hr'.symm.trans hr)
      have hcontains : (r.shift (size a)).Contains (size a + n) := by
        obtain ⟨hle, hlt⟩ := hunit.contains
        refine ⟨?_, ?_⟩ <;> dsimp only [Range.shift] <;> omega
      have hstop := hinside.stop.le
      refine ⟨hspan, ⟨Nat.le_add_right .., Nat.add_le_add_left hstop _⟩, hhit hspan ?_, ?_⟩
      · intro n' c' hhit'
        obtain ⟨rfl, -⟩ := hn.unique hhit'
        exact hcontains
      · have hsize : size l ≠ 0 := fun hs => hne (size_eq_zero.mp hs)
        obtain ⟨hle, hlt⟩ := hcontains
        constructor <;> intro heq <;> dsimp only [Range.shift] at * <;> omega

theorem Hit.eq_or_disjoint (script : Script) {line : Range}
    (hsegments : ∀ line, Partition (script.segments line) 0 (size line))
    (h : Hit text offset line n c) (h' : Hit text offset' line n' c') (hrule : ruleOf c = ruleOf c')
    (hother : ruleOf c ≠ .other) (hr : SelectUnit.range script text offset .word = some r)
    (hr' : SelectUnit.range script text offset' .word = some r') :
    r = r' ∨ r.stop ≤ r'.start ∨ r'.stop ≤ r.start := by
  obtain ⟨a, l, d, rfl, rfl⟩ := h.onLine.parts
  obtain ⟨x, hx, hunit, -⟩ := h.wordUnit (hsegments l)
  obtain ⟨x', hx', hunit', -⟩ := h'.wordUnit (hsegments l)
  obtain rfl := Option.some.inj (hr.symm.trans hx)
  obtain rfl := Option.some.inj (hr'.symm.trans hx')
  rw [← hrule] at hunit'
  obtain rfl | hle | hle := hunit.eq_or_disjoint hunit' hother
  · exact .inl rfl
  · exact .inr (.inl (Nat.add_le_add_left hle _))
  · exact .inr (.inr (Nat.add_le_add_left hle _))

theorem OnLine.edges (h : OnLine (a ++ l ++ d) offset ⟨size a, size a + size l⟩) :
    (∀ c, a.getLast? = some c → c = '\n') ∧ ∀ c, d.head? = some c → c = '\n' := by
  constructor
  · intro c hc
    rcases a.eq_nil_or_concat' with rfl | ⟨a, e, rfl⟩
    · cases hc
    · obtain rfl : e = c := by simpa using hc
      exact bne_eq_false_iff_eq.mp (h.run.before (size a) e ⟨a, l ++ d, by simp, rfl⟩ (by simp))
  · intro c hc
    cases d with
    | nil => cases hc
    | cons e d =>
      obtain rfl : e = c := by simpa using hc
      exact bne_eq_false_iff_eq.mp (h.run.behind e ⟨a ++ l, d, rfl, size_append ..⟩)

theorem Hit.phrase (script : Script) {line : Range}
    (hsegments : ∀ line, Partition (script.segments line) 0 (size line))
    (h : Hit text offset line n c) (hc : ruleOf c = .japanese) :
    ∃ span m, MaximalRun text isJapanese span ∧ span.Contains n ∧
      slice text span.start span.stop = some m ∧
      ∃ phrase ∈ pieces 0 (boundaries script m) (size m),
        (phrase.shift span.start).Contains n ∧
        SelectUnit.range script text offset .word = some (phrase.shift span.start) ∧
        ∀ other ∈ pieces 0 (boundaries script m) (size m),
          (other.shift span.start).Contains n → other = phrase := by
  have hbreak : isJapanese '\n' = false := by decide
  obtain ⟨a, l, d, rfl, rfl⟩ := h.onLine.parts
  obtain ⟨x, hx, hunit, -⟩ := h.wordUnit (hsegments l)
  have hle : size a ≤ n := h.inside.1
  rw [hc] at hunit
  cases hunit with
  | @japanese span phrase m hrun hspan hm hphrase hn =>
    have hcontains : ∀ r : Range, r.Contains (n - size a) ↔ (r.shift (size a)).Contains n := by
      intro r
      simp only [Range.Contains, Range.shift]
      omega
    have hshift : (phrase.shift span.start).shift (size a) =
        phrase.shift (span.shift (size a)).start := by
      simp only [Range.shift, Nat.add_assoc]
    obtain ⟨p, q, rfl, hp, hsize⟩ := slice_eq_some.mp hm
    have hne : m ≠ [] := by
      rintro rfl
      obtain ⟨hstart, hstop⟩ := hspan
      rw [size_nil] at hsize
      omega
    have hslice : slice (a ++ (p ++ m ++ q) ++ d) (size a + span.start) (size a + span.stop) =
        some m :=
      slice_eq_some.mpr ⟨a ++ p, q ++ d, by simp, by rw [size_append, hp], by
        rw [size_append, ← hsize, Nat.add_assoc]⟩
    obtain ⟨hlast, hhead⟩ := h.onLine.edges
    refine ⟨span.shift (size a), m, hrun.within ?_ ?_, (hcontains span).mp hspan, hslice, phrase,
      hphrase, ?_, ?_, ?_⟩
    · exact fun c hc => by rw [hlast c hc, hbreak]
    · exact fun c hc => by rw [hhead c hc, hbreak]
    · rw [← hshift]
      exact (hcontains _).mp hn
    · rw [hx, hshift]
    · intro other hother hn'
      have hn' : ((other.shift span.start).shift (size a)).Contains n := by
        simpa only [Range.shift, Nat.add_assoc] using hn'
      obtain ⟨hascending, hbound⟩ := boundaries_ascending script hne
      obtain ⟨hle₁, hlt₁⟩ := (hcontains _).mpr hn'
      obtain ⟨hle₂, hlt₂⟩ := hn
      have hpart := partition_pieces hascending hbound
      refine hpart.eq_of_mem (n := n - size a - span.start) hother hphrase ⟨?_, ?_⟩ ⟨?_, ?_⟩ <;>
        dsimp only [Range.shift] at * <;> omega

/-! ## Drags -/

/-- Two offsets hit characters of different rules, and the unit of one holds the other. -/
def Crossing (text : List Char) (unit : SelectUnit) (offset offset' : ℕ) (r r' : Range) : Prop :=
  unit = .word ∧ ∃ line n c n' c', Hit text offset line n c ∧ Hit text offset' line n' c' ∧
    ruleOf c ≠ ruleOf c' ∧ (r.Contains n' ∨ r'.Contains n)

theorem range_spanned (script : Script)
    (hsegments : ∀ line, Partition (script.segments line) 0 (size line))
    {unit : SelectUnit} (hr : SelectUnit.range script text offset unit = some r)
    (hr' : SelectUnit.range script text offset' unit = some r')
    (hcross : ¬Crossing text unit offset offset' r r') :
    (r'.start < r.start → r'.stop ≤ r.stop) ∧ (r.start ≤ r'.start → r.stop ≤ r'.stop) := by
  obtain ⟨line, hline⟩ := exists_onLine text offset
  obtain ⟨line', hline'⟩ := exists_onLine text offset'
  obtain ⟨x, hx, hproper⟩ := range_proper script hsegments unit hline
  obtain ⟨x', hx', hproper'⟩ := range_proper script hsegments unit hline'
  obtain rfl := Option.some.inj (hr.symm.trans hx)
  obtain rfl := Option.some.inj (hr'.symm.trans hx')
  have hle := hproper.span.le
  have hle' := hproper'.span.le
  obtain ⟨hstart, hstop⟩ := hproper.inside
  obtain ⟨hstart', hstop'⟩ := hproper'.inside
  obtain rfl | hapart | hapart := hline.run.eq_or_apart hline'.run
  · obtain ⟨a, l, d, rfl, rfl⟩ := hline.parts
    cases unit with
    | line =>
      have heq := range_onLine script .line hline
      have heq' := range_onLine script .line hline'
      rw [hr] at heq
      rw [hr'] at heq'
      obtain rfl := Option.some.inj (heq.trans heq'.symm)
      exact ⟨fun _ => le_rfl, fun _ => le_rfl⟩
    | word =>
      by_cases hne : l = []
      · subst hne
        simp only [size_nil, Nat.add_zero] at hstart hstop hstart' hstop'
        omega
      · obtain ⟨n, c, hn, -, -⟩ := hline.exists_hit script hne
        obtain ⟨n', c', hn', -, -⟩ := hline'.exists_hit script hne
        obtain ⟨y, hy, hunit, -⟩ := hn.wordUnit (hsegments l)
        obtain ⟨y', hy', hunit', -⟩ := hn'.wordUnit (hsegments l)
        obtain rfl := Option.some.inj (hr.symm.trans hy)
        obtain rfl := Option.some.inj (hr'.symm.trans hy')
        have hrules : ruleOf c = ruleOf c' ∨ ¬y.Contains (size a + n' - size a) ∧
            ¬y'.Contains (size a + n - size a) := by
          by_contra hnot
          push Not at hnot
          obtain ⟨hrule, himp⟩ := hnot
          refine hcross ⟨rfl, _, _, c, _, c', hn, hn', hrule, ?_⟩
          by_cases hin : y.Contains (size a + n' - size a)
          · left
            simp only [Range.Contains, Range.shift] at hin ⊢
            omega
          · right
            have := himp hin
            simp only [Range.Contains, Range.shift] at this ⊢
            omega
        obtain ⟨h₁, h₂⟩ := hunit.spanned (hsegments l) hunit' hrules
        simp only [Range.shift, Nat.add_lt_add_iff_left, Nat.add_le_add_iff_left]
        exact ⟨h₁, h₂⟩
  · constructor <;> intro <;> omega
  · constructor <;> intro <;> omega

variable {t : TextInput} {unit : SelectUnit}

theorem dragTo_spec (ht : t.content = text) (hunit : t.dragUnit = some (unit, r))
    (hr' : SelectUnit.range script text offset' unit = some r') :
    ∃ t', t.dragTo script offset' = some t' ∧ t'.content = text ∧ t'.dragUnit = some (unit, r) ∧
      if r'.start < r.start then t'.selectedRange = ⟨r'.start, r.stop⟩ ∧ t'.selectionReversed = true
      else t'.selectedRange = ⟨r.start, r'.stop⟩ ∧ t'.selectionReversed = false := by
  unfold TextInput.dragTo
  simp only [hunit, ht, hr', Option.bind_eq_bind, Option.bind_some]
  split_ifs
  · exact ⟨_, rfl, rfl, rfl, rfl, rfl⟩
  · exact ⟨_, rfl, rfl, rfl, rfl, rfl⟩

theorem drags_kept (script : Script) (offsets : List ℕ) (ht : t.content = text)
    (hunit : t.dragUnit = some (unit, r)) :
    ∃ t', offsets.foldlM (TextInput.dragTo script) t = some t' ∧ t'.content = text ∧
      t'.dragUnit = some (unit, r) := by
  induction offsets generalizing t with
  | nil => exact ⟨t, rfl, ht, hunit⟩
  | cons offset offsets ih =>
    obtain ⟨r', hr', -⟩ := range_span script text offset unit
    obtain ⟨t₁, ht₁, hcontent, hdrag, -⟩ := dragTo_spec ht hunit hr'
    obtain ⟨t₂, ht₂, hkept⟩ := ih hcontent hdrag
    exact ⟨t₂, by rw [List.foldlM_cons, ht₁]; exact ht₂, hkept⟩

theorem onMouseDown_unit {count : ℕ} (ht : t.content = text) (hmarked : t.markedRange = none)
    (hall : t.doubleClickSelectsAll = false) (hcount : SelectUnit.ofClick count = some unit)
    (hr : SelectUnit.range script text offset unit = some r) (hspan : Span text r) :
    ∃ t', t.onMouseDown script offset count false = some t' ∧ t'.content = text ∧
      t'.dragUnit = some (unit, r) ∧ t'.selectedRange = r := by
  have hle : ¬r.stop < r.start := Nat.not_lt.mpr hspan.le
  unfold TextInput.onMouseDown
  simp only [hall, Bool.false_and, Bool.false_eq_true, if_false, hcount, hmarked,
    Option.isSome_none, ht, hr, Option.bind_eq_bind, Option.bind_some]
  refine ⟨_, rfl, ?_⟩
  simp [TextInput.moveTo, TextInput.selectTo, Range.at, hle]

/-- What double and triple clicks select in a text, and drags after them. -/
structure UnitsSelected (script : Script) (model : PhraseModel) (text : List Char) : Prop where
  proper : ∀ offset unit, ∃ line r, OnLine text offset line ∧
    SelectUnit.range (script.withModel model) text offset unit = some r ∧ Proper text offset line r
  disjoint : ∀ line offset offset' n n' c c' r r',
    Hit text offset line n c → Hit text offset' line n' c' →
    ruleOf c = ruleOf c' → ruleOf c ≠ .other →
    SelectUnit.range (script.withModel model) text offset .word = some r →
    SelectUnit.range (script.withModel model) text offset' .word = some r' →
    r = r' ∨ r.stop ≤ r'.start ∨ r'.stop ≤ r.start
  phrases : ∀ line offset n c, Hit text offset line n c → ruleOf c = .japanese →
    ∃ span m, MaximalRun text isJapanese span ∧ span.Contains n ∧
      slice text span.start span.stop = some m ∧
      ∃ phrase ∈ pieces 0 (model.boundaries m) (size m),
        (phrase.shift span.start).Contains n ∧
        SelectUnit.range (script.withModel model) text offset .word =
          some (phrase.shift span.start) ∧
        ∀ other ∈ pieces 0 (model.boundaries m) (size m),
          (other.shift span.start).Contains n → other = phrase
  drags : ∀ (t : TextInput) offset count unit, t.content = text → t.markedRange = none →
    t.doubleClickSelectsAll = false → SelectUnit.ofClick count = some unit →
    ∃ t₁ r, t.onMouseDown (script.withModel model) offset count false = some t₁ ∧
      SelectUnit.range (script.withModel model) text offset unit = some r ∧
      t₁.selectedRange = r ∧
      ∀ offsets, ∃ t₂,
        List.foldlM (TextInput.dragTo (script.withModel model)) t₁ offsets = some t₂ ∧
        ∀ offset', ∃ t₃ r', t₂.dragTo (script.withModel model) offset' = some t₃ ∧
          SelectUnit.range (script.withModel model) text offset' unit = some r' ∧
          (¬Crossing text unit offset offset' r r' →
            t₃.selectedRange = ⟨min r.start r'.start, max r.stop r'.stop⟩ ∧
            t₃.cursorOffset = if r'.start < r.start then r'.start else r'.stop)

/-- Tables by which every line is one segment. -/
def wholeLines : Script where
  graphemes _ := []
  words _ := []
  segments line := if line.isEmpty then [] else [⟨0, size line⟩]
  phraseStarts _ _ := false
  alphanumeric c := c.isAlphanum
  lowercase := id
  grapheme_boundary := by simp
  word_span := by simp
  segment_span := by
    intro line r hr
    split_ifs at hr
    · cases hr
    · rw [List.mem_singleton] at hr
      exact hr ▸ ⟨Nat.zero_le _, boundary_zero line, boundary_size line⟩

theorem wholeLines_partition (line : List Char) :
    Partition (wholeLines.segments line) 0 (size line) := by
  cases line with
  | nil => rfl
  | cons c line =>
    have := c.utf8Size_pos
    exact ⟨rfl, by simp only [size_cons]; omega, rfl⟩

/-- The weights of the model for an ideographic space between two hiragana. -/
def spaceWeights : PhraseModel where
  groups group feature :=
    match group, feature with
    | .uw2, ['あ'] => some (-181)
    | .uw3, ['あ'] => some 1173
    | .uw3, ['\u3000'] => some 443
    | .uw4, ['\u3000'] => some (-1386)
    | .uw4, ['い'] => some (-1577)
    | .uw5, ['い'] => some 348
    | _, _ => none
  total := 3216

end CayenChat.Editing
