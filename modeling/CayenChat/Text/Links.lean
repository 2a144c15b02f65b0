import CayenChat.Lib.Substrings
import CayenChat.Wire.Text

/-! # Web links in a text

Where the links of a text start and end: at a scheme, behind a bracketed host if there is one,
up to white space or a bracket, without the punctuation at the end. What a URL parser makes of a
candidate is a parameter. Slices that cut a character fail.
-/

namespace CayenChat.Text
open Utf8

/-- A parsed URL. -/
structure Url where
  scheme : String
  host : Option String
  text : String

def https : List Char := ['h', 't', 't', 'p', 's', ':', '/', '/']
def http : List Char := ['h', 't', 't', 'p', ':', '/', '/']
def authority : List Char := [':', '/', '/']

def stopsAt (c : Char) : Bool :=
  isWhitespace c || ['<', '>', '[', ']', '\x22', '\x27', '。', '、'].contains c

def punctuation : List Char := ['.', ',', ';', ':', '!', '?', '\x7d', '」', '』']

/-- The last result of a search for a pattern from a position that only moves forward. -/
structure Lookahead where
  last : Option (Option ℕ)

namespace Lookahead

/-- The next place of the pattern at a position or behind it. -/
def find (self : Lookahead) (text pattern : List Char) (origin : ℕ) : Option ℕ × Lookahead :=
  let search :=
    match split text origin with
    | none => (none, self)
    | some (_, rest) =>
      let found := (Utf8.find pattern rest).map (origin + ·)
      (found, ⟨some found⟩)
  match self.last with
  | some none => (none, self)
  | some (some found) => if origin ≤ found then (some found, self) else search
  | none => search

end Lookahead

def indexWhere (f : Char → Bool) : List Char → Option ℕ
  | [] => none
  | c :: s => if f c then some 0 else (indexWhere f s).map (c.utf8Size + ·)

def hostStart (text : List Char) (start : ℕ) : Option ℕ := do
  let (_, rest) ← split text start
  pure (start + size authority + (find authority rest).getD 0)

def opensBracket (text : List Char) (host : ℕ) : Option Bool := do
  let (_, rest) ← split text host
  pure (decide (['['] <+: rest))

def runEnd (text : List Char) (scanFrom : ℕ) : Option ℕ := do
  let (_, rest) ← split text scanFrom
  pure (((indexWhere stopsAt rest).map (scanFrom + ·)).getD (size text))

/-- Takes off punctuation, and closing parentheses that the link does not open. -/
def trimmed (text : List Char) (start opens : ℕ) : ℕ → ℕ → ℕ → Option ℕ
  | 0, _, _ => none
  | fuel + 1, closes, stop =>
    if start < stop then do
      let (before, _) ← split text stop
      match before.getLast? with
      | none => some stop
      | some last =>
        if (last = ')' ∧ opens < closes) ∨ last ∈ punctuation then
          trimmed text start opens fuel (if last = ')' then closes - 1 else closes)
            (stop - last.utf8Size)
        else some stop
    else some stop

def linkEnd (text : List Char) (start scanFrom : ℕ) : Option ℕ := do
  let stop ← runEnd text scanFrom
  let run ← slice text start stop
  trimmed text start (run.count '(') (size text + 1) (run.count ')') stop

section

variable (parse : List Char → Option Url)

/-- The link between two positions, if it is one. -/
def accepted (text : List Char) (start stop : ℕ) : Option (List (Range × String)) := do
  let candidate ← slice text start stop
  match parse candidate with
  | some url =>
    if (url.scheme = "http" ∨ url.scheme = "https") ∧ url.host.isSome then
      some [(⟨start, stop⟩, url.text)]
    else some []
  | none => some []

/-- The links from a position on, behind those found before. -/
def findLinks (text : List Char) : ℕ → ℕ → Lookahead → Lookahead → Lookahead →
    List (Range × String) → Option (List (Range × String))
  | 0, _, _, _, _, _ => none
  | fuel + 1, cursor, secure, plain, close, found =>
    if cursor < size text then
      let (atSecure, secure) := secure.find text https cursor
      let (atPlain, plain) := plain.find text http cursor
      match ([atSecure, atPlain].filterMap id).min? with
      | none => some found
      | some start => do
        let host ← hostStart text start
        let (atClose, close) := if ← opensBracket text host then
            close.find text [']'] (host + 1)
          else (none, close)
        let stop ← linkEnd text start ((atClose.map (· + 1)).getD host)
        let link ← accepted parse text start stop
        findLinks text fuel (max stop (start + 1)) secure plain close (found ++ link)
    else some found

def find (text : List Char) : Option (List (Range × String)) :=
  findLinks parse text (size text + 1) 0 ⟨none⟩ ⟨none⟩ ⟨none⟩ []

/-- The same loop with a plain search in place of each that is remembered. -/
def findLinksPlain (text : List Char) : ℕ → ℕ → List (Range × String) →
    Option (List (Range × String))
  | 0, _, _ => none
  | fuel + 1, cursor, found =>
    if cursor < size text then
      match ([findFrom https text cursor, findFrom http text cursor].filterMap id).min? with
      | none => some found
      | some start => do
        let host ← hostStart text start
        let atClose := if ← opensBracket text host then findFrom [']'] text (host + 1) else none
        let stop ← linkEnd text start ((atClose.map (· + 1)).getD host)
        let link ← accepted parse text start stop
        findLinksPlain text fuel (max stop (start + 1)) (found ++ link)
    else some found

end

/-! ## What a link looks like -/

def EndsLoose (m : List Char) : Prop :=
  ∃ c ∈ m.getLast?, (c = ')' ∧ m.count '(' < m.count ')') ∨ c ∈ punctuation

def Bracketed (host : List Char) : Prop :=
  host = [] ∨ ∃ address, host = '[' :: address ++ [']'] ∧ ']' ∉ address

/-- A range of a text with a scheme, a host in brackets or none, and characters a link may have,
which does not end in what is taken off. -/
def IsLink (text : List Char) (r : Range) : Prop :=
  ∃ p scheme host body q, text = p ++ (scheme ++ host ++ body) ++ q ∧
    r = ⟨size p, size p + size (scheme ++ host ++ body)⟩ ∧ (scheme = https ∨ scheme = http) ∧
    Bracketed host ∧ (∀ c ∈ body, stopsAt c = false) ∧ ¬EndsLoose (scheme ++ host ++ body)

variable {text pattern p m rest scheme host : List Char} {self : Lookahead} {f : Char → Bool}
  {start stop cursor bound origin opens closes fuel : ℕ}

namespace Lookahead

def Fresh (self : Lookahead) (text pattern : List Char) (bound : ℕ) : Prop :=
  ∀ last ∈ self.last, ∃ q ≤ bound, Boundary text q ∧ last = findFrom pattern text q

theorem fresh_default : (⟨none⟩ : Lookahead).Fresh text pattern bound := by
  intro last h
  cases h

theorem Fresh.mono (h : self.Fresh text pattern bound) (hle : bound ≤ origin) :
    self.Fresh text pattern origin := by
  intro last hlast
  obtain ⟨q, hq, hb, heq⟩ := h last hlast
  exact ⟨q, hq.trans hle, hb, heq⟩

theorem find_spec (h : self.Fresh text pattern bound) (hle : bound ≤ origin)
    (ho : Boundary text origin) :
    (self.find text pattern origin).1 = findFrom pattern text origin ∧
      (self.find text pattern origin).2.Fresh text pattern origin := by
  obtain ⟨p, rest, rfl, rfl⟩ := ho
  have hsearch : findFrom pattern (p ++ rest) (size p) =
      (Utf8.find pattern rest).map (size p + ·) := by
    rw [findFrom, split_append]
    rfl
  have hnew : Fresh ⟨some (findFrom pattern (p ++ rest) (size p))⟩ (p ++ rest) pattern
      (size p) := by
    rintro last ⟨⟩
    exact ⟨size p, le_rfl, boundary_append p rest, rfl⟩
  unfold find
  rw [split_append]
  simp only
  rw [← hsearch]
  cases hlast : self.last with
  | none => exact ⟨rfl, hnew⟩
  | some last =>
    obtain ⟨q, hq, hb, heq⟩ := h last hlast
    cases last with
    | none =>
      refine ⟨?_, h.mono hle⟩
      exact (findFrom_none_of_le hb (boundary_append p rest) (hq.trans hle) heq.symm).symm
    | some found =>
      simp only
      split
      · next hlt =>
        refine ⟨?_, h.mono hle⟩
        exact (findFrom_of_le hb (boundary_append p rest) (hq.trans hle) hlt heq.symm).symm
      · exact ⟨rfl, hnew⟩

end Lookahead

/-! ## One candidate -/

theorem indexWhere_eq (f : Char → Bool) (s : List Char) (n : ℕ) :
    ((indexWhere f s).map (n + ·)).getD (n + size s) = n + size (s.takeWhile fun c => !f c) := by
  induction s generalizing n with
  | nil => rfl
  | cons c s ih =>
    unfold indexWhere
    by_cases hc : f c = true
    · simp [hc]
    · have hrest := ih (n + c.utf8Size)
      rw [if_neg hc, List.takeWhile_cons_of_pos (by simpa using hc), Option.map_map, size_cons,
        size_cons, ← Nat.add_assoc, ← Nat.add_assoc, ← hrest]
      congr 2
      funext k
      exact (Nat.add_assoc n c.utf8Size k).symm

theorem hostStart_eq (hscheme : scheme = https ∨ scheme = http) :
    hostStart (p ++ (scheme ++ rest)) (size p) = some (size p + size scheme) := by
  unfold hostStart
  rw [split_append, Option.bind_eq_bind, Option.bind_some]
  rcases hscheme with rfl | rfl <;> rfl

theorem trimmed_spec {q : List Char} (hfuel : m.length < fuel) :
    ∃ m', m' <+: m ∧ trimmed (p ++ m ++ q) (size p) (m.count '(') fuel (m.count ')')
        (size p + size m) = some (size p + size m') ∧ ¬EndsLoose m' ∧
      ∀ g c, g ++ [c] <+: m → c ≠ ')' → c ∉ punctuation → g ++ [c] <+: m' := by
  induction fuel generalizing m q with
  | zero => omega
  | succ fuel ih =>
    unfold trimmed
    rcases List.eq_nil_or_concat m with rfl | ⟨init, last, rfl⟩
    · refine ⟨[], List.prefix_rfl, if_neg (by simp), ?_, fun g c h _ _ => h⟩
      rintro ⟨c, hc, -⟩
      cases hc
    · rw [List.concat_eq_append] at hfuel ⊢
      have hpos := last.utf8Size_pos
      have hlt : size p < size p + size (init ++ [last]) := by
        simp
        omega
      have hsplit : split (p ++ (init ++ [last]) ++ q) (size p + size (init ++ [last])) =
          some (p ++ (init ++ [last]), q) := by
        rw [← size_append]
        exact split_append _ q
      have hlast : (p ++ (init ++ [last])).getLast? = some last := by simp
      rw [if_pos hlt, hsplit, Option.bind_eq_bind, Option.bind_some]
      simp only
      rw [hlast]
      simp only
      split
      · next hloose =>
        have hopen : last ≠ '(' := by
          rintro rfl
          rcases hloose with ⟨h, -⟩ | h
          · exact absurd h (by decide)
          · exact absurd h (by simp [punctuation])
        have hopens : (init ++ [last]).count '(' = init.count '(' := by
          simp [List.count_append, hopen]
        have hcloses : (if last = ')' then (init ++ [last]).count ')' - 1
            else (init ++ [last]).count ')') = init.count ')' := by
          split
          · next h => simp [List.count_append, h]
          · next h => simp [List.count_append, h]
        have hstop : size p + size (init ++ [last]) - last.utf8Size = size p + size init := by
          simp
          omega
        have htext : p ++ (init ++ [last]) ++ q = p ++ init ++ (last :: q) := by simp
        rw [hcloses, hstop, hopens, htext]
        obtain ⟨m', hm', htrim, htight, hkeep⟩ := ih (m := init) (q := last :: q) (by
          rw [List.length_append, List.length_singleton] at hfuel
          omega)
        refine ⟨m', hm'.trans (List.prefix_append _ _), htrim, htight, fun g c hg hc hp => ?_⟩
        rcases List.prefix_concat_iff.mp hg with heq | hg
        · obtain ⟨-, hcl⟩ := List.append_inj' heq rfl
          obtain rfl := List.singleton_inj.mp hcl
          rcases hloose with ⟨h, -⟩ | h
          · exact absurd h hc
          · exact absurd h hp
        · exact hkeep g c hg hc hp
      · next htight =>
        refine ⟨_, List.prefix_rfl, rfl, ?_, fun g c h _ _ => h⟩
        rintro ⟨c, hc, hloose⟩
        rw [List.getLast?_concat, Option.mem_some] at hc
        subst hc
        exact htight hloose

theorem bracketed_host (p scheme rest : List Char) : ∃ host tail, rest = host ++ tail ∧
    Bracketed host ∧ (((if ['['] <+: rest then
      findFrom [']'] (p ++ (scheme ++ rest)) (size p + size scheme + 1) else none).map (· + 1)).getD
        (size p + size scheme)) = size p + size scheme + size host := by
  by_cases hopen : ['['] <+: rest
  · obtain ⟨tail, rfl⟩ := hopen
    rw [if_pos (List.prefix_append _ _)]
    have htext : p ++ (scheme ++ (['['] ++ tail)) = (p ++ scheme ++ ['[']) ++ tail := by simp
    have hsize : size p + size scheme + 1 = size (p ++ scheme ++ ['[']) := by
      simp [show '['.utf8Size = 1 from rfl, Nat.add_assoc]
    have hb : Boundary (p ++ (scheme ++ (['['] ++ tail))) (size p + size scheme + 1) := by
      rw [htext, hsize]
      exact boundary_append _ _
    rcases findFrom_spec [']'] hb with ⟨n, hn, hle, ⟨u, q, hu, rfl⟩, hfirst⟩ | ⟨hn, -⟩
    · rw [htext, List.append_assoc u] at hu
      rw [hsize] at hle
      obtain ⟨address, rfl, rfl⟩ := prefix_of_size_le hu.symm hle
      refine ⟨'[' :: address ++ [']'], q, by simp, .inr ⟨address, rfl, ?_⟩, ?_⟩
      · intro hmem
        obtain ⟨a, b, rfl⟩ := List.append_of_mem hmem
        have hearlier : Stands [']'] (p ++ (scheme ++ (['['] ++ ((a ++ ']' :: b) ++ ([']'] ++ q)))))
            (size (p ++ scheme ++ ['['] ++ a)) :=
          ⟨p ++ scheme ++ ['['] ++ a, b ++ ([']'] ++ q), by simp, rfl⟩
        have := hfirst _ (by simp [show '['.utf8Size = 1 from rfl]) hearlier
        have hpos := (']').utf8Size_pos
        simp at this
        omega
      · rw [hn, Option.map_some, Option.getD_some]
        simp [show '['.utf8Size = 1 from rfl, show ']'.utf8Size = 1 from rfl]
        omega
    · exact ⟨[], ['['] ++ tail, rfl, .inl rfl, by rw [hn]; rfl⟩
  · rw [if_neg hopen]
    exact ⟨[], rest, rfl, .inl rfl, rfl⟩

theorem runEnd_eq (p rest : List Char) : runEnd (p ++ rest) (size p) =
    some (size p + size (rest.takeWhile fun c => !stopsAt c)) := by
  unfold runEnd
  rw [split_append, Option.bind_eq_bind, Option.bind_some, size_append]
  exact congrArg some (indexWhere_eq stopsAt rest (size p))

theorem ends_tight (hscheme : scheme = https ∨ scheme = http) (hhost : Bracketed host) :
    ∃ g c, scheme ++ host = g ++ [c] ∧ c ≠ ')' ∧ c ∉ punctuation := by
  rcases hhost with rfl | ⟨address, rfl, -⟩
  · rcases hscheme with rfl | rfl
    · exact ⟨['h', 't', 't', 'p', 's', ':', '/'], '/', rfl, by decide, by simp [punctuation]⟩
    · exact ⟨['h', 't', 't', 'p', ':', '/'], '/', rfl, by decide, by simp [punctuation]⟩
  · exact ⟨scheme ++ '[' :: address, ']', by simp, by decide, by simp [punctuation]⟩

theorem linkEnd_spec (hscheme : scheme = https ∨ scheme = http) (p rest : List Char) :
    ∃ stop, linkEnd (p ++ (scheme ++ rest)) (size p)
        (((if ['['] <+: rest then findFrom [']'] (p ++ (scheme ++ rest)) (size p + size scheme + 1)
          else none).map (· + 1)).getD (size p + size scheme)) = some stop ∧
      size p + size scheme ≤ stop ∧ Boundary (p ++ (scheme ++ rest)) stop ∧
      IsLink (p ++ (scheme ++ rest)) ⟨size p, stop⟩ := by
  obtain ⟨host, tail, rfl, hhost, hscan⟩ := bracketed_host p scheme rest
  rw [hscan]
  let body := tail.takeWhile fun c => !stopsAt c
  let left := tail.dropWhile fun c => !stopsAt c
  have htail : tail = body ++ left := List.takeWhile_append_dropWhile.symm
  have hrun : runEnd (p ++ (scheme ++ (host ++ tail))) (size p + size scheme + size host) =
      some (size p + size (scheme ++ host ++ body)) := by
    have := runEnd_eq (p ++ scheme ++ host) tail
    simpa [Nat.add_assoc] using this
  have htext : p ++ (scheme ++ (host ++ tail)) = p ++ (scheme ++ host ++ body) ++ left := by
    rw [htail]
    simp
  have hlen : (scheme ++ host ++ body).length < size (p ++ (scheme ++ (host ++ tail))) + 1 := by
    have hle := length_le_size (scheme ++ host ++ body)
    rw [htext, size_append, size_append]
    omega
  obtain ⟨m', hm', htrim, htight, hkeep⟩ := trimmed_spec (p := p) (q := left) hlen
  obtain ⟨g, c, hg, hc, hp⟩ := ends_tight hscheme hhost
  obtain ⟨body', rfl⟩ : scheme ++ host <+: m' := by
    rw [hg]
    exact hkeep g c (by rw [← hg]; exact List.prefix_append _ _) hc hp
  obtain ⟨q, hq⟩ := (List.prefix_append_right_inj _).mp hm'
  refine ⟨size p + size (scheme ++ host ++ body'), ?_, ?_, ?_, ?_⟩
  · unfold linkEnd
    rw [hrun, Option.bind_eq_bind, Option.bind_some]
    rw [htext, slice_append, Option.bind_eq_bind, Option.bind_some]
    rw [htext] at htrim
    exact htrim
  · simp
  · refine ⟨p ++ (scheme ++ host ++ body'), q ++ left, ?_, by simp⟩
    rw [htext, ← hq]
    simp
  · refine ⟨p, scheme, host, body', q ++ left, ?_, rfl, hscheme, hhost, ?_, htight⟩
    · rw [htext, ← hq]
      simp
    · intro c hc
      have hmem : c ∈ body := by
        rw [← hq]
        exact List.mem_append_left _ hc
      simpa using List.mem_takeWhile_imp hmem

/-! ## All candidates -/

theorem accepted_spec (parse : List Char → Option Url) (h : IsLink text ⟨start, stop⟩) :
    ∃ link, accepted parse text start stop = some link ∧
      (link = [] ∨ ∃ url, link = [(⟨start, stop⟩, url)]) := by
  obtain ⟨p, scheme, host, body, q, rfl, hr, -⟩ := h
  cases hr
  unfold accepted
  rw [slice_append, Option.bind_eq_bind, Option.bind_some]
  cases parse (scheme ++ host ++ body) with
  | none => exact ⟨[], rfl, .inl rfl⟩
  | some url =>
    simp only
    split
    · exact ⟨_, rfl, .inr ⟨_, rfl⟩⟩
    · exact ⟨[], rfl, .inl rfl⟩

theorem next_spec (hb : Boundary text cursor) {start : ℕ}
    (h : ([findFrom https text cursor, findFrom http text cursor].filterMap id).min? =
      some start) :
    cursor ≤ start ∧ ∃ p scheme rest, text = p ++ (scheme ++ rest) ∧ size p = start ∧
      (scheme = https ∨ scheme = http) := by
  have hmem := List.min?_mem h
  have hfound {pattern : List Char} (hf : findFrom pattern text cursor = some start) :
      cursor ≤ start ∧ Stands pattern text start := by
    rcases findFrom_spec pattern hb with ⟨n, hn, hle, hs, -⟩ | ⟨hn, -⟩
    · rw [hf, Option.some.injEq] at hn
      exact ⟨hn ▸ hle, hn ▸ hs⟩
    · rw [hf] at hn
      cases hn
  simp only [List.mem_filterMap, List.mem_cons, List.not_mem_nil, or_false, id] at hmem
  obtain ⟨o, rfl | rfl, ho⟩ := hmem
  · obtain ⟨hle, p, q, rfl, hp⟩ := hfound ho
    exact ⟨hle, p, https, q, by simp, hp, .inl rfl⟩
  · obtain ⟨hle, p, q, rfl, hp⟩ := hfound ho
    exact ⟨hle, p, http, q, by simp, hp, .inr rfl⟩

/-- Links in the order of the text, none of them overlapping, up to a position. -/
structure Links (text : List Char) (found : List (Range × String)) (cursor : ℕ) : Prop where
  links : ∀ l ∈ found, IsLink text l.1 ∧ l.1.stop ≤ cursor
  ascending : found.Pairwise fun a b => a.1.stop ≤ b.1.start

theorem Links.add {found link : List (Range × String)} {next : ℕ} (h : Links text found cursor)
    (hstart : cursor ≤ start) (hstop : stop ≤ next) (hnext : cursor ≤ next)
    (hl : IsLink text ⟨start, stop⟩) (hlink : link = [] ∨ ∃ url, link = [(⟨start, stop⟩, url)]) :
    Links text (found ++ link) next := by
  rcases hlink with rfl | ⟨url, rfl⟩
  · rw [List.append_nil]
    exact ⟨fun l hl => ⟨(h.links l hl).1, (h.links l hl).2.trans hnext⟩, h.ascending⟩
  · constructor
    · intro l hmem
      rcases List.mem_append.mp hmem with hmem | hmem
      · exact ⟨(h.links l hmem).1, (h.links l hmem).2.trans hnext⟩
      · rw [List.mem_singleton.mp hmem]
        exact ⟨hl, hstop⟩
    · refine List.pairwise_append.mpr ⟨h.ascending, List.pairwise_singleton _ _, ?_⟩
      intro l hmem l' hmem'
      rw [List.mem_singleton.mp hmem']
      exact (h.links l hmem).2.trans hstart

theorem findLinks_spec (parse : List Char → Option Url) {secure plain close : Lookahead}
    {found : List (Range × String)} (hfuel : size text < cursor + fuel) (hpos : 0 < fuel)
    (hb : Boundary text cursor) (hsecure : secure.Fresh text https cursor)
    (hplain : plain.Fresh text http cursor) (hclose : close.Fresh text [']'] (cursor + 1))
    (hfound : Links text found cursor) :
    ∃ links last, findLinks parse text fuel cursor secure plain close found = some links ∧
      findLinksPlain parse text fuel cursor found = some links ∧ Links text links last := by
  induction fuel generalizing cursor secure plain close found with
  | zero => omega
  | succ fuel ih =>
    obtain ⟨hs, hsecure'⟩ := Lookahead.find_spec hsecure le_rfl hb
    obtain ⟨hp, hplain'⟩ := Lookahead.find_spec hplain le_rfl hb
    unfold findLinks findLinksPlain
    by_cases hend : cursor < size text
    · rw [if_pos hend, if_pos hend]
      simp only
      rw [hs, hp]
      cases hnext : ([findFrom https text cursor, findFrom http text cursor].filterMap id).min? with
      | none => exact ⟨found, cursor, rfl, rfl, hfound⟩
      | some start =>
        obtain ⟨hle, p, scheme, rest, rfl, rfl, hscheme⟩ := next_spec hb hnext
        obtain ⟨stop, hstop, hhost, hbstop, hlink⟩ := linkEnd_spec hscheme p rest
        obtain ⟨link, hacc, hone⟩ := accepted_spec parse hlink
        have hopen : opensBracket (p ++ (scheme ++ rest)) (size p + size scheme) =
            some (decide (['['] <+: rest)) := by
          rw [← List.append_assoc, ← size_append]
          unfold opensBracket
          rw [split_append]
          rfl
        have hlong : 7 ≤ size scheme := by
          rcases hscheme with rfl | rfl <;> decide
        have hmax : max stop (size p + 1) = stop := by omega
        simp only
        rw [hostStart_eq hscheme]
        simp only [Option.bind_eq_bind, Option.bind_some]
        rw [hopen]
        simp only [Option.bind_some, decide_eq_true_eq]
        have hlook : (if ['['] <+: rest then
              close.find (p ++ (scheme ++ rest)) [']'] (size p + size scheme + 1)
            else (none, close)).1 = (if ['['] <+: rest then
              findFrom [']'] (p ++ (scheme ++ rest)) (size p + size scheme + 1) else none) ∧
            (if ['['] <+: rest then
              close.find (p ++ (scheme ++ rest)) [']'] (size p + size scheme + 1)
            else (none, close)).2.Fresh (p ++ (scheme ++ rest)) [']'] (stop + 1) := by
          split
          · next hbracket =>
            have hb' : Boundary (p ++ (scheme ++ rest)) (size p + size scheme + 1) := by
              obtain ⟨tail, rfl⟩ := hbracket
              refine ⟨p ++ scheme ++ ['['], tail, by simp, ?_⟩
              simp [show '['.utf8Size = 1 from rfl, Nat.add_assoc]
            obtain ⟨heq, hfresh⟩ := Lookahead.find_spec hclose (by omega) hb'
            exact ⟨heq, hfresh.mono (by omega)⟩
          · exact ⟨rfl, hclose.mono (by omega)⟩
        rw [hlook.1, hstop]
        simp only [Option.bind_some]
        rw [hacc]
        simp only [Option.bind_some]
        rw [hmax]
        exact ih (by omega) (by omega) hbstop (hsecure'.mono (by omega)) (hplain'.mono (by omega))
          hlook.2 (hfound.add hle le_rfl (by omega) hlink hone)
    · rw [if_neg hend, if_neg hend]
      exact ⟨found, cursor, rfl, rfl, hfound⟩

/-- Links are found safely in every text: the loop ends and every cut is between characters, what
is found is what plain searches find, and the links ascend without overlaps, each with a scheme, a
host in brackets or none, no character a link stops at and no punctuation at its end. -/
theorem find_safe (parse : List Char → Option Url) (text : List Char) :
    ∃ links, find parse text = some links ∧
      findLinksPlain parse text (size text + 1) 0 [] = some links ∧
      links.Pairwise (fun a b => a.1.stop ≤ b.1.start) ∧
      ∀ l ∈ links, l.1.start < l.1.stop ∧ Span text l.1 ∧ IsLink text l.1 := by
  obtain ⟨links, last, hfind, hplain, hlinks⟩ := findLinks_spec parse
    (by omega) (Nat.succ_pos (size text)) (boundary_zero text) Lookahead.fresh_default
    Lookahead.fresh_default Lookahead.fresh_default ⟨by simp, .nil⟩
  refine ⟨links, hfind, hplain, hlinks.ascending, fun l hl => ?_⟩
  have hlink := (hlinks.links l hl).1
  refine ⟨?_, ?_, hlink⟩
  · obtain ⟨p, scheme, host, body, q, -, heq, hscheme, -⟩ := hlink
    have hlong : 7 ≤ size scheme := by
      rcases hscheme with rfl | rfl <;> decide
    rw [heq]
    simp
    omega
  · obtain ⟨p, scheme, host, body, q, rfl, heq, -⟩ := hlink
    rw [heq]
    exact span_append p (scheme ++ host ++ body) q

end CayenChat.Text
