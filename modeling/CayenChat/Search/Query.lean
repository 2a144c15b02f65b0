import CayenChat.Lib.KnuthMorrisPratt
import CayenChat.Lib.Lowercase
import CayenChat.Lib.Occurrences

/-! # A search term

The matches of a term in a text, whatever the case: a text is read once, its characters in
lowercase, and a match is of whole characters. Reads outside of the text, the term or its tables
fail.
-/

namespace CayenChat.Search
open Utf8 KnuthMorrisPratt Lowercase

/-- A term in lowercase, and for each of its starts the length of the longest proper start of it
that is also its end. -/
structure Query where
  folded : List Char
  fallback : List ℕ
  deriving DecidableEq, Repr

variable {α : Type*}

def setAt (xs : List α) (i : ℕ) (x : α) : Option (List α) :=
  if i < xs.length then some (xs.set i x) else none

namespace Query

/-- Fills in the entries of the table at some indices. -/
def build (folded : List Char) : List ℕ → ℕ → List ℕ → Option (List ℕ)
  | [], _, fallback => some fallback
  | index :: indices, matched, fallback => do
    let c ← folded[index]?
    let matched ← advance folded (fun matched => do
      let next ← folded[matched]?
      pure (c != next)) fallback c matched
    build folded indices matched (← setAt fallback index matched)

/-- The query for a term; `none` inside for an empty term. -/
def new (lower : Lowercase) (term : List Char) : Option (Option Query) :=
  let folded := lower.fold term
  if folded = [] then some none
  else do
    let fallback ← build folded (List.range' 1 (folded.length - 1)) 0
      (List.replicate folded.length 0)
    pure (some ⟨folded, fallback⟩)

/-- What is kept while a text is read: where the last characters came from and whether each was the
first of its form, how many were read, and how much of the term is at their end. -/
structure Progress where
  origins : List (ℕ × Bool)
  count : ℕ
  matched : ℕ

variable (q : Query) (lower : Lowercase)

/-- Reads the form of the character between two positions, up to a match that ends with it. -/
def readForm (origin stop : ℕ) : List Char → Bool → Progress → Option (Progress ⊕ Range)
  | [], _, p => some (.inl p)
  | folded :: form, first, p => do
    let wanted := q.folded.length
    let origins ← setAt p.origins (p.count % wanted) (origin, first)
    let count := p.count + 1
    let matched ← advance q.folded (fun matched =>
      if matched = wanted then some true
      else do
        let next ← q.folded[matched]?
        pure (next != folded)) q.fallback folded p.matched
    if matched = wanted ∧ form = [] then
      let (start, onBoundary) ← origins[count % wanted]?
      if onBoundary then some (.inr ⟨start, stop⟩)
      else readForm origin stop form false ⟨origins, count, matched⟩
    else readForm origin stop form false ⟨origins, count, matched⟩

def readText (origin : ℕ) : ℕ → List Char → Progress → Option (Option Range)
  | _, [], _ => some none
  | offset, ch :: text, p => do
    match ← q.readForm (origin + offset) (origin + offset + ch.utf8Size) (lower.form ch) true p with
    | .inl p => readText origin (offset + ch.utf8Size) text p
    | .inr range => some (some range)

def findFrom (text : List Char) (origin : ℕ) : Option (Option Range) := do
  let (_, textTail) ← split text origin
  let wanted := q.folded.length
  if size textTail * 3 < wanted then some none
  else q.readText lower origin 0 textTail ⟨List.replicate wanted (0, false), 0, 0⟩

def isMatch (text : List Char) : Option Bool := do
  pure (← q.findFrom lower text 0).isSome

def rangesFrom (text : List Char) : ℕ → ℕ → List Range → Option (List Range)
  | 0, _, _ => none
  | fuel + 1, origin, found => do
    match ← q.findFrom lower text origin with
    | some range => rangesFrom text fuel range.stop (found ++ [range])
    | none => some found

def ranges (text : List Char) : Option (List Range) :=
  q.rangesFrom lower text (size text + 1) 0 []

end Query

/-! ## Searching character by character -/

def wholeMatch (lower : Lowercase) (word text : List Char) : Option (List Char) :=
  text.inits.find? fun m => decide (lower.fold m = word)

/-- The leftmost matches of a word in a text, each behind the one before. -/
def wholeMatches (lower : Lowercase) (word : List Char) : ℕ → List Char → List Range
  | _, [] => []
  | start, c :: text =>
    match wholeMatch lower word (c :: text) with
    | some m => ⟨start, start + size m⟩ ::
        wholeMatches lower word (start + size m) (text.drop (m.length - 1))
    | none => wholeMatches lower word (start + c.utf8Size) text
termination_by _ text => text.length
decreasing_by
  · rw [List.length_drop, List.length_cons]
    omega
  · exact Nat.lt_succ_self _

/-! ## The table -/

namespace Query

variable {q : Query} {lower : Lowercase} {folded word form read text term s : List Char}
  {fallback : List ℕ} {log : List (ℕ × Bool)} {p : Progress} {c : Char} {first : Bool}
  {start origin stop index matched offset n : ℕ}

/-- A query whose term has something in it and whose table is that of the term. -/
structure Sound (q : Query) : Prop where
  ne_nil : q.folded ≠ []
  table : Table q.folded q.fallback q.folded.length

theorem build_spec (hfrom : 0 < index) (hindex : index ≤ folded.length)
    (hlength : fallback.length = folded.length) (htable : Table folded fallback index)
    (hm : Longest folded (folded.take index).tail matched) :
    ∃ fallback', build folded (List.range' index (folded.length - index)) matched fallback =
      some fallback' ∧ Table folded fallback' folded.length := by
  induction hn : folded.length - index generalizing index matched fallback with
  | zero =>
    obtain rfl : index = folded.length := by omega
    exact ⟨fallback, rfl, htable⟩
  | succ n ih =>
    have hlt : index < folded.length := by omega
    have hle : matched < index := by
      have := hm.matched.le_length
      rw [List.length_tail, List.length_take, Nat.min_eq_left hindex] at this
      omega
    have hget := List.getElem?_eq_getElem hlt
    have hne : folded ≠ [] := List.ne_nil_of_length_pos (by omega)
    have hdiffers : ∀ k, 0 < k → k ≤ matched →
        ∃ b, (do let next ← folded[k]?; pure (folded[index] != next)) = some b ∧
          (b = true ↔ folded[k]? ≠ some folded[index]) := by
      intro k _ hk
      rw [List.getElem?_eq_getElem (by omega : k < folded.length)]
      refine ⟨_, rfl, ?_⟩
      rw [bne_iff_ne, Ne, Ne, Option.some.injEq, eq_comm]
    obtain ⟨r, hr, hlong⟩ := advance_spec hne htable hle.le hm hdiffers
    rw [← tail_take_succ hfrom hget] at hlong
    have hset : setAt fallback index r = some (fallback.set index r) := by
      rw [setAt, if_pos (by omega)]
    obtain ⟨fallback', hb, ht⟩ := ih (Nat.succ_pos _) hlt (by simpa using hlength)
      (htable.set (by omega) hlong) hlong (by omega)
    refine ⟨fallback', ?_, ht⟩
    rw [List.range'_succ, build, hget, Option.bind_eq_bind, Option.bind_some, hr,
      Option.bind_eq_bind, Option.bind_some, hset, Option.bind_eq_bind, Option.bind_some]
    exact hb

theorem new_spec (lower : Lowercase) (term : List Char) :
    (term = [] ∧ new lower term = some none) ∨
      ∃ q, new lower term = some (some q) ∧ q.folded = lower.fold term ∧ q.Sound := by
  unfold new
  by_cases hterm : term = []
  · exact .inl ⟨hterm, if_pos (fold_eq_nil.mpr hterm)⟩
  · have hne : lower.fold term ≠ [] := mt fold_eq_nil.mp hterm
    have hpos : 1 ≤ (lower.fold term).length := List.length_pos_iff.mpr hne
    have htail : ((lower.fold term).take 1).tail = [] := by
      rw [← List.length_eq_zero_iff, List.length_tail, List.length_take]
      omega
    have hlong : Longest (lower.fold term) ((lower.fold term).take 1).tail 0 := by
      rw [htail]
      exact longest_nil
    have htable : Table (lower.fold term) (List.replicate (lower.fold term).length 0) 1 := by
      intro k hk hk1
      obtain rfl : k = 1 := by omega
      exact ⟨0, by rw [List.getElem?_replicate, if_pos (by omega)], hlong⟩
    obtain ⟨fallback, hb, ht⟩ := build_spec Nat.one_pos hpos List.length_replicate htable hlong
    refine .inr ⟨⟨lower.fold term, fallback⟩, ?_, rfl, hne, ht⟩
    simp only [if_neg hne, hb, Option.bind_eq_bind, Option.bind_some, Option.pure_def]

/-! ## Reading a text -/

def formOrigins (origin : ℕ) : Bool → List Char → List (ℕ × Bool)
  | _, [] => []
  | first, _ :: form => (origin, first) :: formOrigins origin false form

def textOrigins (lower : Lowercase) : ℕ → List Char → List (ℕ × Bool)
  | _, [] => []
  | start, c :: text =>
    formOrigins start true (lower.form c) ++ textOrigins lower (start + c.utf8Size) text

/-- The state of a query behind the characters read: the ring holds where the last of them come
from. -/
structure Reads (q : Query) (log : List (ℕ × Bool)) (read : List Char) (p : Progress) : Prop where
  length : p.origins.length = q.folded.length
  count : p.count = read.length
  log_length : log.length = read.length
  ring : ∀ i < p.count, p.count ≤ i + q.folded.length →
    p.origins[i % q.folded.length]? = log[i]?
  matched : Longest q.folded read p.matched

def EndsMatch (q : Query) (log : List (ℕ × Bool)) (read : List Char) (start : ℕ) : Prop :=
  q.folded <:+ read ∧ log[read.length - q.folded.length]? = some (start, true)

theorem Sound.reads (hq : q.Sound) (h : Reads q log read p) (origin : ℕ) (first : Bool) :
    ∃ origins matched, setAt p.origins (p.count % q.folded.length) (origin, first) = some origins ∧
      advance q.folded (fun matched =>
        if matched = q.folded.length then some true
        else do
          let next ← q.folded[matched]?
          pure (next != c)) q.fallback c p.matched = some matched ∧
      Reads q (log ++ [(origin, first)]) (read ++ [c]) ⟨origins, p.count + 1, matched⟩ := by
  have hpos : 0 < q.folded.length := List.length_pos_iff.mpr hq.ne_nil
  have hdiffers : ∀ k, 0 < k → k ≤ p.matched →
      ∃ b, (if k = q.folded.length then some true
        else do let next ← q.folded[k]?; pure (next != c)) = some b ∧
          (b = true ↔ q.folded[k]? ≠ some c) := by
    intro k _ hk
    have hle := h.matched.matched.1
    by_cases heq : k = q.folded.length
    · refine ⟨true, if_pos heq, ?_⟩
      rw [heq, List.getElem?_eq_none le_rfl]
      simp
    · rw [if_neg heq, List.getElem?_eq_getElem (by omega : k < q.folded.length)]
      refine ⟨_, rfl, ?_⟩
      rw [bne_iff_ne, Ne, Ne, Option.some.injEq]
  obtain ⟨matched, hm, hlong⟩ :=
    advance_spec hq.ne_nil hq.table h.matched.matched.1 h.matched hdiffers
  refine ⟨_, matched, if_pos (by rw [h.length]; exact Nat.mod_lt _ hpos), hm, ?_⟩
  have hcount := h.count
  have hlog := h.log_length
  refine ⟨by simpa using h.length, by simpa using hcount, by simpa using hlog, ?_, hlong⟩
  intro i hi hle
  dsimp only at hi hle ⊢
  have hwrap : p.count % q.folded.length < p.origins.length := by
    rw [h.length]
    exact Nat.mod_lt _ hpos
  rcases Nat.lt_or_eq_of_le (Nat.lt_succ_iff.mp hi) with hlt | rfl
  · -- The entry written is behind the others in the ring.
    have hother : p.count % q.folded.length ≠ i % q.folded.length := by
      intro heq
      have hmod := (Nat.modEq_iff_dvd' hlt.le).mp heq.symm
      exact absurd (Nat.le_of_dvd (by omega) hmod) (by omega)
    rw [List.getElem?_set_ne hother, List.getElem?_append_left (by omega)]
    exact h.ring i hlt (by omega)
  · rw [List.getElem?_set_self hwrap, hcount, ← hlog]
    simp

theorem Reads.oldest (h : Reads q log read p) (hq : q.Sound)
    (hm : p.matched = q.folded.length) :
    ∃ o, p.origins[p.count % q.folded.length]? = some o ∧
      log[read.length - q.folded.length]? = some o := by
  have hpos : 0 < q.folded.length := List.length_pos_iff.mpr hq.ne_nil
  have hcount := h.count
  have hlog := h.log_length
  have hle : q.folded.length ≤ read.length := hm ▸ h.matched.matched.le_length
  have hmod : p.count % q.folded.length = (read.length - q.folded.length) % q.folded.length := by
    rw [hcount]
    exact Nat.mod_eq_sub_mod hle
  have hlt : read.length - q.folded.length < log.length := by omega
  refine ⟨_, ?_, List.getElem?_eq_getElem hlt⟩
  rw [hmod, h.ring _ (by omega) (by omega)]
  exact List.getElem?_eq_getElem hlt

theorem readForm_cons {origins : List (ℕ × Bool)}
    (hset : setAt p.origins (p.count % q.folded.length) (origin, first) = some origins)
    (hm : advance q.folded (fun matched =>
        if matched = q.folded.length then some true
        else do
          let next ← q.folded[matched]?
          pure (next != c)) q.fallback c p.matched = some matched) :
    q.readForm origin stop (c :: form) first p =
      if matched = q.folded.length ∧ form = [] then
        origins[(p.count + 1) % q.folded.length]?.bind fun o =>
          if o.2 then some (.inr ⟨o.1, stop⟩)
          else q.readForm origin stop form false ⟨origins, p.count + 1, matched⟩
      else q.readForm origin stop form false ⟨origins, p.count + 1, matched⟩ := by
  rw [readForm]
  dsimp only
  rw [hset, Option.bind_eq_bind, Option.bind_some, hm, Option.bind_eq_bind, Option.bind_some]
  rfl

theorem readForm_spec (hq : q.Sound) (origin stop : ℕ) (first : Bool) (h : Reads q log read p)
    (hform : form ≠ []) :
    (∃ start, EndsMatch q (log ++ formOrigins origin first form) (read ++ form) start ∧
      q.readForm origin stop form first p = some (.inr ⟨start, stop⟩)) ∨
    (∀ start, ¬EndsMatch q (log ++ formOrigins origin first form) (read ++ form) start) ∧
      ∃ p', q.readForm origin stop form first p = some (.inl p') ∧
        Reads q (log ++ formOrigins origin first form) (read ++ form) p' := by
  induction form generalizing log read p first with
  | nil => exact absurd rfl hform
  | cons c form ih =>
    obtain ⟨origins, matched, hset, hm, hreads⟩ := hq.reads h origin first (c := c)
    rw [readForm_cons hset hm]
    by_cases hlast : form = []
    · subst hlast
      rw [formOrigins, formOrigins]
      by_cases hfull : matched = q.folded.length
      · rw [if_pos ⟨hfull, rfl⟩]
        obtain ⟨⟨start, onBoundary⟩, ho, hlog⟩ := hreads.oldest hq hfull
        have hends := hreads.matched.eq_length.mp hfull
        dsimp only at ho
        rw [ho, Option.bind_some]
        cases onBoundary with
        | true => exact .inl ⟨start, ⟨hends, hlog⟩, rfl⟩
        | false =>
          refine .inr ⟨?_, _, rfl, hreads⟩
          rintro start' ⟨-, hstart⟩
          rw [hlog] at hstart
          cases hstart
      · rw [if_neg fun h => hfull h.1]
        exact .inr ⟨fun start h => hfull (hreads.matched.eq_length.mpr h.1), _, rfl, hreads⟩
    · rw [if_neg fun h => hlast h.2, formOrigins]
      simpa only [List.append_assoc, List.singleton_append] using ih false hreads hlast

/-! ## Matches of whole characters -/

def EndsWith (lower : Lowercase) (word s d : List Char) : Prop :=
  ∃ m, s = d ++ m ∧ lower.fold m = word

theorem length_formOrigins : (formOrigins origin first form).length = form.length := by
  induction form generalizing first with
  | nil => rfl
  | cons c form ih => simp [formOrigins, ih]

theorem textOrigins_append {t : List Char} : textOrigins lower start (s ++ t) =
    textOrigins lower start s ++ textOrigins lower (start + size s) t := by
  induction s generalizing start with
  | nil => rfl
  | cons c s ih => simp [textOrigins, ih, Nat.add_assoc]

theorem formOrigins_false {i : ℕ} {o : ℕ × Bool}
    (h : (formOrigins origin false form)[i]? = some o) : o.2 = false := by
  induction form generalizing i with
  | nil => cases h
  | cons c form ih =>
    cases i with
    | zero =>
      cases h
      rfl
    | succ i => exact ih h

theorem textOrigins_eq_true {i : ℕ} : (textOrigins lower start s)[i]? = some (offset, true) ↔
    ∃ d m, s = d ++ m ∧ m ≠ [] ∧ i = (lower.fold d).length ∧ offset = start + size d := by
  induction s generalizing start i with
  | nil =>
    constructor
    · intro h
      cases h
    · rintro ⟨d, m, hs, hm, -⟩
      exact absurd (List.append_eq_nil_iff.mp hs.symm).2 hm
  | cons c s ih =>
    have hpos := lower.length_form_pos c
    obtain ⟨l, form, hform⟩ := List.exists_cons_of_ne_nil (lower.ne_nil c)
    rcases Nat.lt_or_ge i (lower.form c).length with hlt | hge
    · rw [textOrigins, List.getElem?_append_left (by rw [length_formOrigins]; exact hlt)]
      cases i with
      | zero =>
        rw [hform, formOrigins, List.getElem?_cons_zero]
        constructor
        · intro h
          cases h
          exact ⟨[], c :: s, rfl, List.cons_ne_nil _ _, rfl, rfl⟩
        · rintro ⟨d, m, -, -, hd, rfl⟩
          obtain rfl := fold_eq_nil.mp (List.length_eq_zero_iff.mp hd.symm)
          rfl
      | succ i =>
        rw [hform, formOrigins, List.getElem?_cons_succ]
        constructor
        · intro h
          have := formOrigins_false h
          cases this
        · rintro ⟨d, m, hs, -, hd, -⟩
          cases d with
          | nil => cases hd
          | cons c' d =>
            obtain ⟨rfl, -⟩ := List.cons.inj hs
            rw [fold_cons, List.length_append] at hd
            omega
    · rw [textOrigins, List.getElem?_append_right (by rw [length_formOrigins]; exact hge),
        length_formOrigins, ih]
      constructor
      · rintro ⟨d, m, rfl, hm, hd, rfl⟩
        refine ⟨c :: d, m, rfl, hm, ?_, by rw [size_cons, Nat.add_assoc]⟩
        rw [fold_cons, List.length_append]
        omega
      · rintro ⟨d, m, hs, hm, hd, rfl⟩
        cases d with
        | nil =>
          rw [fold_nil, List.length_nil] at hd
          omega
        | cons c' d =>
          obtain ⟨rfl, rfl⟩ := List.cons.inj hs
          rw [fold_cons, List.length_append] at hd
          exact ⟨d, m, rfl, hm, by omega, by rw [size_cons, Nat.add_assoc]⟩

theorem endsMatch_iff (hq : q.Sound) :
    EndsMatch q (textOrigins lower start s) (lower.fold s) offset ↔
      ∃ d, EndsWith lower q.folded s d ∧ offset = start + size d := by
  unfold EndsMatch
  rw [textOrigins_eq_true]
  constructor
  · rintro ⟨hends, d, m, rfl, hm, hlen, rfl⟩
    refine ⟨d, ⟨m, rfl, ?_⟩, rfl⟩
    have hle := hends.length_le
    rw [fold_append] at hends hlen hle
    rw [List.length_append] at hlen hle
    refine (List.suffix_of_suffix_length_le (List.suffix_append _ _) hends ?_).eq_of_length ?_
    · omega
    · omega
  · rintro ⟨d, ⟨m, rfl, hm⟩, rfl⟩
    have hmne : m ≠ [] := by
      rintro rfl
      exact hq.ne_nil hm.symm
    refine ⟨⟨lower.fold d, by rw [fold_append, hm]⟩, d, m, rfl, hmne, ?_, rfl⟩
    rw [fold_append, List.length_append, hm]
    omega

/-- What stands before a match, the match and what follows it, where no match ends before. -/
structure FirstEnd (lower : Lowercase) (word t d m rest : List Char) : Prop where
  eq : t = d ++ m ++ rest
  fold : lower.fold m = word
  first : ∀ s, s <+: t → s.length < (d ++ m).length → ∀ d', ¬EndsWith lower word s d'

def NoEnd (lower : Lowercase) (word t : List Char) : Prop :=
  ∀ s, s <+: t → ∀ d, ¬EndsWith lower word s d

theorem textOrigins_concat : textOrigins lower start (s ++ [c]) =
    textOrigins lower start s ++ formOrigins (start + size s) true (lower.form c) := by
  rw [textOrigins_append]
  simp [textOrigins]

theorem readText_spec (hq : q.Sound)
    (h : Reads q (textOrigins lower origin s) (lower.fold s) p)
    (hs : NoEnd lower q.folded s) :
    (∃ d m rest, FirstEnd lower q.folded (s ++ text) d m rest ∧
      q.readText lower origin (size s) text p =
        some (some ⟨origin + size d, origin + size d + size m⟩)) ∨
    NoEnd lower q.folded (s ++ text) ∧ q.readText lower origin (size s) text p = some none := by
  induction text generalizing s p with
  | nil =>
    refine .inr ⟨?_, rfl⟩
    rwa [List.append_nil]
  | cons c text ih =>
    rw [readText]
    rcases readForm_spec hq (origin + size s) (origin + size s + c.utf8Size) true h
      (lower.ne_nil c) with ⟨start, hends, hread⟩ | ⟨hno, p', hread, hp'⟩
    · rw [← textOrigins_concat] at hends
      have hfold : lower.fold s ++ lower.form c = lower.fold (s ++ [c]) := by simp
      rw [hfold] at hends
      obtain ⟨d, ⟨m, hdm, hm⟩, rfl⟩ := (endsMatch_iff hq).mp hends
      refine .inl ⟨d, m, text, ⟨?_, hm, ?_⟩, ?_⟩
      · rw [← hdm, List.append_assoc]
        rfl
      · intro s' hs' hlt d'
        rw [← hdm, List.length_append, List.length_singleton] at hlt
        refine hs s' (List.prefix_of_prefix_length_le hs' (List.prefix_append _ _) ?_) d'
        omega
      · have hsize : size s + c.utf8Size = size d + size m := by
          have := congrArg size hdm
          simpa using this
        rw [hread, Option.bind_eq_bind, Option.bind_some, Nat.add_assoc, hsize, ← Nat.add_assoc]
    · rw [← textOrigins_concat] at hno hp'
      have hfold : lower.fold s ++ lower.form c = lower.fold (s ++ [c]) := by simp
      rw [hfold] at hno hp'
      have hs' : NoEnd lower q.folded (s ++ [c]) := by
        intro t ht d hd
        rcases List.prefix_concat_iff.mp ht with rfl | ht
        · exact hno _ ((endsMatch_iff hq).mpr ⟨d, hd, rfl⟩)
        · exact hs t ht d hd
      have hsize : size s + c.utf8Size = size (s ++ [c]) := by simp
      have htext : s ++ c :: text = s ++ [c] ++ text := by simp
      rw [hread, Option.bind_eq_bind, Option.bind_some, htext]
      simp only
      rw [hsize]
      exact ih hp' hs'

theorem findFrom_spec (hq : q.Sound) (lower : Lowercase) (s t : List Char) :
    (∃ d m rest, FirstEnd lower q.folded t d m rest ∧
      q.findFrom lower (s ++ t) (size s) =
        some (some ⟨size s + size d, size s + size d + size m⟩)) ∨
    NoEnd lower q.folded t ∧ q.findFrom lower (s ++ t) (size s) = some none := by
  have hfind : q.findFrom lower (s ++ t) (size s) =
      if size t * 3 < q.folded.length then some none
      else q.readText lower (size s) 0 t
        ⟨List.replicate q.folded.length (0, false), 0, 0⟩ := by
    unfold findFrom
    rw [split_append]
    rfl
  rw [hfind]
  split
  · next hshort =>
    refine .inr ⟨?_, rfl⟩
    rintro u ⟨v, rfl⟩ d ⟨m, rfl, hm⟩
    have hle := lower.length_fold_le (d ++ m ++ v)
    rw [fold_append, fold_append, List.length_append, List.length_append, hm] at hle
    omega
  · have hreads : Reads q (textOrigins lower (size s) []) (lower.fold [])
        ⟨List.replicate q.folded.length (0, false), 0, 0⟩ :=
      ⟨List.length_replicate, rfl, rfl, fun i hi => absurd hi (Nat.not_lt_zero _), longest_nil⟩
    have hnil : NoEnd lower q.folded [] := by
      rintro u hu d ⟨m, rfl, hm⟩
      obtain ⟨-, rfl⟩ := List.append_eq_nil_iff.mp (List.prefix_nil.mp hu)
      exact hq.ne_nil hm.symm
    exact readText_spec hq hreads hnil

/-! ## The leftmost matches -/

theorem wholeMatch_eq_some {m : List Char} :
    wholeMatch lower word s = some m ↔ m <+: s ∧ lower.fold m = word := by
  have hfound {m' : List Char} (h : wholeMatch lower word s = some m') :
      m' <+: s ∧ lower.fold m' = word :=
    ⟨List.mem_inits _ _ |>.mp (List.mem_of_find?_eq_some h), by simpa using List.find?_some h⟩
  constructor
  · exact hfound
  · rintro ⟨hm, hfold⟩
    cases h : wholeMatch lower word s with
    | none =>
      have := List.find?_eq_none.mp h m ((List.mem_inits _ _).mpr hm)
      simp [hfold] at this
    | some m' =>
      obtain ⟨hm', hfold'⟩ := hfound h
      rw [prefix_unique hm' hm (by rw [hfold', hfold])]

theorem wholeMatch_eq_none :
    wholeMatch lower word s = none ↔ ∀ m, m <+: s → lower.fold m ≠ word := by
  rw [Option.eq_none_iff_forall_ne_some]
  simp only [Ne, wholeMatch_eq_some, not_and]

theorem FirstEnd.length_le {d m rest d' m' : List Char} (h : FirstEnd lower word s d m rest)
    (hs : d' ++ m' <+: s) (hm' : lower.fold m' = word) : d.length ≤ d'.length := by
  by_contra hlt
  have hd : d <+: s := by
    rw [h.eq, List.append_assoc]
    exact List.prefix_append _ _
  have hdm : d ++ m <+: s := by
    rw [h.eq]
    exact List.prefix_append _ _
  have hlonger : (d ++ m).length ≤ (d' ++ m').length := by
    by_contra hc
    exact h.first _ hs (by omega) d' ⟨m', rfl, hm'⟩
  have hpre : d ++ m <+: d' ++ m' := List.prefix_of_prefix_length_le hdm hs hlonger
  have hpre' : d' <+: d :=
    List.prefix_of_prefix_length_le ((List.prefix_append _ _).trans hs) hd (by omega)
  have hne : d' ≠ d := by
    rintro rfl
    exact hlt le_rfl
  have hfold := @length_fold_lt lower _ _ hpre' hne
  obtain ⟨t, ht⟩ := hpre
  have hlen := congrArg (fun u => (lower.fold u).length) ht
  simp only [fold_append, List.length_append, h.fold, hm'] at hlen
  omega

theorem wholeMatches_of_firstEnd (hword : word ≠ []) {d m rest : List Char}
    (h : FirstEnd lower word s d m rest) : wholeMatches lower word start s =
      ⟨start + size d, start + size d + size m⟩ ::
        wholeMatches lower word (start + size d + size m) rest := by
  induction d generalizing start s with
  | nil =>
    have hs := h.eq
    rw [List.nil_append] at hs
    have hm : wholeMatch lower word s = some m :=
      wholeMatch_eq_some.mpr ⟨⟨rest, hs.symm⟩, h.fold⟩
    have hne : m ≠ [] := by
      rintro rfl
      exact hword h.fold.symm
    obtain ⟨c, m, rfl⟩ := List.exists_cons_of_ne_nil hne
    subst hs
    rw [List.cons_append] at hm ⊢
    rw [wholeMatches, hm]
    simp
  | cons c d ih =>
    have hs := h.eq
    rw [List.cons_append, List.cons_append] at hs
    subst hs
    have hm : wholeMatch lower word (c :: (d ++ m ++ rest)) = none := by
      rw [wholeMatch_eq_none]
      intro m' hm' hfold
      have := h.length_le (show [] ++ m' <+: _ from hm') hfold
      simp at this
    have hrest : FirstEnd lower word (d ++ m ++ rest) d m rest := by
      refine ⟨rfl, h.fold, ?_⟩
      rintro u hu hlt d' ⟨m', rfl, hm'⟩
      refine h.first (c :: (d' ++ m')) (List.cons_prefix_cons.mpr ⟨rfl, hu⟩) ?_ (c :: d')
        ⟨m', rfl, hm'⟩
      simpa using hlt
    rw [wholeMatches, hm]
    simp only
    rw [ih hrest]
    simp only [size_cons, Nat.add_assoc]

theorem wholeMatches_of_noEnd (h : NoEnd lower word s) : wholeMatches lower word start s = [] := by
  induction s generalizing start with
  | nil => rw [wholeMatches]
  | cons c s ih =>
    have hm : wholeMatch lower word (c :: s) = none := by
      rw [wholeMatch_eq_none]
      exact fun m hm hfold => h m hm [] ⟨m, rfl, hfold⟩
    rw [wholeMatches, hm]
    refine ih ?_
    rintro u hu d ⟨m, rfl, hfold⟩
    exact h (c :: (d ++ m)) (List.cons_prefix_cons.mpr ⟨rfl, hu⟩) (c :: d) ⟨m, rfl, hfold⟩

theorem rangesFrom_spec (hq : q.Sound) {fuel : ℕ} {t : List Char} {found : List Range}
    (hfuel : size t < fuel) : q.rangesFrom lower (s ++ t) fuel (size s) found =
      some (found ++ wholeMatches lower q.folded (size s) t) := by
  induction fuel generalizing s t found with
  | zero => omega
  | succ fuel ih =>
    rw [rangesFrom]
    rcases findFrom_spec hq lower s t with ⟨d, m, rest, h, hfind⟩ | ⟨h, hfind⟩
    · have hne : m ≠ [] := by
        rintro rfl
        exact hq.ne_nil h.fold.symm
      have hpos : size m ≠ 0 := mt size_eq_zero.mp hne
      have htext := h.eq
      rw [hfind, Option.bind_eq_bind, Option.bind_some, wholeMatches_of_firstEnd hq.ne_nil h]
      subst htext
      have hleft : size rest < fuel := by
        simp only [size_append] at hfuel
        omega
      have hrest := @ih (s ++ d ++ m) rest
        (found ++ [⟨size s + size d, size s + size d + size m⟩]) hleft
      simpa [Nat.add_assoc] using hrest
    · rw [hfind, Option.bind_eq_bind, Option.bind_some, wholeMatches_of_noEnd h,
        List.append_nil]

/-- The leftmost matches are matches of whole characters, ascend without overlaps, and every match
starts in one of them. -/
theorem wholeMatches_spec (hword : word ≠ []) (lower : Lowercase) (start : ℕ) (s : List Char) :
    (∀ r ∈ wholeMatches lower word start s, ∃ d m rest, s = d ++ m ++ rest ∧
      lower.fold m = word ∧ r = ⟨start + size d, start + size d + size m⟩) ∧
    (wholeMatches lower word start s).Pairwise (fun r r' => r.stop ≤ r'.start) ∧
    ∀ d m rest, s = d ++ m ++ rest → lower.fold m = word →
      ∃ r ∈ wholeMatches lower word start s,
        r.start ≤ start + size d ∧ start + size d < r.stop := by
  fun_induction wholeMatches lower word start s with
  | case1 start =>
    refine ⟨by simp, .nil, ?_⟩
    rintro d m rest hs hm
    obtain ⟨hs, -⟩ := List.append_eq_nil_iff.mp hs.symm
    obtain ⟨-, rfl⟩ := List.append_eq_nil_iff.mp hs
    exact absurd hm.symm hword
  | case2 start c text m hfound ih =>
    obtain ⟨⟨rest, hrest⟩, hm⟩ := wholeMatch_eq_some.mp hfound
    have hne : m ≠ [] := by
      rintro rfl
      exact hword hm.symm
    rw [Occurrences.drop_of_match hne hrest] at ih ⊢
    obtain ⟨hmem, hasc, hall⟩ := ih
    rw [← hrest]
    refine ⟨?_, List.pairwise_cons.mpr ⟨?_, hasc⟩, ?_⟩
    · intro r hr
      rcases List.mem_cons.mp hr with rfl | hr
      · exact ⟨[], m, rest, rfl, hm, by simp⟩
      · obtain ⟨d, m', rest', rfl, hm', rfl⟩ := hmem r hr
        exact ⟨m ++ d, m', rest', by simp, hm', by simp [Nat.add_assoc]⟩
    · intro r hr
      obtain ⟨d, m', rest', -, -, rfl⟩ := hmem r hr
      exact Nat.le_add_right ..
    · intro d m' rest' hs hm'
      rw [List.append_assoc] at hs
      rcases List.append_eq_append_iff.mp hs with ⟨u, rfl, hu⟩ | ⟨u, rfl, hu⟩
      · -- The match starts behind the one found, or where it ends.
        obtain ⟨r, hr, hlow, hhigh⟩ := hall u m' rest' (by rw [hu, List.append_assoc]) hm'
        refine ⟨r, List.mem_cons_of_mem _ hr, ?_, ?_⟩
        · rw [size_append, ← Nat.add_assoc]
          exact hlow
        · rw [size_append, ← Nat.add_assoc]
          exact hhigh
      · rcases eq_or_ne u [] with rfl | hu'
        · obtain ⟨r, hr, hlow, hhigh⟩ := hall [] m' rest' (by simpa using hu.symm) hm'
          refine ⟨r, List.mem_cons_of_mem _ hr, ?_, ?_⟩
          · simpa using hlow
          · simpa using hhigh
        · have hpos : size u ≠ 0 := mt size_eq_zero.mp hu'
          refine ⟨_, List.mem_cons_self, Nat.le_add_right .., ?_⟩
          rw [size_append]
          dsimp only
          omega
  | case3 start c text hnone ih =>
    obtain ⟨hmem, hasc, hall⟩ := ih
    refine ⟨?_, hasc, ?_⟩
    · intro r hr
      obtain ⟨d, m, rest, rfl, hm, rfl⟩ := hmem r hr
      exact ⟨c :: d, m, rest, rfl, hm, by simp [Nat.add_assoc]⟩
    · intro d m rest hs hm
      cases d with
      | nil => exact absurd hm (wholeMatch_eq_none.mp hnone m ⟨rest, hs.symm⟩)
      | cons c' d =>
        obtain ⟨rfl, rfl⟩ := List.cons.inj hs
        obtain ⟨r, hr, hlow, hhigh⟩ := hall d m rest rfl hm
        rw [Nat.add_assoc] at hlow hhigh
        exact ⟨r, hr, hlow, hhigh⟩

/-- Searching for a term finds exactly its leftmost matches. Every term but the empty one has a
query, and for every text the query reads to the end without leaving the text or its tables; the
ranges are those a search character by character finds, so they are of whole characters whose
lowercase form is that of the term and ascend without overlaps, and no match starts outside of
them; a text matches when it has one. -/
theorem ranges_eq_wholeMatches (lower : Lowercase) (term : List Char) :
    ∃ query, new lower term = some query ∧ (query = none ↔ term = []) ∧ ∀ q ∈ query, ∀ text,
      ∃ found, q.ranges lower text = some found ∧
        found = wholeMatches lower (lower.fold term) 0 text ∧
        q.isMatch lower text = some (!found.isEmpty) ∧
        found.Pairwise (fun r r' => r.stop ≤ r'.start) ∧
        (∀ r ∈ found, Span text r) ∧
        (∀ r ∈ found, ∃ d m rest, text = d ++ m ++ rest ∧ lower.fold m = lower.fold term ∧
          r = ⟨size d, size d + size m⟩) ∧
        ∀ d m rest, text = d ++ m ++ rest → lower.fold m = lower.fold term →
          ∃ r ∈ found, r.start ≤ size d ∧ size d < r.stop := by
  rcases new_spec lower term with ⟨rfl, hnew⟩ | ⟨q, hnew, hfolded, hq⟩
  · exact ⟨none, hnew, by simp, fun q hq => absurd hq (Option.not_mem_none q)⟩
  · have hterm : term ≠ [] := by
      rintro rfl
      exact hq.ne_nil hfolded
    refine ⟨some q, hnew, by simpa using hterm, ?_⟩
    rintro q' ⟨⟩ text
    have hword : lower.fold term ≠ [] := hfolded ▸ hq.ne_nil
    obtain ⟨hmem, hasc, hall⟩ := wholeMatches_spec hword lower 0 text
    simp only [Nat.zero_add] at hmem hall
    have hranges : q.rangesFrom lower ([] ++ text) (size text + 1) (size []) [] =
        some ([] ++ wholeMatches lower q.folded (size []) text) :=
      rangesFrom_spec hq (Nat.lt_succ_self _)
    refine ⟨_, ?_, rfl, ?_, hasc, ?_, hmem, hall⟩
    · rw [← hfolded]
      exact hranges
    · unfold isMatch
      rw [← hfolded]
      rcases findFrom_spec hq lower [] text with ⟨d, m, rest, h, hfind⟩ | ⟨h, hfind⟩
      · rw [wholeMatches_of_firstEnd hq.ne_nil h]
        rw [List.nil_append, size_nil] at hfind
        rw [hfind]
        simp
      · rw [wholeMatches_of_noEnd h]
        rw [List.nil_append, size_nil] at hfind
        rw [hfind]
        simp
    · intro r hr
      obtain ⟨d, m, rest, rfl, -, rfl⟩ := hmem r hr
      exact span_append d m rest

end Query

end CayenChat.Search
