import CayenChat.App.Identity
import CayenChat.App.Networks
import CayenChat.Lib.Newest
import CayenChat.Search.Query

/-! # Searches in slices

A search reads the logs of its scope one after another, a bounded number of
lines at a time, and goes on by sequence in logs that may have changed
meanwhile. It lists the newest matching lines, the same ones however it is cut.
-/

namespace CayenChat.App

/-- What a search covers: the log that is selected, or every log in memory. -/
inductive Scope
  | selected
  | all
  deriving DecidableEq, Repr

def maxHits : ℕ := 10000

def textCost (text : String) : ℕ := 1 + text.utf8ByteSize / 64

/-- A sort of hits by sequence, that may leave hits of one sequence in any order. -/
structure HitSort where
  sort : List Hit → List Hit
  perm : ∀ hits, (sort hits).Perm hits
  sorted : ∀ hits, (sort hits).Pairwise fun a b => a.sequence ≤ b.sequence

/-- The sort that leaves hits of one sequence in order. -/
def HitSort.stable : HitSort where
  sort hits := hits.insertionSort fun a b => a.sequence ≤ b.sequence
  perm hits := List.perm_insertionSort _ hits
  sorted hits := by
    have htrans : IsTrans Hit fun a b => a.sequence ≤ b.sequence := ⟨fun _ _ _ => le_trans⟩
    have htotal : Std.Total fun a b : Hit => a.sequence ≤ b.sequence := ⟨fun _ _ => le_total _ _⟩
    exact List.pairwise_insertionSort _ hits

/-- A search in progress: the source being read, and the first sequence of it not read yet. -/
structure Scan where
  query : Search.Query
  sources : List Source
  cursor : ℕ := 0
  nextSequence : ℤ := 0
  hits : List Hit := []
  truncated : Bool := false
  deriving DecidableEq, Repr

/-- The logs a search covers. -/
def AppState.scopeSources (s : AppState) : Scope → List Source
  | .selected =>
    match s.selected with
    | .channel id => [.conversation id]
    | .server network => [.server network]
    | .none => []
  | .all =>
    s.conversations.map (fun c => .conversation c.id) ++ s.networks.map fun n => .server n.id

namespace Scan

def new (s : AppState) (scope : Scope) (query : Search.Query) : Scan :=
  { query, sources := s.scopeSources scope }

def isDone (scan : Scan) : Bool := decide (scan.sources.length ≤ scan.cursor)

variable (lower : Lowercase) (sort : HitSort)

/-- Reads lines of a source while the budget lasts; also what is left of it, and whether the source
was read to its end. -/
def read (source : Source) : List Message → Scan → ℕ → Option (Scan × ℕ × Bool)
  | [], scan, budget => some (scan, budget, true)
  | m :: lines, scan, budget =>
    if budget = 0 then some ({ scan with nextSequence := m.sequence }, budget, false)
    else do
      let found ← scan.query.isMatch lower m.text.toList
      read source lines
        (if found then { scan with hits := scan.hits ++ [⟨source, m.sequence⟩] } else scan)
        (budget - textCost m.text)

/-- Reads the sources that are left while the budget lasts. -/
def readSources (s : AppState) : List Source → Scan → ℕ → Option Scan
  | [], scan, _ => some scan
  | source :: rest, scan, budget =>
    if budget = 0 then some scan
    else do
      let lines := s.lines source
      let start := Search.partitionPoint (fun m => decide (m.sequence < scan.nextSequence)) lines
      let (scan, budget, finishedSource) ← read lower source (lines.drop start) scan budget
      if finishedSource then
        readSources s rest { scan with cursor := scan.cursor + 1, nextSequence := 0 } budget
      -- the budget is spent
      else some scan

def inOrder (before : ℕ) (scan : Scan) : Scan :=
  if 1 < scan.sources.length ∧ scan.hits.length ≠ before then
    { scan with hits := sort.sort scan.hits }
  else scan

def bounded (scan : Scan) : Scan :=
  if maxHits < scan.hits.length then
    { scan with hits := scan.hits.drop (scan.hits.length - maxHits), truncated := true }
  else scan

def step (scan : Scan) (s : AppState) (budget : ℕ) : Option Scan := do
  let before := scan.hits.length
  let scan ← readSources lower s (scan.sources.drop scan.cursor) scan budget
  some (scan.inOrder sort before).bounded

def steps (s : AppState) : List ℕ → Scan → Option Scan
  | [], scan => some scan
  | budget :: budgets, scan => do steps s budgets (← scan.step lower sort s budget)

end Scan

/-- A call on the application state, or a step of the search. -/
inductive SearchMove
  | call (i : AppCall)
  | step (budget : ℕ)

def SearchMove.advance (lower : Lowercase) (sort : HitSort) (lowercase : String → String) :
    AppState × Option Scan → SearchMove → AppState × Option Scan
  | (s, scan), .call i => (s.call lowercase i, scan)
  | (s, scan), .step budget => (s, scan.bind fun scan => scan.step lower sort s budget)

/-! ## What a search is to list -/

def lineMatches (lower : Lowercase) (q : Search.Query) (m : Message) : Bool :=
  q.isMatch lower m.text.toList == some true

def hitsIn (lower : Lowercase) (q : Search.Query) (source : Source) (lines : List Message) :
    List Hit :=
  (lines.filter (lineMatches lower q)).map fun m => ⟨source, m.sequence⟩

def allHits (lower : Lowercase) (s : AppState) (q : Search.Query) (sources : List Source) :
    List Hit :=
  sources.flatMap fun source => hitsIn lower q source (s.lines source)

def newestHits (hits : List Hit) : List Hit :=
  (HitSort.stable.sort hits).drop (hits.length - maxHits)

def AppState.Lists (lower : Lowercase) (q : Search.Query) (s : AppState) (hit : Hit) : Prop :=
  ∃ m ∈ s.lines hit.source, m.sequence = hit.sequence ∧ lineMatches lower q m = true

/-- The logs ascend, from sequence zero on. -/
structure AppState.Readable (s : AppState) : Prop where
  ascending : ∀ source, Ascending (s.lines source)
  nonneg : ∀ source, ∀ m ∈ s.lines source, 0 ≤ m.sequence

variable {lower : Lowercase} {sort : HitSort} {lowercase : String → String} {s : AppState}
  {q : Search.Query} {scan scan' scan'' : Scan} {source : Source} {hit hit' : Hit}
  {new new' seen : List Hit}

theorem isMatch_eq (hq : q.Sound) (m : Message) :
    q.isMatch lower m.text.toList = some (lineMatches lower q m) := by
  unfold lineMatches Search.Query.isMatch
  rcases Search.Query.findFrom_spec hq lower [] m.text.toList with ⟨d, w, rest, -, h⟩ | ⟨-, h⟩
  · rw [List.nil_append, Utf8.size_nil] at h
    rw [h]
    rfl
  · rw [List.nil_append, Utf8.size_nil] at h
    rw [h]
    rfl

theorem mem_hitsIn {lines : List Message} : hit ∈ hitsIn lower q source lines ↔
    hit.source = source ∧
      ∃ m ∈ lines, m.sequence = hit.sequence ∧ lineMatches lower q m = true := by
  unfold hitsIn
  rw [List.mem_map]
  constructor
  · rintro ⟨m, hm, rfl⟩
    obtain ⟨hm, hmatch⟩ := List.mem_filter.mp hm
    exact ⟨rfl, m, hm, rfl, hmatch⟩
  · rintro ⟨rfl, m, hm, hs, hmatch⟩
    exact ⟨m, List.mem_filter.mpr ⟨hm, hmatch⟩, by rw [hs]⟩

theorem mem_allHits {sources : List Source} : hit ∈ allHits lower s q sources ↔
    hit.source ∈ sources ∧ s.Lists lower q hit := by
  unfold allHits AppState.Lists
  rw [List.mem_flatMap]
  constructor
  · rintro ⟨source, hs, hm⟩
    obtain ⟨rfl, hm⟩ := mem_hitsIn.mp hm
    exact ⟨hs, hm⟩
  · rintro ⟨hs, hm⟩
    exact ⟨hit.source, hs, mem_hitsIn.mpr ⟨rfl, hm⟩⟩

theorem pairwise_hitsIn {lines : List Message} (h : Ascending lines) :
    (hitsIn lower q source lines).Pairwise fun a b => a.sequence < b.sequence := by
  unfold hitsIn
  rw [List.pairwise_map]
  exact h.sublist List.filter_sublist

/-! ## Reading -/

namespace Scan

theorem read_spec (hq : scan.query.Sound) (source : Source) (lines : List Message) (budget : ℕ) :
    ∃ front back left, lines = front ++ back ∧
      scan.read lower source lines budget = some ({ scan with
        hits := scan.hits ++ hitsIn lower scan.query source front
        nextSequence := (back.head?.map (·.sequence)).getD scan.nextSequence }, left,
        back.isEmpty) ∧
      (0 < budget → front = [] → back = []) := by
  induction lines generalizing scan budget with
  | nil => exact ⟨[], [], budget, rfl, by simp [read, hitsIn], fun _ _ => rfl⟩
  | cons m lines ih =>
    by_cases hb : budget = 0
    · refine ⟨[], m :: lines, budget, rfl, ?_, fun h => by omega⟩
      simp [read, hb, hitsIn]
    · rw [read, if_neg hb, isMatch_eq hq]
      by_cases hm : lineMatches lower scan.query m = true
      · have hq' : ({ scan with
            hits := scan.hits ++ [⟨source, m.sequence⟩] } : Scan).query.Sound := hq
        obtain ⟨front, back, left, rfl, hread, -⟩ := ih hq' (budget - textCost m.text)
        refine ⟨m :: front, back, left, rfl, ?_, fun _ h => by cases h⟩
        rw [hm]
        simpa [hitsIn, hm] using hread
      · obtain ⟨front, back, left, rfl, hread, -⟩ := ih hq (budget - textCost m.text)
        refine ⟨m :: front, back, left, rfl, ?_, fun _ h => by cases h⟩
        rw [Bool.not_eq_true] at hm
        rw [hm]
        simpa [hitsIn, hm] using hread

def Passed (scan : Scan) (hit : Hit) : Prop :=
  hit.source ∈ scan.sources.take scan.cursor ∨
    scan.sources[scan.cursor]? = some hit.source ∧ hit.sequence < scan.nextSequence

/-- What was read between two standings of a scan. -/
structure Reads (lower : Lowercase) (s : AppState) (scan scan' : Scan) (new : List Hit) :
    Prop where
  query : scan'.query = scan.query
  sources : scan'.sources = scan.sources
  mem : ∀ hit, hit ∈ new ↔ s.Lists lower scan.query hit ∧ scan'.Passed hit ∧ ¬scan.Passed hit
  ascending : new.Pairwise fun a b => a.source = b.source → a.sequence < b.sequence
  forward : scan.cursor < scan'.cursor ∨
    scan.cursor = scan'.cursor ∧ scan.nextSequence ≤ scan'.nextSequence

def Progress (s : AppState) (scan scan' : Scan) : Prop :=
  scan.cursor < scan'.cursor ∨ scan.cursor = scan'.cursor ∧
    ∃ source, scan.sources[scan.cursor]? = some source ∧
      ∃ m ∈ s.lines source, scan.nextSequence ≤ m.sequence ∧ m.sequence < scan'.nextSequence

theorem Reads.passed (h : Reads lower s scan scan' new) (hp : scan.Passed hit) :
    scan'.Passed hit := by
  unfold Passed at hp ⊢
  rw [h.sources]
  rcases h.forward with hlt | ⟨heq, hle⟩
  · left
    rcases hp with hm | ⟨hm, -⟩
    · exact List.take_subset_take_left _ hlt.le hm
    · obtain ⟨hi, hget⟩ := List.getElem?_eq_some_iff.mp hm
      rw [← hget]
      exact List.mem_take_iff_getElem.mpr ⟨scan.cursor, by omega, rfl⟩
  · rw [← heq]
    exact hp.imp_right fun ⟨hm, hlt⟩ => ⟨hm, hlt.trans_le hle⟩

theorem Passed.lt (hp : scan.Passed hit) (hn : ¬scan.Passed hit') (hs : hit.source = hit'.source) :
    hit.sequence < hit'.sequence := by
  rcases hp with hm | ⟨hm, hlt⟩
  · exact absurd (.inl (hs ▸ hm)) hn
  · by_contra hc
    refine hn (.inr ⟨hs ▸ hm, ?_⟩)
    omega

theorem Reads.refl (lower : Lowercase) (s : AppState) (scan : Scan) :
    Reads lower s scan scan [] where
  query := rfl
  sources := rfl
  mem hit := by
    constructor
    · rintro ⟨⟩
    · rintro ⟨-, hp, hn⟩
      exact absurd hp hn
  ascending := List.Pairwise.nil
  forward := .inr ⟨rfl, le_rfl⟩

theorem Reads.trans (h : Reads lower s scan scan' new) (h' : Reads lower s scan' scan'' new') :
    Reads lower s scan scan'' (new ++ new') where
  query := h'.query.trans h.query
  sources := h'.sources.trans h.sources
  mem hit := by
    have hstep : scan.Passed hit → scan'.Passed hit := h.passed
    have hstep' : scan'.Passed hit → scan''.Passed hit := h'.passed
    rw [List.mem_append, h.mem, h'.mem, h.query]
    tauto
  ascending := by
    refine List.pairwise_append.mpr ⟨h.ascending, h'.ascending, fun a ha b hb hs => ?_⟩
    exact ((h.mem a).mp ha).2.1.lt ((h'.mem b).mp hb).2.2 hs
  forward := by
    rcases h.forward with h | h <;> rcases h'.forward with h' | h' <;> omega

section Source

variable {rest : List Source} {front back : List Message} {m : Message}

theorem getElem?_cursor (hr : scan.sources.drop scan.cursor = source :: rest) :
    scan.sources[scan.cursor]? = some source := by
  rw [← List.head?_drop, hr]
  rfl

theorem take_cursor (hr : scan.sources.drop scan.cursor = source :: rest) :
    scan.sources.take (scan.cursor + 1) = scan.sources.take scan.cursor ++ [source] := by
  rw [List.take_add_one, getElem?_cursor hr]
  rfl

theorem notMem_take (hd : scan.sources.Nodup)
    (hr : scan.sources.drop scan.cursor = source :: rest) :
    source ∉ scan.sources.take scan.cursor := by
  rw [← List.take_append_drop scan.cursor scan.sources, hr] at hd
  intro hm
  exact (List.nodup_append.mp hd).2.2 source hm source List.mem_cons_self rfl

theorem passed_iff (hr : scan.sources.drop scan.cursor = source :: rest) :
    scan.Passed hit ↔ hit.source ∈ scan.sources.take scan.cursor ∨
      hit.source = source ∧ hit.sequence < scan.nextSequence := by
  unfold Passed
  rw [getElem?_cursor hr, Option.some.injEq, eq_comm]

def unread (s : AppState) (scan : Scan) (source : Source) : List Message :=
  (s.lines source).filter fun m => !decide (m.sequence < scan.nextSequence)

theorem mem_unread : m ∈ unread s scan source ↔
    m ∈ s.lines source ∧ scan.nextSequence ≤ m.sequence := by
  unfold unread
  rw [List.mem_filter, Bool.not_eq_true', decide_eq_false_iff_not, not_lt]

theorem ascending_unread (hs : s.Readable) : Ascending (unread s scan source) :=
  (hs.ascending source).sublist List.filter_sublist

theorem reads_finished (hs : s.Readable) (hd : scan.sources.Nodup)
    (hr : scan.sources.drop scan.cursor = source :: rest) :
    Reads lower s scan { scan with
      hits := scan.hits ++ hitsIn lower scan.query source (unread s scan source)
      cursor := scan.cursor + 1
      nextSequence := 0 } (hitsIn lower scan.query source (unread s scan source)) where
  query := rfl
  sources := rfl
  mem hit := by
    have hno := notMem_take hd hr
    have hpassed : s.Lists lower scan.query hit → (Passed { scan with
        hits := scan.hits ++ hitsIn lower scan.query source (unread s scan source)
        cursor := scan.cursor + 1
        nextSequence := 0 } hit ↔
          hit.source ∈ scan.sources.take scan.cursor ∨ hit.source = source) := by
      rintro ⟨m, hm, hseq, -⟩
      have hpos := hs.nonneg _ m hm
      unfold Passed
      dsimp only
      rw [take_cursor hr, List.mem_append, List.mem_singleton]
      exact or_iff_left fun hc => by omega
    rw [mem_hitsIn, passed_iff hr]
    constructor
    · rintro ⟨rfl, m, hm, hseq, hmatch⟩
      obtain ⟨hm, hle⟩ := mem_unread.mp hm
      have hl : s.Lists lower scan.query hit := ⟨m, hm, hseq, hmatch⟩
      refine ⟨hl, (hpassed hl).mpr (.inr rfl), ?_⟩
      rintro (hc | ⟨-, hc⟩)
      · exact hno hc
      · omega
    · rintro ⟨hl, hp, hn⟩
      push Not at hn
      obtain rfl := ((hpassed hl).mp hp).resolve_left hn.1
      obtain ⟨m, hm, hseq, hmatch⟩ := hl
      have := hn.2 rfl
      exact ⟨rfl, m, mem_unread.mpr ⟨hm, by omega⟩, hseq, hmatch⟩
  ascending := (pairwise_hitsIn (ascending_unread hs)).imp
    fun {a b} h (_ : a.source = b.source) => h
  forward := .inl (Nat.lt_succ_self _)

theorem reads_stopped (hs : s.Readable) (hd : scan.sources.Nodup)
    (hr : scan.sources.drop scan.cursor = source :: rest)
    (hsplit : unread s scan source = front ++ m :: back) :
    Reads lower s scan { scan with
      hits := scan.hits ++ hitsIn lower scan.query source front
      nextSequence := m.sequence } (hitsIn lower scan.query source front) where
  query := rfl
  sources := rfl
  mem hit := by
    have hno := notMem_take hd hr
    have hasc : Ascending (unread s scan source) := ascending_unread hs
    have hmem : ∀ a, a ∈ front ↔ a ∈ unread s scan source ∧ a.sequence < m.sequence := by
      intro a
      rw [hsplit, List.mem_append]
      unfold Ascending at hasc
      rw [hsplit, List.pairwise_append] at hasc
      constructor
      · intro ha
        exact ⟨.inl ha, hasc.2.2 a ha m List.mem_cons_self⟩
      · rintro ⟨ha | ha, hlt⟩
        · exact ha
        · rcases List.mem_cons.mp ha with rfl | ha
          · omega
          · have := (List.pairwise_cons.mp hasc.2.1).1 a ha
            omega
    have hpassed : Passed { scan with
        hits := scan.hits ++ hitsIn lower scan.query source front
        nextSequence := m.sequence } hit ↔
          hit.source ∈ scan.sources.take scan.cursor ∨
            hit.source = source ∧ hit.sequence < m.sequence := passed_iff hr
    rw [mem_hitsIn, passed_iff hr, hpassed]
    constructor
    · rintro ⟨rfl, a, ha, hseq, hmatch⟩
      obtain ⟨ha, hlt⟩ := (hmem a).mp ha
      obtain ⟨ha, hle⟩ := mem_unread.mp ha
      refine ⟨⟨a, ha, hseq, hmatch⟩, .inr ⟨rfl, by omega⟩, ?_⟩
      rintro (hc | ⟨-, hc⟩)
      · exact hno hc
      · omega
    · rintro ⟨⟨a, ha, hseq, hmatch⟩, hp, hn⟩
      push Not at hn
      obtain ⟨rfl, hlt⟩ := hp.resolve_left hn.1
      have := hn.2 rfl
      exact ⟨rfl, a, (hmem a).mpr ⟨mem_unread.mpr ⟨ha, by omega⟩, by omega⟩, hseq, hmatch⟩
  ascending := by
    have hasc : Ascending (unread s scan source) := ascending_unread hs
    unfold Ascending at hasc
    rw [hsplit, List.pairwise_append] at hasc
    exact (pairwise_hitsIn hasc.1).imp fun {a b} h (_ : a.source = b.source) => h
  forward := by
    refine .inr ⟨rfl, ?_⟩
    have hm : m ∈ unread s scan source := by
      rw [hsplit]
      exact List.mem_append_right _ List.mem_cons_self
    exact (mem_unread.mp hm).2

theorem drop_partitionPoint (hs : s.Readable) (scan : Scan) (source : Source) :
    (s.lines source).drop (Search.partitionPoint
      (fun m => decide (m.sequence < scan.nextSequence)) (s.lines source)) =
        unread s scan source := by
  refine Search.drop_partitionPoint ((hs.ascending source).imp fun {a b} hab hb => ?_)
  rw [decide_eq_true_eq] at hb ⊢
  exact hab.trans hb

end Source

theorem readSources_spec (hq : scan.query.Sound) (hs : s.Readable) (hd : scan.sources.Nodup)
    {rest : List Source} (hr : scan.sources.drop scan.cursor = rest) (budget : ℕ) :
    ∃ scan' new, readSources lower s rest scan budget = some scan' ∧
      scan'.hits = scan.hits ++ new ∧ scan'.truncated = scan.truncated ∧
      Reads lower s scan scan' new ∧ (0 < budget → rest ≠ [] → Progress s scan scan') := by
  induction rest generalizing scan budget with
  | nil =>
    exact ⟨scan, [], rfl, (List.append_nil _).symm, rfl, Reads.refl lower s scan,
      fun _ h => absurd rfl h⟩
  | cons source rest ih =>
    unfold readSources
    by_cases hb : budget = 0
    · exact ⟨scan, [], if_pos hb, (List.append_nil _).symm, rfl, Reads.refl lower s scan,
        fun h => by omega⟩
    rw [if_neg hb]
    dsimp only
    rw [drop_partitionPoint hs scan source]
    obtain ⟨front, back, left, hsplit, hread, hsome⟩ :=
      @read_spec lower scan hq source (unread s scan source) budget
    rw [hread]
    cases back with
    | nil =>
      rw [List.append_nil] at hsplit
      subst hsplit
      have h := @reads_finished lower s scan source rest hs hd hr
      have hr' : scan.sources.drop (scan.cursor + 1) = rest := by
        rw [← List.tail_drop, hr]
        rfl
      obtain ⟨scan', new, hrest, hhits, htrunc, h', -⟩ := @ih { scan with
        hits := scan.hits ++ hitsIn lower scan.query source (unread s scan source)
        cursor := scan.cursor + 1
        nextSequence := 0 } hq hd hr' left
      refine ⟨scan', _, hrest, hhits.trans (List.append_assoc ..), htrunc, h.trans h',
        fun _ _ => .inl ?_⟩
      have hf : scan.cursor + 1 < scan'.cursor ∨ scan.cursor + 1 = scan'.cursor ∧ _ := h'.forward
      omega
    | cons m back =>
      refine ⟨_, _, rfl, rfl, rfl, reads_stopped hs hd hr hsplit, fun _ _ => .inr ⟨rfl, source,
        getElem?_cursor hr, ?_⟩⟩
      cases front with
      | nil => cases hsome (by omega) rfl
      | cons a front =>
        have hasc : Ascending (unread s scan source) := ascending_unread hs
        have ha : a ∈ unread s scan source := by
          rw [hsplit]
          exact List.mem_cons_self
        obtain ⟨ha, hle⟩ := mem_unread.mp ha
        refine ⟨a, ha, hle, ?_⟩
        unfold Ascending at hasc
        rw [hsplit] at hasc
        exact (List.pairwise_cons.mp hasc).1 m (List.mem_append_right _ List.mem_cons_self)

/-- What a scan lists of the hits it has read. -/
structure Keeps (scan : Scan) (seen : List Hit) : Prop where
  query : scan.query.Sound
  distinct : scan.sources.Nodup
  newest : Newest Hit.sequence maxHits seen scan.hits
  nodup : seen.Nodup
  truncated : scan.truncated = true ↔ maxHits < seen.length
  passed : ∀ hit ∈ seen, scan.Passed hit

theorem Passed.mem (hp : scan.Passed hit) : hit.source ∈ scan.sources := by
  rcases hp with hm | ⟨hm, -⟩
  · exact List.mem_of_mem_take hm
  · exact List.mem_of_getElem? hm

theorem Keeps.ascending (h : scan.Keeps seen) (hr : Reads lower s scan scan' new)
    (hone : scan.sources.length ≤ 1) :
    (scan.hits ++ new).Pairwise fun a b => a.sequence ≤ b.sequence := by
  have hsame : ∀ {a b : Hit}, a.source ∈ scan.sources → b.source ∈ scan.sources →
      a.source = b.source := by
    intro a b ha hb
    obtain ⟨i, hi, hai⟩ := List.getElem_of_mem ha
    obtain ⟨j, hj, hbj⟩ := List.getElem_of_mem hb
    obtain rfl : i = j := by omega
    exact hai.symm.trans hbj
  have hnew : ∀ {b : Hit}, b ∈ new → b.source ∈ scan.sources := by
    intro b hb
    rw [← hr.sources]
    exact ((hr.mem b).mp hb).2.1.mem
  refine List.pairwise_append.mpr ⟨h.newest.ascending, ?_, ?_⟩
  · exact hr.ascending.imp_of_mem fun ha hb hab => (hab (hsame (hnew ha) (hnew hb))).le
  · intro a ha b hb
    have hp := h.passed a (h.newest.subset ha)
    exact (hp.lt ((hr.mem b).mp hb).2.2 (hsame hp.mem (hnew hb))).le

def Level (scan scan' : Scan) : Prop :=
  scan'.query = scan.query ∧ scan'.sources = scan.sources ∧ scan'.cursor = scan.cursor ∧
    scan'.nextSequence = scan.nextSequence

theorem inOrder_level (sort : HitSort) (before : ℕ) (scan : Scan) :
    scan.Level (scan.inOrder sort before) := by
  unfold inOrder
  split <;> exact ⟨rfl, rfl, rfl, rfl⟩

theorem bounded_level (scan : Scan) : scan.Level scan.bounded := by
  unfold bounded
  split <;> exact ⟨rfl, rfl, rfl, rfl⟩

theorem Reads.level (h : Reads lower s scan scan' new) (hl : scan'.Level scan'') :
    Reads lower s scan scan'' new := by
  obtain ⟨hq, hs, hc, hn⟩ := hl
  have hp : ∀ hit, scan''.Passed hit ↔ scan'.Passed hit := fun hit => by
    unfold Passed
    rw [hs, hc, hn]
  refine ⟨hq.trans h.query, hs.trans h.sources, fun hit => ?_, h.ascending, ?_⟩
  · rw [hp]
    exact h.mem hit
  · rw [hc, hn]
    exact h.forward

theorem Progress.level (h : Progress s scan scan') (hl : scan'.Level scan'') :
    Progress s scan scan'' := by
  obtain ⟨-, -, hc, hn⟩ := hl
  unfold Progress
  rw [hc, hn]
  exact h

theorem bounded_hits (scan : Scan) :
    scan.bounded.hits = scan.hits.drop (scan.hits.length - maxHits) := by
  unfold bounded
  by_cases h : maxHits < scan.hits.length
  · rw [if_pos h]
  · rw [if_neg h, Nat.sub_eq_zero_of_le (not_lt.mp h)]
    rfl

theorem bounded_truncated (scan : Scan) :
    scan.bounded.truncated = true ↔ maxHits < scan.hits.length ∨ scan.truncated = true := by
  unfold bounded
  by_cases h : maxHits < scan.hits.length
  · rw [if_pos h]
    exact ⟨fun _ => .inl h, fun _ => rfl⟩
  · rw [if_neg h]
    exact (or_iff_right h).symm

theorem Keeps.inOrder (sort : HitSort) (h : scan.Keeps seen) (hr : Reads lower s scan scan' new)
    (hh : scan'.hits = scan.hits ++ new) :
    (scan'.inOrder sort scan.hits.length).hits.Perm (scan.hits ++ new) ∧
      (scan'.inOrder sort scan.hits.length).hits.Pairwise fun a b => a.sequence ≤ b.sequence := by
  unfold Scan.inOrder
  split_ifs with hc
  · exact ⟨hh ▸ sort.perm _, sort.sorted _⟩
  · rw [hh]
    refine ⟨.rfl, ?_⟩
    by_cases hone : scan.sources.length ≤ 1
    · exact h.ascending hr hone
    · have hnil : new = [] := by
        by_contra hne
        have := List.length_pos_iff.mpr hne
        rw [hh, hr.sources, List.length_append] at hc
        omega
      rw [hnil, List.append_nil]
      exact h.newest.ascending

theorem Keeps.nodup_append (h : scan.Keeps seen) (hr : Reads lower s scan scan' new) :
    (seen ++ new).Nodup := by
  refine List.nodup_append.mpr ⟨h.nodup, ?_, ?_⟩
  · refine hr.ascending.imp fun {a b} hab hc => ?_
    subst hc
    exact lt_irrefl _ (hab rfl)
  · rintro a ha b hb rfl
    exact ((hr.mem a).mp hb).2.2 (h.passed a ha)

theorem Keeps.step (lower : Lowercase) (sort : HitSort) (h : scan.Keeps seen) (hs : s.Readable)
    (budget : ℕ) :
    ∃ scan' new, scan.step lower sort s budget = some scan' ∧ Reads lower s scan scan' new ∧
      scan'.Keeps (seen ++ new) ∧
      (0 < budget → scan.isDone = false → Progress s scan scan') := by
  obtain ⟨scan₁, new, hread, hhits, htrunc, hr, hprogress⟩ :=
    @readSources_spec lower s scan h.query hs h.distinct _ rfl budget
  obtain ⟨hperm, hsorted⟩ := h.inOrder sort hr hhits
  have hlevel := inOrder_level sort scan.hits.length scan₁
  have hstep : scan.step lower sort s budget =
      some (scan₁.inOrder sort scan.hits.length).bounded := by
    unfold Scan.step
    rw [hread]
    rfl
  have htrunc' : (scan₁.inOrder sort scan.hits.length).truncated = scan.truncated := by
    rw [← htrunc]
    unfold Scan.inOrder
    split <;> rfl
  generalize scan₁.inOrder sort scan.hits.length = scan₂ at hperm hsorted hlevel hstep htrunc'
  have hlevel' := bounded_level scan₂
  have hr' := (hr.level hlevel).level hlevel'
  have hseen := h.nodup_append hr
  refine ⟨scan₂.bounded, new, hstep, hr', ?_, ?_⟩
  · constructor
    · rw [hr'.query]
      exact h.query
    · rw [hr'.sources]
      exact h.distinct
    · rw [bounded_hits]
      exact h.newest.append hseen hsorted hperm
    · exact hseen
    · have hlen := hperm.length_eq
      have hkept := h.newest.length
      rw [bounded_truncated, htrunc', h.truncated, List.length_append]
      rw [List.length_append] at hlen
      omega
    · intro hit hm
      rcases List.mem_append.mp hm with hm | hm
      · exact hr'.passed (h.passed hit hm)
      · exact ((hr'.mem hit).mp hm).2.1
  · intro hb hdone
    refine ((hprogress hb ?_).level hlevel).level hlevel'
    rw [isDone, decide_eq_false_iff_not, not_le] at hdone
    rw [Ne, List.drop_eq_nil_iff]
    omega

/-! ## Steps in one state -/

def everyLine (s : AppState) (sources : List Source) : List Hit :=
  sources.flatMap fun source => (s.lines source).map fun m => ⟨source, m.sequence⟩

instance (scan : Scan) (hit : Hit) : Decidable (scan.Passed hit) :=
  inferInstanceAs (Decidable (_ ∨ _))

def left (s : AppState) (scan : Scan) : ℕ :=
  (scan.sources.length - scan.cursor) +
    ((everyLine s scan.sources).toFinset.filter fun hit => ¬scan.Passed hit).card

theorem Reads.isDone (h : Reads lower s scan scan' new) (hd : scan.isDone = true) :
    scan'.isDone = true := by
  unfold Scan.isDone at hd ⊢
  rw [decide_eq_true_eq] at hd ⊢
  rw [h.sources]
  rcases h.forward with hf | ⟨hf, -⟩ <;> omega

theorem Progress.left_lt (hp : Progress s scan scan') (h : Reads lower s scan scan' new)
    (hn : scan.sources.Nodup) (hd : scan.isDone = false) : left s scan' < left s scan := by
  have hsub : ((everyLine s scan.sources).toFinset.filter fun hit => ¬scan'.Passed hit) ⊆
      (everyLine s scan.sources).toFinset.filter fun hit => ¬scan.Passed hit := by
    intro hit hm
    obtain ⟨hm, hn⟩ := Finset.mem_filter.mp hm
    exact Finset.mem_filter.mpr ⟨hm, fun hc => hn (h.passed hc)⟩
  rw [isDone, decide_eq_false_iff_not, not_le] at hd
  unfold left
  rw [h.sources]
  rcases hp with hlt | ⟨heq, source, hs, m, hm, hle, hlt⟩
  · have := Finset.card_le_card hsub
    omega
  · -- a line was read
    have hcard : ((everyLine s scan.sources).toFinset.filter fun hit => ¬scan'.Passed hit).card <
        ((everyLine s scan.sources).toFinset.filter fun hit => ¬scan.Passed hit).card := by
      refine Finset.card_lt_card (Finset.ssubset_iff_of_subset hsub |>.mpr
        ⟨⟨source, m.sequence⟩, Finset.mem_filter.mpr ⟨?_, ?_⟩, ?_⟩)
      · rw [List.mem_toFinset]
        exact List.mem_flatMap.mpr ⟨source, List.mem_of_getElem? hs, List.mem_map_of_mem hm⟩
      · obtain ⟨hi, rfl⟩ := List.getElem?_eq_some_iff.mp hs
        have hr := List.drop_eq_getElem_cons hi
        rw [passed_iff hr]
        rintro (hc | ⟨-, hc⟩)
        · exact notMem_take hn hr hc
        · exact absurd hc (not_lt.mpr hle)
      · intro hc
        refine (Finset.mem_filter.mp hc).2 (.inr ⟨?_, hlt⟩)
        rw [← heq, h.sources]
        exact hs
    omega

theorem new_keeps {scope : Scope} (hq : q.Sound) (hd : (s.scopeSources scope).Nodup) :
    (Scan.new s scope q).Keeps [] where
  query := hq
  distinct := hd
  newest := ⟨List.Pairwise.nil, List.nodup_nil, fun _ h => h, rfl, fun _ h => by cases h⟩
  nodup := List.nodup_nil
  truncated := ⟨fun h => (by cases h), fun h => absurd h (Nat.not_lt_zero _)⟩
  passed _ h := by cases h

theorem passed_new {scope : Scope} (hp : (Scan.new s scope q).Passed hit) : hit.sequence < 0 := by
  rcases hp with hm | ⟨-, hlt⟩
  · cases hm
  · exact hlt

theorem Keeps.steps (sort : HitSort) (hs : s.Readable) (h : scan.Keeps seen)
    (hm : ∀ hit, hit ∈ seen ↔ s.Lists lower scan.query hit ∧ scan.Passed hit) (budgets : List ℕ) :
    ∃ scan' seen', steps lower sort s budgets scan = some scan' ∧ scan'.Keeps seen' ∧
      scan'.sources = scan.sources ∧
      (∀ hit, hit ∈ seen' ↔ s.Lists lower scan.query hit ∧ scan'.Passed hit) ∧
      ((∀ budget ∈ budgets, 0 < budget) → scan.isDone = true ∨ left s scan ≤ budgets.length →
        scan'.isDone = true) := by
  induction budgets generalizing scan seen with
  | nil =>
    refine ⟨scan, seen, rfl, h, rfl, hm, fun _ hd => hd.elim id fun hl => ?_⟩
    rw [List.length_nil] at hl
    unfold left at hl
    unfold isDone
    rw [decide_eq_true_eq]
    omega
  | cons budget budgets ih =>
    obtain ⟨scan₁, new, hstep, hr, hk, hprogress⟩ := h.step lower sort hs budget
    have hm₁ : ∀ hit, hit ∈ seen ++ new ↔ s.Lists lower scan₁.query hit ∧ scan₁.Passed hit := by
      intro hit
      have hp : scan.Passed hit → scan₁.Passed hit := hr.passed
      rw [List.mem_append, hm, hr.mem, hr.query]
      tauto
    obtain ⟨scan', seen', hsteps, hk', hsrc, hm', hdone⟩ := ih hk hm₁
    refine ⟨scan', seen', ?_, hk', hsrc.trans hr.sources, ?_, ?_⟩
    · unfold Scan.steps
      rw [hstep]
      exact hsteps
    · rw [← hr.query]
      exact hm'
    · intro hpos hd
      obtain ⟨hb, hpos⟩ := List.forall_mem_cons.mp hpos
      apply hdone hpos
      cases hc : scan.isDone with
      | true => exact .inl (hr.isDone hc)
      | false =>
        have hlt := (hprogress hb hc).left_lt hr h.distinct hc
        have hle := hd.resolve_left (by rw [hc]; exact Bool.false_ne_true)
        rw [List.length_cons] at hle
        exact .inr (by omega)

theorem passed_of_isDone (hd : scan.isDone = true) :
    scan.Passed hit ↔ hit.source ∈ scan.sources := by
  rw [isDone, decide_eq_true_eq] at hd
  unfold Passed
  rw [List.take_of_length_le hd, List.getElem?_eq_none hd]
  simp

end Scan

/-! ## What holds of every log -/

section Logs

theorem Shelf.step_floor (b : Shelf) (e : LogEvent) : (b.step e).floor ≤ b.floor := by
  have hnote : ∀ (b : Shelf) id, (b.note id).floor = b.floor := by
    intro b id
    unfold Shelf.note
    split <;> rfl
  cases e with
  | append id m attention =>
    dsimp only [Shelf.step]
    split_ifs
    · rw [hnote]
      rfl
    · rfl
    · rfl
  | note id => exact (hnote b id).le
  | confirm id x text kind info =>
    dsimp only [Shelf.step]
    unfold Shelf.confirm
    split <;> rfl
  | push id request line =>
    have hopen : (b.openBlock id request).floor ≤ b.floor := by
      unfold Shelf.openBlock
      split_ifs
      · rfl
      · change b.floor - historyReserve ≤ b.floor
        omega
    dsimp only [Shelf.step]
    unfold Shelf.push
    dsimp only
    split
    · exact hopen
    · split_ifs
      · exact hopen
      · exact hopen
  | settle id request =>
    dsimp only [Shelf.step]
    unfold Shelf.settle
    dsimp only
    split
    · rfl
    · split_ifs <;> rfl
  | _ => rfl

theorem AppState.call_floor (lowercase : String → String) (hi : s.Ids) (i : AppCall) :
    (s.call lowercase i).olderSequenceFloor ≤ s.olderSequenceFloor := by
  have hf := congrArg Shelf.floor (call_follows lowercase s i hi).2
  change (s.call lowercase i).olderSequenceFloor = _ at hf
  rw [hf]
  exact Machine.exec_invariant' (fun b : Shelf => b.floor ≤ s.olderSequenceFloor)
    (fun b e h => (b.step_floor e).trans h) le_rfl

theorem AppState.readable (ho : s.shelf.Ordered) (hf : 0 ≤ s.olderSequenceFloor) : s.Readable where
  ascending := ho.ascending
  nonneg source m hm := hf.trans (ho.given source m hm).1

theorem AppState.hit_unique (ho : s.shelf.Ordered) (h : s.Lists lower q hit)
    (h' : s.Lists lower q hit') (hs : hit.sequence = hit'.sequence) : hit = hit' := by
  obtain ⟨m, hm, hseq, -⟩ := h
  obtain ⟨m', hm', hseq', -⟩ := h'
  have hsource : hit.source = hit'.source := by
    by_contra hne
    refine ho.apart hit.source m hm hit'.source (Ne.symm hne) m' hm' ?_
    rw [hseq', ← hs, hseq]
  rcases hit with ⟨source, x⟩
  rcases hit' with ⟨source', x'⟩
  exact congrArg₂ Hit.mk hsource hs

theorem nodup_allHits (hs : s.Readable) {sources : List Source} (hd : sources.Nodup) :
    (allHits lower s q sources).Nodup := by
  refine List.nodup_flatMap.mpr ⟨fun source _ => ?_, hd.imp fun {a b} hne hit ha hb => ?_⟩
  · refine (pairwise_hitsIn (hs.ascending source)).imp fun {a b} h hc => ?_
    subst hc
    exact lt_irrefl _ h
  · exact hne ((mem_hitsIn.mp ha).1.symm.trans (mem_hitsIn.mp hb).1)

theorem newestHits_newest (hits : List Hit) (hd : hits.Nodup) :
    Newest Hit.sequence maxHits hits (newestHits hits) := by
  have hp := HitSort.stable.perm hits
  unfold newestHits
  rw [← hp.length_eq]
  exact newest_drop (HitSort.stable.sorted hits) (hp.nodup_iff.mpr hd) hp

end Logs

/-! ## Searches -/

namespace Scan

/-- A search is cut into steps in one state: it never fails, with enough budgets it ends, and then
it lists the newest of all hits. -/
theorem steps_newest (lower : Lowercase) (sort : HitSort) (ho : s.shelf.Ordered)
    (hf : 0 ≤ s.olderSequenceFloor) (hq : q.Sound) {scope : Scope}
    (hd : (s.scopeSources scope).Nodup) (budgets : List ℕ) :
    ∃ scan, steps lower sort s budgets (Scan.new s scope q) = some scan ∧
      (scan.isDone = true →
        scan.hits = newestHits (allHits lower s q (s.scopeSources scope)) ∧
        scan.hits.Pairwise (fun a b => a.sequence < b.sequence) ∧
        (scan.truncated = true ↔
          maxHits < (allHits lower s q (s.scopeSources scope)).length)) ∧
      ((∀ budget ∈ budgets, 0 < budget) →
        ((s.scopeSources scope).map fun source => 1 + (s.lines source).length).sum ≤
          budgets.length → scan.isDone = true) := by
  have hs := AppState.readable ho hf
  have hnone : ∀ hit, hit ∈ ([] : List Hit) ↔ s.Lists lower q hit ∧
      (Scan.new s scope q).Passed hit := by
    intro hit
    constructor
    · rintro ⟨⟩
    · rintro ⟨⟨m, hm, hseq, -⟩, hp⟩
      have := hs.nonneg _ m hm
      have := passed_new hp
      omega
  obtain ⟨scan, seen, hsteps, hk, hsrc, hm, hdone⟩ :=
    (new_keeps hq hd).steps sort hs hnone budgets
  refine ⟨scan, hsteps, fun hd' => ?_, fun hpos hlen => hdone hpos (.inr ?_)⟩
  · have hall : (allHits lower s q (s.scopeSources scope)).Nodup := nodup_allHits hs hd
    have hperm : seen.Perm (allHits lower s q (s.scopeSources scope)) := by
      refine (List.perm_ext_iff_of_nodup hk.nodup hall).mpr fun hit => ?_
      rw [hm, passed_of_isDone hd', mem_allHits, hsrc, and_comm]
      rfl
    have hunique : ∀ a ∈ allHits lower s q (s.scopeSources scope),
        ∀ b ∈ allHits lower s q (s.scopeSources scope), a.sequence = b.sequence → a = b := by
      intro a ha b hb hab
      exact AppState.hit_unique ho (mem_allHits.mp ha).2 (mem_allHits.mp hb).2 hab
    have hnewest := hk.newest.perm hperm
    refine ⟨hnewest.unique (newestHits_newest _ hall) hunique, ?_, ?_⟩
    · refine (hnewest.ascending.and hnewest.nodup).imp_of_mem fun {a b} ha hb hab => ?_
      refine hab.1.lt_of_ne fun heq => hab.2 ?_
      exact hunique a (hnewest.subset ha) b (hnewest.subset hb) heq
    · rw [hk.truncated, hperm.length_eq]
  · refine le_trans ?_ hlen
    have hcount : (everyLine s (s.scopeSources scope)).length + (s.scopeSources scope).length =
        ((s.scopeSources scope).map fun source => 1 + (s.lines source).length).sum := by
      unfold everyLine
      generalize s.scopeSources scope = sources
      induction sources with
      | nil => rfl
      | cons source sources ih =>
        simp only [List.flatMap_cons, List.length_append, List.length_map, List.length_cons,
          List.map_cons, List.sum_cons]
        omega
    have hcard := (Finset.card_filter_le (everyLine s (s.scopeSources scope)).toFinset
      fun hit => ¬(Scan.new s scope q).Passed hit).trans (List.toFinset_card_le _)
    unfold left
    change (s.scopeSources scope).length - 0 + ((everyLine s (s.scopeSources scope)).toFinset.filter
      fun hit => ¬(Scan.new s scope q).Passed hit).card ≤ _
    omega

end Scan

/-- At the steps of the search the log of a hit holds a matching line under its sequence. -/
def SearchMove.Finds (lower : Lowercase) (q : Search.Query) (hit : Hit)
    (p : AppState × Option Scan) : SearchMove → Prop
  | .call _ => True
  | .step _ => p.1.Lists lower q hit

namespace Scan

theorem moves_floor (lower : Lowercase) (sort : HitSort) (lowercase : String → String)
    (hs : s.Ids ∧ s.shelf.Ordered) (search : Option Scan) (moves : List SearchMove) :
    (Machine.exec (SearchMove.advance lower sort lowercase) (s, search)
      moves).1.olderSequenceFloor ≤ s.olderSequenceFloor := by
  induction moves generalizing s search with
  | nil => exact le_rfl
  | cons move moves ih =>
    cases move with
    | call i =>
      exact (ih (AppState.call_invariant lowercase i hs) search).trans
        (AppState.call_floor lowercase hs.1 i)
    | step budget => exact ih hs _

theorem Keeps.moves (lower : Lowercase) (sort : HitSort) (lowercase : String → String)
    (hs : s.Ids ∧ s.shelf.Ordered) (h : scan.Keeps seen) (moves : List SearchMove)
    (hf : 0 ≤ (Machine.exec (SearchMove.advance lower sort lowercase) (s, some scan)
      moves).1.olderSequenceFloor) :
    ∃ s' scan' seen', Machine.exec (SearchMove.advance lower sort lowercase) (s, some scan) moves =
        (s', some scan') ∧ (s'.Ids ∧ s'.shelf.Ordered) ∧ scan'.Keeps seen' ∧
      scan'.sources = scan.sources ∧ scan'.query = scan.query ∧
      ∀ hit, Machine.Along (SearchMove.Finds lower scan.query hit)
          (SearchMove.advance lower sort lowercase) (s, some scan) moves →
        (scan.Passed hit → hit ∈ seen ∨ hit.sequence < 0 ∧ scan.cursor = 0) →
        (∀ b ∈ seen, hit.sequence = b.sequence → hit = b) →
        (scan'.Passed hit → hit ∈ seen' ∨ hit.sequence < 0 ∧ scan'.cursor = 0) ∧
          ∀ b ∈ seen', hit.sequence = b.sequence → hit = b := by
  induction moves generalizing s scan seen with
  | nil => exact ⟨s, scan, seen, rfl, hs, h, rfl, rfl, fun hit _ hp hb => ⟨hp, hb⟩⟩
  | cons move moves ih =>
    cases move with
    | call i =>
      obtain ⟨s', scan', seen', hrun, hs', hk, hsrc, hquery, hhit⟩ :=
        ih (AppState.call_invariant lowercase i hs) h hf
      refine ⟨s', scan', seen', hrun, hs', hk, hsrc, hquery, ?_⟩
      rintro hit ⟨-, ha⟩ hp hb
      exact hhit hit ha hp hb
    | step budget =>
      have hread := AppState.readable hs.2 (hf.trans (moves_floor lower sort lowercase hs _ moves))
      obtain ⟨scan₁, new, hstep, hr, hk₁, -⟩ := h.step lower sort hread budget
      have hmove : SearchMove.advance lower sort lowercase (s, some scan) (.step budget) =
          (s, some scan₁) := congrArg (Prod.mk s) hstep
      rw [Machine.exec_cons, hmove] at hf ⊢
      obtain ⟨s', scan', seen', hrun, hs', hk, hsrc, hquery, hhit⟩ := ih hs hk₁ hf
      refine ⟨s', scan', seen', hrun, hs', hk, hsrc.trans hr.sources, hquery.trans hr.query, ?_⟩
      intro hit ha hp hb
      rw [Machine.along_cons, hmove, ← hr.query] at ha
      obtain ⟨hl, ha⟩ := ha
      have hl : s.Lists lower scan.query hit := hr.query ▸ hl
      have hpos : 0 ≤ hit.sequence := by
        obtain ⟨m, hm, hseq, -⟩ := hl
        exact hseq ▸ hread.nonneg _ m hm
      refine hhit hit ha (fun hp₁ => .inl ?_) fun b hmb hseq => ?_
      · by_cases hpassed : scan.Passed hit
        · exact List.mem_append_left _ ((hp hpassed).resolve_right fun hc => by omega)
        · exact List.mem_append_right _ ((hr.mem hit).mpr ⟨hl, hp₁, hpassed⟩)
      · rcases List.mem_append.mp hmb with hmb | hmb
        · exact hb b hmb hseq
        · exact AppState.hit_unique hs.2 hl ((hr.mem b).mp hmb).1 hseq

end Scan

theorem AppState.scopeSources_nodup (hs : s.Sound) (scope : Scope) :
    (s.scopeSources scope).Nodup := by
  cases scope with
  | selected =>
    unfold scopeSources
    dsimp only
    split <;> simp
  | all =>
    refine List.nodup_append.mpr ⟨?_, ?_, ?_⟩
    · have h := hs.ids.nodup.map (f := Source.conversation) fun a b h => by cases h; rfl
      rwa [List.map_map] at h
    · have h := hs.distinct.map (f := Source.server) fun a b h => by cases h; rfl
      rwa [List.map_map] at h
    · intro a ha b hb hab
      obtain ⟨c, -, rfl⟩ := List.mem_map.mp ha
      obtain ⟨n, -, rfl⟩ := List.mem_map.mp hb
      cases hab

/-- However a search of a query that was built is cut into steps, it does not fail, and where the
state stays it lists the newest of all hits in ascending sequence once it is done, which enough
steps see to, and says whether more lines match. Whatever is called on the state between steps, as
long as sequences, which are unsigned, have not run out: a step with a budget finishes a source or
reads a line; no hit is listed twice; and once the search is done, a hit whose line matched at every
step is listed, or the list is full of newer ones. -/
theorem searches_agree (lower : Lowercase) (sort : HitSort) (lowercase : String → String)
    (configs : List NetworkConfig) (is : List AppCall) (scope : Scope) (term : List Char)
    (q : Search.Query) (hd : (configs.map (·.id)).Nodup)
    (hfits : Machine.Along AppState.Fits (AppState.call lowercase)
      (AppState.withNetworks configs) is)
    (hq : Search.Query.new lower term = some (some q)) :
    let s := AppState.run lowercase configs is
    let sources := s.scopeSources scope
    let hits := allHits lower s q sources
    (0 ≤ s.olderSequenceFloor → ∀ budgets, ∃ scan,
      Scan.steps lower sort s budgets (Scan.new s scope q) = some scan ∧
      (scan.isDone = true → scan.hits = newestHits hits ∧
        scan.hits.Pairwise (fun a b => a.sequence < b.sequence) ∧
        (scan.truncated = true ↔ maxHits < hits.length)) ∧
      ((∀ budget ∈ budgets, 0 < budget) →
        (sources.map fun source => 1 + (s.lines source).length).sum ≤ budgets.length →
        scan.isDone = true)) ∧
    ∀ moves,
      let r := Machine.exec (SearchMove.advance lower sort lowercase) (s, some (Scan.new s scope q))
        moves
      0 ≤ r.1.olderSequenceFloor → ∃ scan, r.2 = some scan ∧
        (∀ budget, 0 < budget → scan.isDone = false → ∃ scan',
          scan.step lower sort r.1 budget = some scan' ∧ Scan.Progress r.1 scan scan') ∧
        scan.hits.Nodup ∧
        scan.hits.Pairwise (fun a b => a.sequence ≤ b.sequence) ∧
        ∀ hit, hit.source ∈ sources →
          Machine.Along (SearchMove.Finds lower q hit) (SearchMove.advance lower sort lowercase)
            (s, some (Scan.new s scope q)) moves → scan.isDone = true →
          hit ∈ scan.hits ∨
            scan.hits.length = maxHits ∧ ∀ b ∈ scan.hits, hit.sequence < b.sequence := by
  intro s sources hits
  have hsound : s.Sound := (AppState.structure_sound lowercase configs is hd hfits).1
  have ho : s.shelf.Ordered := AppState.run_ordered lowercase configs is
  have hsources : sources.Nodup := AppState.scopeSources_nodup hsound scope
  have hsq : q.Sound := by
    rcases Search.Query.new_spec lower term with ⟨-, hnone⟩ | ⟨q', hnew, -, hsq⟩
    · rw [hnone] at hq
      cases hq
    · rw [hnew] at hq
      cases hq
      exact hsq
  refine ⟨fun hf budgets => Scan.steps_newest lower sort ho hf hsq hsources budgets, ?_⟩
  intro moves r hf
  obtain ⟨s', scan, seen, hrun, hs', hk, hsrc, hquery, hhit⟩ :=
    (Scan.new_keeps hsq hsources).moves lower sort lowercase ⟨hsound.ids, ho⟩ moves hf
  have hr : r = (s', some scan) := hrun
  rw [hr] at hf ⊢
  refine ⟨scan, rfl, ?_, hk.newest.nodup, hk.newest.ascending, ?_⟩
  · intro budget hb hdone
    obtain ⟨scan', new, hstep, -, -, hprogress⟩ :=
      hk.step lower sort (AppState.readable hs'.2 hf) budget
    exact ⟨scan', hstep, hprogress hb hdone⟩
  · intro hit hmem ha hdone
    obtain ⟨hpassed, hsame⟩ := hhit hit ha
      (fun hp => .inr ⟨Scan.passed_new hp, rfl⟩) fun b hb => by cases hb
    have hin : hit.source ∈ scan.sources := hsrc ▸ hmem
    have hseen : hit ∈ seen := by
      refine (hpassed ((Scan.passed_of_isDone hdone).mpr hin)).resolve_right ?_
      rintro ⟨-, hc⟩
      rw [Scan.isDone, decide_eq_true_eq, hc] at hdone
      rw [List.length_eq_zero_iff.mp (Nat.le_zero.mp hdone)] at hin
      cases hin
    by_cases hl : hit ∈ scan.hits
    · exact .inl hl
    · refine .inr ⟨hk.newest.full hseen hl, fun b hb => ?_⟩
      refine (hk.newest.newer hit hseen hl b hb).lt_of_ne fun heq => hl ?_
      rw [hsame b (hk.newest.subset hb) heq]
      exact hb

theorem searches_agree_sliced :
    let lower : Lowercase := ⟨fun c => [c.toLower], by simp, by simp⟩
    let s := AppState.run toAsciiLowercase [⟨1, "a", ["#x", "#y"]⟩]
      [.appendConversationActivity 1 "an abbot", .appendConversationActivity 2 "ABC",
        .appendConversationActivity 1 "else", .appendConversationActivity 1 "cab"]
    ∃ scan, Scan.steps lower .stable s [1, 2, 1, 5, 5, 5, 5]
        (Scan.new s .all ⟨['a', 'b'], [0, 0]⟩) = some scan ∧ scan.truncated = false ∧
      scan.hits = [⟨.conversation 1, 2 ^ 62 + 1⟩, ⟨.conversation 2, 2 ^ 62 + 2⟩,
        ⟨.conversation 1, 2 ^ 62 + 4⟩] := by
  intro lower s
  obtain ⟨scan, hrun, hlists, hdone⟩ := (searches_agree lower .stable toAsciiLowercase
    [⟨1, "a", ["#x", "#y"]⟩]
    [.appendConversationActivity 1 "an abbot", .appendConversationActivity 2 "ABC",
      .appendConversationActivity 1 "else", .appendConversationActivity 1 "cab"]
    .all ['A', 'b'] ⟨['a', 'b'], [0, 0]⟩ (by decide) ⟨trivial, trivial, trivial, trivial, trivial⟩
    (by decide +kernel)).1 (by decide +kernel) [1, 2, 1, 5, 5, 5, 5]
  obtain ⟨hhits, -, htrunc⟩ := hlists (hdone (by decide) (by decide +kernel))
  refine ⟨scan, hrun, ?_, ?_⟩
  · rw [Bool.eq_false_iff, Ne, htrunc]
    decide +kernel
  · rw [hhits]
    decide +kernel

end CayenChat.App
