import CayenChat.Lib.Redrawn
import CayenChat.Text.CharRefs
import CayenChat.Text.Links

/-! # The text of a message as drawn

Links are shortened and references drawn as their characters, for display only. Positions of the
drawn text and of the original are mapped to each other, and what is copied has the characters of
references but whole links. Slices that cut a character fail.
-/

namespace CayenChat.Text
open Utf8

def labelLimit : ℕ := 28

def linkIcon : List Char := ['\u00A0', '\u2007', '\u2007', '\u202F']

def linkTrail : List Char := ['\u00A0']

def withoutStart (start text : List Char) : Option (List Char) :=
  if start <+: text then some (text.drop start.length) else none

/-- The label of a link, and whether it is cut. -/
def label (url : List Char) : Option (List Char × Bool) :=
  let bare := ((withoutStart https url).or (withoutStart http url)).getD url
  if bare.length ≤ labelLimit then some (linkIcon ++ url ++ linkTrail, false)
  else do
    let hostEnd := (indexWhere (fun c => ['/', '?', '#'].contains c) bare).getD (size bare)
    let (host, rest) ← split bare hostEnd
    let room := labelLimit - (host.length + 1)
    some (linkIcon ++ host ++ rest.take room ++ ['…'] ++ linkTrail, true)

/-- Text that is shown in place of the original. -/
structure DrawnSpan where
  original : Range
  shown : Range
  decoded : Bool
  deriving DecidableEq

/-- A message's text as drawn. -/
structure Compact where
  text : List Char
  spans : List DrawnSpan
  deriving DecidableEq

/-- A range of the original and what is shown for it. -/
structure Replacement where
  range : Range
  shown : List Char
  decoded : Bool

def shortened (text : List Char) (urls : List (Range × String)) : Option (List Replacement) :=
  urls.mapM fun (range, _) => do
    let url ← slice text range.start range.stop
    let (shown, _) ← label url
    some ⟨range, shown, false⟩

def runReplacements (runs : List (Range × List Char)) : List Replacement :=
  runs.map fun (range, shown) => ⟨range, shown, true⟩

/-- What is replaced, in the order of the text. -/
def replacements (text : List Char) (urls : List (Range × String)) (shorten decode : Bool) :
    Option (List Replacement) :=
  (if shorten then shortened text urls else some []).bind fun links =>
    if decode then
      (findReferences text urls).map fun runs =>
        (links ++ runReplacements runs).insertionSort fun a b => a.range.start ≤ b.range.start
    else some links

/-- Draws the text behind a position, with what is replaced in it. -/
def draw (text : List Char) : ℕ → List Char → List DrawnSpan → List Replacement → Option Compact
  | cursor, shown, spans, [] => do
    let (_, rest) ← split text cursor
    some ⟨shown ++ rest, spans⟩
  | cursor, shown, spans, r :: more => do
    let plain ← slice text cursor r.range.start
    let start := size (shown ++ plain)
    let shown := shown ++ plain ++ r.shown
    draw text r.range.stop shown (spans ++ [⟨r.range, ⟨start, size shown⟩, r.decoded⟩]) more

namespace Compact

def new (text : List Char) (urls : List (Range × String)) (shorten decode : Bool) :
    Option Compact := do
  draw text 0 [] [] (← replacements text urls shorten decode)

/-- Copies from a position on. -/
def copyFrom (self : Compact) (text : List Char) (stop : ℕ) :
    ℕ → List DrawnSpan → Option (List Char)
  | cursor, [] => slice text (min cursor stop) stop
  | cursor, span :: spans =>
    if span.original.stop ≤ cursor ∨ stop ≤ span.original.start then
      copyFrom self text stop cursor spans
    else do
      let before ← slice text cursor (max span.original.start cursor)
      let shown ← slice self.text span.shown.start span.shown.stop
      return before ++ shown ++ (← copyFrom self text stop span.original.stop spans)

def copyText (self : Compact) (text : List Char) (range : Range) : Option (List Char) :=
  self.copyFrom text range.stop range.start (self.spans.filter DrawnSpan.decoded)

def original (self : Compact) (byte : ℕ) : Option ℕ :=
  mapped (fun span =>
      let middle := span.1.start + (span.1.stop - span.1.start) / 2
      if byte < middle then span.2.start else span.2.stop)
    byte 0 (self.spans.map fun span => (span.shown, span.original))

def shown (self : Compact) (byte : ℕ) (stop : Bool) : Option ℕ :=
  mapped (fun span => if stop then span.2.stop else span.2.start)
    byte 0 (self.spans.map fun span => (span.original, span.shown))

def shownRange (self : Compact) (range : Range) : Option Range := do
  let start ← self.shown range.start false
  let stop ← self.shown range.stop true
  some ⟨start, stop⟩

def shownUrls (self : Compact) (urls : List (Range × String)) : Option (List (Range × String)) :=
  urls.mapM fun (range, url) => do return (← self.shownRange range, url)

end Compact

variable {text rest : List Char} {urls : List (Range × String)} {r : Range} {ch : Char}
  {bound origin cursor : ℕ} {runs : List (Range × List Char)} {references : List (Range × Char)}

/-! ## Runs of references -/

/-- Runs up to a position, in order and apart from the links. -/
structure RunsUpTo (text : List Char) (urls : List (Range × String)) (bound : ℕ)
    (runs : List (Range × List Char)) : Prop where
  span : ∀ run ∈ runs, Span text run.1 ∧ run.1.start < run.1.stop ∧ run.2 ≠ []
  before : ∀ run ∈ runs, run.1.stop ≤ bound
  ascending : runs.Pairwise fun a b => a.1.stop ≤ b.1.start
  apart : ∀ run ∈ runs, ∀ link ∈ urls, ¬(link.1.start < run.1.stop ∧ run.1.start < link.1.stop)

theorem Occurs.span (h : Occurs text r ch) : Span text r ∧ r.start < r.stop := by
  obtain ⟨p, m, q, rfl, hstart, hstop, href⟩ := h
  obtain ⟨start, stop⟩ := r
  subst hstart hstop
  obtain ⟨tail, rfl⟩ := isReference_start href
  exact ⟨span_append .., Nat.lt_add_of_pos_right (size_pos (List.cons_ne_nil _ _))⟩

theorem RunsUpTo.concat {front : List (Range × List Char)} (run : Range × List Char)
    (h : RunsUpTo text urls bound front) (hbound : bound ≤ run.1.start) (hs : Span text run.1)
    (hlt : run.1.start < run.1.stop) (hne : run.2 ≠ [])
    (ha : ∀ link ∈ urls, ¬(link.1.start < run.1.stop ∧ run.1.start < link.1.stop)) :
    RunsUpTo text urls run.1.stop (front ++ [run]) where
  span := by
    intro other ho
    obtain ho | ho := List.mem_append.mp ho
    · exact h.span other ho
    · rw [List.mem_singleton.mp ho]
      exact ⟨hs, hlt, hne⟩
  before := by
    intro other ho
    obtain ho | ho := List.mem_append.mp ho
    · have := h.before other ho
      omega
    · rw [List.mem_singleton.mp ho]
  ascending := by
    refine List.pairwise_append.mpr ⟨h.ascending, List.pairwise_singleton _ _, ?_⟩
    intro other ho last hlast
    rw [List.mem_singleton.mp hlast]
    exact (h.before other ho).trans hbound
  apart := by
    intro other ho
    obtain ho | ho := List.mem_append.mp ho
    · exact h.apart other ho
    · rw [List.mem_singleton.mp ho]
      exact ha

theorem RunsUpTo.add (h : RunsUpTo text urls bound runs) (ho : Occurs text r ch)
    (hle : bound ≤ r.start) (hurls : ∀ link ∈ urls, link.1.start < link.1.stop)
    (hfree : ∀ link ∈ urls, ¬(link.1.start < r.stop ∧ r.start < link.1.stop))
    {added : List (Range × List Char)} (ha : addReference runs r.start r.stop ch = some added) :
    RunsUpTo text urls r.stop added := by
  obtain ⟨hspan, hlt⟩ := ho.span
  unfold addReference at ha
  split at ha
  · rename_i range shown hlast
    obtain rfl := Option.some.inj ha
    rw [Option.filter_eq_some_iff] at hlast
    obtain ⟨hlast, hend⟩ := hlast
    obtain ⟨front, rfl⟩ := List.getLast?_eq_some_iff.mp hlast
    have hmem : (range, shown) ∈ front ++ [(range, shown)] := by simp
    obtain ⟨hlastspan, hlastlt, -⟩ := h.span _ hmem
    dsimp only at hlastlt
    have hstop : range.stop = r.start := by simpa using hend
    obtain ⟨hfront, -, hbehind⟩ := List.pairwise_append.mp h.ascending
    have hbefore : RunsUpTo text urls range.start front :=
      ⟨fun run hr => h.span run (List.mem_append_left _ hr),
        fun run hr => hbehind run hr _ (List.mem_singleton_self _), hfront,
        fun run hr => h.apart run (List.mem_append_left _ hr)⟩
    rw [List.dropLast_concat]
    refine hbefore.concat (⟨range.start, r.stop⟩, shown ++ [ch]) le_rfl
      ⟨by dsimp only; omega, hlastspan.start, hspan.stop⟩ (by dsimp only; omega)
      (by simp) ?_
    -- A link that overlaps both does so in the one or the other.
    rintro link hl ⟨hstart, hover⟩
    have hlink := hurls link hl
    have hfirst := h.apart _ hmem link hl
    have hsecond := hfree link hl
    dsimp only at hstart hover hfirst
    omega
  · split_ifs at ha with hfull
    obtain rfl := Option.some.inj ha
    exact h.concat (⟨r.start, r.stop⟩, [ch]) hle hspan hlt (by simp) hfree

theorem RunsUpTo.mono (h : RunsUpTo text urls bound runs) (hle : bound ≤ origin) :
    RunsUpTo text urls origin runs :=
  ⟨h.span, fun run hr => (h.before run hr).trans hle, h.ascending, h.apart⟩

theorem RunsUpTo.addAll (h : RunsUpTo text urls bound runs)
    (hurls : ∀ link ∈ urls, link.1.start < link.1.stop)
    (href : ∀ reference ∈ references, bound ≤ reference.1.start ∧
      Occurs text reference.1 reference.2 ∧
      ∀ link ∈ urls, ¬(link.1.start < reference.1.stop ∧ reference.1.start < link.1.stop))
    (hsorted : references.Pairwise fun a b => a.1.stop ≤ b.1.start) :
    RunsUpTo text urls (size text) (addReferences runs references) ∨
      addReferences runs references = runs := by
  induction references generalizing runs bound with
  | nil => exact .inr rfl
  | cons reference references ih =>
    obtain ⟨r, ch⟩ := reference
    obtain ⟨hbound, hoccurs, hfree⟩ := href _ List.mem_cons_self
    obtain ⟨hbehind, hsorted⟩ := List.pairwise_cons.mp hsorted
    rw [addReferences]
    cases hadd : addReference runs r.start r.stop ch with
    | none => exact .inr rfl
    | some added =>
      have hadded := h.add hoccurs hbound hurls hfree hadd
      have hrest : ∀ reference ∈ references, r.stop ≤ reference.1.start ∧
          Occurs text reference.1 reference.2 ∧ ∀ link ∈ urls,
            ¬(link.1.start < reference.1.stop ∧ reference.1.start < link.1.stop) := by
        intro reference hmem
        exact ⟨hbehind reference hmem, (href reference (List.mem_cons_of_mem _ hmem)).2⟩
      dsimp only
      obtain hup | hsame := ih hadded hrest hsorted
      · exact .inl hup
      · rw [hsame]
        exact .inl (hadded.mono hoccurs.span.1.stop.le)

theorem findReferences_runs (text : List Char)
    (hurls : ∀ link ∈ urls, link.1.start < link.1.stop) :
    ∃ runs, findReferences text urls = some runs ∧ RunsUpTo text urls (size text) runs := by
  obtain ⟨references, hfree, hloop⟩ :=
    findReferencesFrom_spec urls (boundary_zero text) (by omega : size text < 0 + (size text + 1))
  have hnone : RunsUpTo text urls 0 [] := ⟨by simp, by simp, .nil, by simp⟩
  have href : ∀ reference ∈ references, 0 ≤ reference.1.start ∧
      Occurs text reference.1 reference.2 ∧
      ∀ link ∈ urls, ¬(link.1.start < reference.1.stop ∧ reference.1.start < link.1.stop) := by
    rintro ⟨r, ch⟩ hmem
    obtain ⟨hle, ho, ht⟩ := (hfree.mem r ch).mp hmem
    refine ⟨hle, ho, ?_⟩
    simpa [touchesLink] using ht
  refine ⟨_, hloop [], ?_⟩
  obtain hup | hsame := hnone.addAll hurls href hfree.sorted
  · exact hup
  · rw [hsame]
    exact hnone.mono (Nat.zero_le _)

/-! ## What is replaced -/

/-- What is replaced at a range, by what, and whether that is a reference. -/
def Replaced (text : List Char) (urls : List (Range × String)) (shorten decode : Bool)
    (r : Replacement) : Prop :=
  (r.decoded = false ∧ shorten = true ∧ ∃ link ∈ urls, link.1 = r.range ∧
      ∃ url cut, slice text r.range.start r.range.stop = some url ∧
        label url = some (r.shown, cut)) ∨
    (r.decoded = true ∧ decode = true ∧ ∃ runs, findReferences text urls = some runs ∧
      (r.range, r.shown) ∈ runs)

/-- Replacements in the order of the text, each of a part of it. -/
structure InOrder (text : List Char) (rs : List Replacement) : Prop where
  span : ∀ r ∈ rs, Span text r.range ∧ r.range.start < r.range.stop ∧ r.shown ≠ []
  ascending : rs.Pairwise fun a b => a.range.stop ≤ b.range.start

theorem label_some (url : List Char) : ∃ shown cut, label url = some (shown, cut) ∧ shown ≠ [] := by
  unfold label
  dsimp only
  generalize ((withoutStart https url).or (withoutStart http url)).getD url = bare
  split_ifs
  · exact ⟨_, _, rfl, by simp [linkIcon]⟩
  · have hend := indexWhere_eq (fun c => ['/', '?', '#'].contains c) bare 0
    simp only [Nat.zero_add, Option.map_id'] at hend
    have hcut := List.takeWhile_append_dropWhile
      (p := fun c => !(['/', '?', '#'].contains c)) (l := bare)
    have hsplit := split_append (bare.takeWhile fun c => !(['/', '?', '#'].contains c))
      (bare.dropWhile fun c => !(['/', '?', '#'].contains c))
    rw [hcut] at hsplit
    rw [hend, hsplit]
    exact ⟨_, _, rfl, by simp [linkIcon]⟩

theorem shortened_some (text : List Char) (hspan : ∀ link ∈ urls, Span text link.1) :
    ∃ rs, shortened text urls = some rs ∧ rs.map Replacement.range = urls.map Prod.fst ∧
      (∀ r ∈ rs, r.decoded = false ∧ r.shown ≠ [] ∧ ∃ url cut,
        slice text r.range.start r.range.stop = some url ∧ label url = some (r.shown, cut)) := by
  unfold shortened
  induction urls with
  | nil => exact ⟨[], rfl, rfl, by simp⟩
  | cons link urls ih =>
    obtain ⟨range, address⟩ := link
    obtain ⟨rs, hrs, hranges, hlabels⟩ := ih fun l hl => hspan l (List.mem_cons_of_mem _ hl)
    obtain ⟨url, hurl⟩ := (hspan _ List.mem_cons_self).slice
    obtain ⟨shown, cut, hlabel, hne⟩ := label_some url
    dsimp only at hurl
    refine ⟨⟨range, shown, false⟩ :: rs, ?_, by simp [hranges], ?_⟩
    · rw [List.mapM_cons, hrs]
      simp [hurl, hlabel]
    · rintro r (- | ⟨-, hr⟩)
      · exact ⟨rfl, hne, url, cut, hurl, hlabel⟩
      · exact hlabels r hr

theorem ascending_of_apart {rs : List Replacement}
    (hlt : ∀ r ∈ rs, r.range.start < r.range.stop)
    (hapart : rs.Pairwise fun a b => ¬(a.range.start < b.range.stop ∧ b.range.start < a.range.stop))
    (hsorted : rs.Pairwise fun a b => a.range.start ≤ b.range.start) :
    rs.Pairwise fun a b => a.range.stop ≤ b.range.start := by
  refine List.Pairwise.imp_of_mem ?_ (hapart.and hsorted)
  rintro a b ha hb ⟨hab, hle⟩
  have := hlt a ha
  have := hlt b hb
  omega

theorem mem_runReplacements {r : Replacement} :
    r ∈ runReplacements runs ↔ r.decoded = true ∧ (r.range, r.shown) ∈ runs := by
  obtain ⟨range, shown, decoded⟩ := r
  simp only [runReplacements, List.mem_map, Prod.exists, Replacement.mk.injEq]
  constructor
  · rintro ⟨range, shown, hmem, rfl, rfl, rfl⟩
    exact ⟨rfl, hmem⟩
  · rintro ⟨rfl, hmem⟩
    exact ⟨range, shown, hmem, rfl, rfl, rfl⟩

theorem mem_shortened {rs : List Replacement} {r : Replacement}
    (hranges : rs.map Replacement.range = urls.map Prod.fst)
    (hlabels : ∀ r ∈ rs, r.decoded = false ∧ r.shown ≠ [] ∧ ∃ url cut,
      slice text r.range.start r.range.stop = some url ∧ label url = some (r.shown, cut)) :
    r ∈ rs ↔ r.decoded = false ∧ ∃ link ∈ urls, link.1 = r.range ∧ ∃ url cut,
      slice text r.range.start r.range.stop = some url ∧ label url = some (r.shown, cut) := by
  constructor
  · intro hr
    obtain ⟨hd, -, hlabel⟩ := hlabels r hr
    have hmem : r.range ∈ urls.map Prod.fst := by
      rw [← hranges]
      exact List.mem_map_of_mem hr
    obtain ⟨link, hl, heq⟩ := List.mem_map.mp hmem
    exact ⟨hd, link, hl, heq, hlabel⟩
  · rintro ⟨hd, link, hl, heq, url, cut, hurl, hlabel⟩
    have hmem : r.range ∈ rs.map Replacement.range := by
      rw [hranges, ← heq]
      exact List.mem_map_of_mem hl
    obtain ⟨r', hr', hrange⟩ := List.mem_map.mp hmem
    obtain ⟨hd', -, url', cut', hurl', hlabel'⟩ := hlabels r' hr'
    obtain ⟨range, shown, decoded⟩ := r
    obtain ⟨range', shown', decoded'⟩ := r'
    simp_all

theorem replacements_some (text : List Char) (shorten decode : Bool)
    (hspan : ∀ link ∈ urls, Span text link.1 ∧ link.1.start < link.1.stop)
    (hascending : urls.Pairwise fun a b => a.1.stop ≤ b.1.start) :
    ∃ rs, replacements text urls shorten decode = some rs ∧ InOrder text rs ∧
      ∀ r, r ∈ rs ↔ Replaced text urls shorten decode r := by
  obtain ⟨labels, hlabels, hranges, hlabel⟩ := shortened_some text fun l hl => (hspan l hl).1
  obtain ⟨runs, hruns, hup⟩ := findReferences_runs text fun l hl => (hspan l hl).2
  obtain ⟨links, hlinks, hmemlinks, hsub⟩ : ∃ links,
      (if shorten then shortened text urls else some []) = some links ∧
      (∀ r, r ∈ links ↔ shorten = true ∧ r ∈ labels) ∧ links.Sublist labels := by
    cases shorten with
    | true => exact ⟨labels, hlabels, by simp, .refl _⟩
    | false => exact ⟨[], rfl, by simp, List.nil_sublist _⟩
  have hinlinks : ∀ r ∈ links, r.range ∈ urls.map Prod.fst := by
    intro r hr
    rw [← hranges]
    exact List.mem_map_of_mem (hsub.mem hr)
  have hspans : ∀ r ∈ links, Span text r.range ∧ r.range.start < r.range.stop ∧ r.shown ≠ [] := by
    intro r hr
    obtain ⟨link, hl, heq⟩ := List.mem_map.mp (hinlinks r hr)
    rw [← heq]
    exact ⟨(hspan link hl).1, (hspan link hl).2, (hlabel r (hsub.mem hr)).2.1⟩
  have horder : links.Pairwise fun a b => a.range.stop ≤ b.range.start := by
    refine List.Pairwise.sublist hsub ?_
    have : (labels.map Replacement.range).Pairwise fun a b => a.stop ≤ b.start := by
      rw [hranges]
      exact List.pairwise_map.mpr hascending
    exact List.pairwise_map.mp this
  have hreplaced : ∀ r, Replaced text urls shorten decode r ↔
      r ∈ links ∨ (decode = true ∧ r ∈ runReplacements runs) := by
    intro r
    rw [hmemlinks, mem_shortened hranges hlabel, mem_runReplacements]
    unfold Replaced
    simp only [hruns, Option.some.injEq, exists_eq_left']
    rw [and_left_comm (a := shorten = true), and_left_comm (a := decode = true)]
  unfold replacements
  rw [hlinks, Option.bind_some, hruns]
  cases decode with
  | false => exact ⟨links, rfl, ⟨hspans, horder⟩, fun r => by simp [hreplaced]⟩
  | true =>
    have hperm := List.perm_insertionSort (fun a b : Replacement => a.range.start ≤ b.range.start)
      (links ++ runReplacements runs)
    have hall : ∀ r ∈ links ++ runReplacements runs,
        Span text r.range ∧ r.range.start < r.range.stop ∧ r.shown ≠ [] := by
      intro r hr
      obtain hr | hr := List.mem_append.mp hr
      · exact hspans r hr
      · exact hup.span _ (mem_runReplacements.mp hr).2
    refine ⟨_, rfl, ⟨fun r hr => hall r (hperm.mem_iff.mp hr), ?_⟩, ?_⟩
    · refine ascending_of_apart (fun r hr => (hall r (hperm.mem_iff.mp hr)).2.1) ?_ ?_
      · have happart : (links ++ runReplacements runs).Pairwise fun a b =>
            ¬(a.range.start < b.range.stop ∧ b.range.start < a.range.stop) := by
          refine List.pairwise_append.mpr ⟨horder.imp (by omega), ?_, ?_⟩
          · unfold runReplacements
            exact List.pairwise_map.mpr (hup.ascending.imp (by dsimp only; omega))
          · intro a ha b hb hab
            obtain ⟨link, hl, heq⟩ := List.mem_map.mp (hinlinks a ha)
            have := hup.apart _ (mem_runReplacements.mp hb).2 link hl
            rw [heq] at this
            exact this hab
        exact (hperm.pairwise_iff fun h hab => h ⟨hab.2, hab.1⟩).mpr happart
      · exact List.pairwise_insertionSort _ _
    · intro r
      rw [hreplaced, hperm.mem_iff, List.mem_append]
      simp

/-! ## Drawing -/

/-- A span stands for a replacement in the drawn text. -/
structure StandsFor (drawn : List Char) (span : DrawnSpan) (r : Replacement) : Prop where
  original : span.original = r.range
  decoded : span.decoded = r.decoded
  shown : slice drawn span.shown.start span.shown.stop = some r.shown

theorem InOrder.tail {r : Replacement} {rs : List Replacement} (h : InOrder text (r :: rs)) :
    InOrder text rs :=
  ⟨fun s hs => h.span s (List.mem_cons_of_mem _ hs), (List.pairwise_cons.mp h.ascending).2⟩

theorem draw_spec {rs : List Replacement} {p : List Char} (h : InOrder text rs)
    (htext : text = p ++ rest) (hle : ∀ r ∈ rs, size p ≤ r.range.start) (shown : List Char)
    (spans : List DrawnSpan) :
    ∃ drawn added, draw text (size p) shown spans rs = some ⟨shown ++ drawn, spans ++ added⟩ ∧
      Redrawn (size p) (size shown) rest drawn (added.map fun s => (s.original, s.shown)) ∧
      List.Forall₂ (StandsFor (shown ++ drawn)) added rs := by
  induction rs generalizing p rest shown spans with
  | nil =>
    refine ⟨rest, [], ?_, .nil, .nil⟩
    rw [draw, htext, split_append, List.append_nil]
    rfl
  | cons r rs ih =>
    obtain ⟨range, label, decoded⟩ := r
    obtain ⟨hspan, hlt, hne⟩ := h.span _ List.mem_cons_self
    obtain ⟨p', old, q, heq, hstart, hstop⟩ := hspan.parts
    dsimp only at hlt hne hstart hstop
    have hcursor := hle _ List.mem_cons_self
    dsimp only at hcursor
    rw [htext, List.append_assoc] at heq
    obtain ⟨before, rfl, rfl⟩ := prefix_of_size_le heq.symm (by omega)
    rw [size_append] at hstart hstop
    have hplain : slice text (size p) range.start = some before := by
      rw [htext, ← hstart, ← List.append_assoc]
      exact slice_append ..
    have hnext : text = (p ++ before ++ old) ++ q := by
      rw [htext]
      simp
    have hold : old ≠ [] := by
      rintro rfl
      rw [size_nil] at hstop
      omega
    have hsize : size (p ++ before ++ old) = range.stop := by
      rw [size_append, size_append, hstop]
    have hbehind : ∀ r ∈ rs, size (p ++ before ++ old) ≤ r.range.start := by
      rw [hsize]
      exact (List.pairwise_cons.mp h.ascending).1
    obtain ⟨drawn, added, hdraw, hredrawn, hstands⟩ := ih h.tail hnext hbehind
      (shown ++ before ++ label)
      (spans ++ [⟨range, ⟨size (shown ++ before), size (shown ++ before ++ label)⟩, decoded⟩])
    have hassoc : shown ++ before ++ label ++ drawn = shown ++ (before ++ (label ++ drawn)) := by
      simp
    rw [hassoc] at hdraw hstands
    refine ⟨before ++ (label ++ drawn),
      ⟨range, ⟨size (shown ++ before), size (shown ++ before ++ label)⟩, decoded⟩ :: added,
      ?_, ?_, .cons ⟨rfl, rfl, ?_⟩ hstands⟩
    · rw [draw]
      simp only [hplain, Option.bind_eq_bind, Option.bind_some]
      rw [← hsize, hdraw, List.append_assoc, List.singleton_append]
    · have hshown : size (shown ++ before ++ label) = size shown + size before + size label := by
        rw [size_append, size_append]
      have hpast : size (p ++ before ++ old) = size p + size before + size old := by
        rw [size_append, size_append]
      rw [hpast, hshown] at hredrawn
      have hall := Redrawn.cons hold hne hredrawn
      rw [hstop, hstart, ← hshown, ← size_append] at hall
      exact hall
    · dsimp only
      rw [size_append (shown ++ before) label, ← List.append_assoc, ← List.append_assoc]
      exact slice_append ..

end CayenChat.Text
