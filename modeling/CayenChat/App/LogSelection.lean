import CayenChat.App.Identity
import CayenChat.Text.LinesUp

/-! # A selection in a log

The two ends of a selection are lines by their sequences and bytes of their texts. The log goes on
while it stands: copying it is safe as long as the bytes stay between characters, and copies no
other lines as long as no page numbers a line between the ends.
-/

namespace CayenChat.App
open Machine Utf8 Text

/-- A place in a log: the sequence of a line and a byte of its text. -/
structure LogPosition where
  row : ℤ
  byte : ℕ
  deriving DecidableEq

structure LogSelection where
  source : Source
  anchor : LogPosition
  cursor : LogPosition

namespace LogSelection

def bounds (self : LogSelection) : LogPosition × LogPosition :=
  if self.anchor.row < self.cursor.row ∨
      self.anchor.row = self.cursor.row ∧ self.anchor.byte ≤ self.cursor.byte then
    (self.anchor, self.cursor)
  else (self.cursor, self.anchor)

def covers (self : LogSelection) (row : ℤ) : Bool :=
  self.bounds.1.row ≤ row && row ≤ self.bounds.2.row

def range (self : LogSelection) (row : ℤ) (len : ℕ) : Option Range :=
  if !self.covers row then none
  else
    let start := if row = self.bounds.1.row then min self.bounds.1.byte len else 0
    let stop := if row = self.bounds.2.row then min self.bounds.2.byte len else len
    if start < stop then some ⟨start, stop⟩ else none

/-- What is copied of a line of a conversation, or of a server's log, which shows its lines as they
are; `none` where the text is cut inside a character. -/
def body (parse : List Char → Option Url) (decode : Bool) (source : Source) (text : List Char)
    (range : Range) : Option (List Char) :=
  match source with
  | .server _ => some ((slice text range.start range.stop).getD [])
  | .conversation _ =>
    if decode then do
      let compact ← Compact.new text (← find parse text) false true
      compact.copyText text range
    else slice text range.start range.stop

def view (self : LogSelection) : Selection :=
  match self.source with
  | .conversation id => .channel id
  | .server id => .server id

/-- The lines that are copied, and what is copied of each. -/
def copySelectedLog (parse : List Char → Option Url) (decode : Bool) (s : AppState)
    (self : LogSelection) : Option (List (Message × List Char)) :=
  if self.view ≠ s.selected ∨ self.anchor = self.cursor then some []
  else
    ((s.lines self.source).filter fun m => self.covers m.sequence).mapM fun m =>
      let text := m.text.toList
      let range := (self.range m.sequence (size text)).getD ⟨0, 0⟩
      (body parse decode self.source text range).map fun copied => (m, copied)

/-! ## What keeps a selection -/

/-- The byte of a place, no further than the end of a text, is between two of its characters. -/
def Splits (place : LogPosition) (m : Message) : Prop :=
  Boundary m.text.toList (min place.byte (size m.text.toList))

instance {place : LogPosition} {m : Message} : Decidable (Splits place m) :=
  inferInstanceAs (Decidable (Boundary _ _))

def Placed (b : Shelf) (source : Source) (place : LogPosition) : Prop :=
  ∃ m ∈ b.lines source, m.sequence = place.row ∧ Boundary m.text.toList place.byte

instance {b : Shelf} {source : Source} {place : LogPosition} : Decidable (Placed b source place) :=
  inferInstanceAs (Decidable (∃ m ∈ b.lines source, _ ∧ _))

def ends (self : LogSelection) : List LogPosition := [self.anchor, self.cursor]

/-- An event leaves the ends between characters, and gives no line a new sequence between them. -/
def SparedBy (self : LogSelection) (b : Shelf) : LogEvent → Prop
  | .confirm id x text kind info => self.source = .conversation id → ∀ m ∈ b.log id,
    m.sequence = x → ∀ place ∈ self.ends, place.row = x →
      Splits place (AppState.confirmed text kind info m)
  | .push id request line => ∀ x, b.Streams self.source x (.push id request line) →
    self.covers x = false
  | .settle id request => ∀ x, self.covers x = true →
    b.Undisturbed self.source x (.settle id request)
  | _ => True

def Spares (self : LogSelection) (s : AppState) (i : AppCall) : Prop :=
  Along (SparedBy self) Shelf.step s.shelf (s.events i)

def Became (source : Source) : Message → Message → Prop :=
  Relation.ReflTransGen fun a m => ∃ e : LogEvent, m = e.edit source a.sequence a

/-- What is left between the ends was there at first, and the ends split their lines. -/
structure Stands (selection : LogSelection) (rows : List Message) (b : Shelf) : Prop where
  ordered : b.Ordered
  spent : ∀ place ∈ selection.ends, b.Spent place.row
  lines : ∀ m ∈ b.lines selection.source, selection.covers m.sequence = true →
    (∃ a ∈ rows, Became selection.source a m) ∧
      ∀ place ∈ selection.ends, m.sequence = place.row → Splits place m

variable {self : LogSelection} {b : Shelf} {rows : List Message} {e : LogEvent} {x : ℤ}
  {source : Source} {place : LogPosition} {m : Message} {s : AppState} {i : AppCall}
  {lowercase : String → String} {parse : List Char → Option Url} {decode : Bool}

theorem bounds_mem (self : LogSelection) : self.bounds.1 ∈ self.ends ∧ self.bounds.2 ∈ self.ends := by
  unfold bounds ends
  split_ifs <;> simp

theorem covers_of_mem (h : place ∈ self.ends) : self.covers place.row = true := by
  simp only [ends, List.mem_cons, List.not_mem_nil, or_false] at h
  unfold covers bounds
  obtain rfl | rfl := h <;> split_ifs <;> simp <;> omega

/-- What comes behind both ends is not between them. -/
theorem Stands.not_covers (h : self.Stands rows b) : self.covers (b.top + 1) = false := by
  have := (h.spent _ (bounds_mem self).2).2.1
  simp only [covers, Bool.and_eq_false_iff, decide_eq_false_iff_not]
  omega

theorem Stands.step (h : self.Stands rows b) (hs : self.SparedBy b e) :
    self.Stands rows (b.step e) where
  ordered := Shelf.step_ordered h.ordered e
  spent place hp := (h.spent place hp).step e
  lines m hm hc := by
    have hu : b.Undisturbed self.source m.sequence e := by
      cases e with
      | settle id request => exact hs _ hc
      | _ => trivial
    obtain ⟨a, ha, hseq, hma⟩ | htop | hstream := Shelf.origin_or h.ordered hu hm
    · obtain ⟨⟨first, hfirst, hbecame⟩, hsplits⟩ := h.lines a ha (hseq ▸ hc)
      refine ⟨⟨first, hfirst, hbecame.tail ⟨e, hseq ▸ hma⟩⟩, fun place hp hrow => ?_⟩
      have hold := hsplits place hp (hseq.trans hrow)
      rw [hma]
      cases e with
      | confirm id y text kind info =>
        dsimp only [LogEvent.edit]
        split_ifs with hy
        · obtain ⟨hsource, hxy⟩ := hy
          refine hs hsource a ?_ (hseq.trans hxy) place hp (hrow.symm.trans hxy)
          rw [hsource] at ha
          exact ha
        · exact hold
      | fail id y =>
        dsimp only [LogEvent.edit]
        split_ifs
        · exact hold
        · exact hold
      | _ => exact hold
    · rw [htop, h.not_covers] at hc
      cases hc
    · cases e with
      | push id request line =>
        rw [hs _ hstream] at hc
        cases hc
      | _ => cases hstream

theorem Stands.call (h : s.Ids ∧ self.Stands rows s.shelf) (hs : self.Spares s i) :
    (s.call lowercase i).Ids ∧ self.Stands rows (s.call lowercase i).shelf := by
  obtain ⟨hi, hf⟩ := AppState.call_follows lowercase s i h.1
  refine ⟨hi, hf ▸ ?_⟩
  exact exec_invariant (self.Stands rows) (fun _ _ hb => hb.step) h.2 hs

theorem Stands.run (h : s.Ids ∧ self.Stands rows s.shelf) {calls : List AppCall}
    (hs : Along (Spares self) (AppState.call lowercase) s calls) :
    (exec (AppState.call lowercase) s calls).Ids ∧
      self.Stands rows (exec (AppState.call lowercase) s calls).shelf :=
  exec_invariant (fun s : AppState => s.Ids ∧ self.Stands rows s.shelf) (fun _ _ => Stands.call) h hs

/-! ## Copying -/

theorem body_some {text : List Char} {r : Range} (h : Span text r) :
    ∃ copied, body parse decode source text r = some copied := by
  unfold body
  cases source with
  | server id => exact ⟨_, rfl⟩
  | conversation id =>
    dsimp only
    cases decode with
    | false => exact h.slice
    | true =>
      obtain ⟨urls, compact, hfind, hnew, hup⟩ := drawn_text_lines_up parse text false true
      obtain ⟨copied, hcopied⟩ := hup.copies r h
      refine ⟨copied, ?_⟩
      simp [hfind, hnew, hcopied]

/-- The selected part of a line is between characters. -/
theorem range_span (h : ∀ place ∈ self.ends, m.sequence = place.row → Splits place m) :
    Span m.text.toList ((self.range m.sequence (size m.text.toList)).getD ⟨0, 0⟩) := by
  have hstart := h _ (bounds_mem self).1
  have hstop := h _ (bounds_mem self).2
  have hend : Boundary m.text.toList (size m.text.toList) := ⟨_, [], (List.append_nil _).symm, rfl⟩
  unfold range
  dsimp only
  split_ifs
  case pos => exact (boundary_zero _).span
  all_goals first
    | exact (boundary_zero _).span
    | refine ⟨Nat.le_of_lt ‹_›, ?_, ?_⟩ <;>
        first | exact hstart ‹_› | exact hstop ‹_› | exact boundary_zero _ | exact hend

theorem Stands.copies (h : self.Stands rows s.shelf) : ∃ pieces,
    copySelectedLog parse decode s self = some pieces ∧
      (∀ piece ∈ pieces, ∃ a ∈ rows, Became self.source a piece.1) ∧
      pieces.Pairwise fun p q => p.1.sequence < q.1.sequence := by
  unfold copySelectedLog
  split_ifs
  · exact ⟨[], rfl, by simp, .nil⟩
  have hbody : ∀ m ∈ (s.lines self.source).filter fun m => self.covers m.sequence,
      ∃ copied, body parse decode self.source m.text.toList
        ((self.range m.sequence (size m.text.toList)).getD ⟨0, 0⟩) = some copied := by
    intro m hm
    obtain ⟨hm, hc⟩ := List.mem_filter.mp hm
    exact body_some (range_span (h.lines m hm hc).2)
  choose! copied hcopied using hbody
  refine ⟨_, Arrange.mapM_some (g := fun m => (m, copied m)) fun m hm => ?_, ?_, ?_⟩
  · dsimp only
    rw [hcopied m hm, Option.map_some]
  · intro piece hp
    obtain ⟨m, hm, rfl⟩ := List.mem_map.mp hp
    obtain ⟨hm, hc⟩ := List.mem_filter.mp hm
    exact (h.lines m hm hc).1
  · exact List.pairwise_map.mpr ((h.ordered.ascending self.source).filter _)

theorem Placed.holds (h : Placed b source place) (ho : b.Ordered) :
    b.Spent place.row ∧ ∀ m ∈ b.lines source, m.sequence = place.row → Splits place m := by
  obtain ⟨m, hm, hrow, hb⟩ := h
  refine ⟨hrow ▸ (ho.given source m hm).spent, fun m' hm' hrow' => ?_⟩
  rw [(ho.ascending source).inj hm' hm (hrow'.trans hrow.symm)]
  unfold Splits
  rw [min_eq_left hb.le]
  exact hb

/-- A selection as it is made. -/
theorem Stands.start (ho : b.Ordered) (h : ∀ place ∈ self.ends, b.Spent place.row ∧
    ∀ m ∈ b.lines self.source, m.sequence = place.row → Splits place m) :
    self.Stands ((b.lines self.source).filter fun m => self.covers m.sequence) b where
  ordered := ho
  spent place hp := (h place hp).1
  lines m hm hc := ⟨⟨m, List.mem_filter.mpr ⟨hm, hc⟩, .refl⟩, fun place hp => (h place hp).2 m hm⟩

/-- While no confirmation puts an end of a selection inside a character, and no older page gives a
line a new sequence between the ends, the selection can be copied, and what is copied is, in the
order of the log, of lines that were between the ends when the second one was set. -/
theorem copy_follows_selection (lowercase : String → String) (parse : List Char → Option Url)
    (decode : Bool) (configs : List NetworkConfig) (source : Source) (anchor cursor : LogPosition)
    (before between after : List AppCall) :
    let made := AppState.run lowercase configs before
    let s := exec (AppState.call lowercase) made between
    let selection : LogSelection := ⟨source, anchor, cursor⟩
    Placed made.shelf source anchor →
    Along (Spares ⟨source, anchor, anchor⟩) (AppState.call lowercase) made between →
    Placed s.shelf source cursor →
    Along (Spares selection) (AppState.call lowercase) s after →
    ∃ pieces, copySelectedLog parse decode (exec (AppState.call lowercase) s after) selection =
        some pieces ∧
      (∀ piece ∈ pieces, ∃ a ∈ (s.lines source).filter fun m => selection.covers m.sequence,
        Became source a piece.1) ∧
      pieces.Pairwise fun p q => p.1.sequence < q.1.sequence := by
  intro made s selection hanchor hbetween hcursor hafter
  have ho : made.shelf.Ordered := AppState.run_ordered lowercase configs before
  have hi : made.Ids := (AppState.run_shelf lowercase configs before).1
  obtain ⟨rows, hmade⟩ : ∃ rows, Stands ⟨source, anchor, anchor⟩ rows made.shelf := by
    refine ⟨_, Stands.start ho fun place hp => ?_⟩
    obtain rfl : place = anchor := by simpa [ends] using hp
    exact hanchor.holds ho
  obtain ⟨his, hs⟩ := Stands.run ⟨hi, hmade⟩ hbetween
  have hstart : selection.Stands ((s.lines source).filter fun m => selection.covers m.sequence)
      s.shelf := by
    refine Stands.start hs.ordered fun place hp => ?_
    simp only [ends, List.mem_cons, List.not_mem_nil, or_false] at hp
    obtain rfl | rfl := hp
    · have hp : place ∈ ends ⟨source, place, place⟩ := List.mem_cons_self
      exact ⟨hs.spent _ hp, fun m hm hrow => (hs.lines m hm (hrow ▸ covers_of_mem hp)).2 _ hp hrow⟩
    · exact hcursor.holds hs.ordered
  exact (Stands.run ⟨his, hstart⟩ hafter).2.copies

section Said

def said : List AppCall :=
  [.setStatus 1 .registered, .joinedChannel 1 "#a", .dispatch (.selectChannel 1),
    .appendConversationMessage 1 "alice" "aé" .message {} false]

/-- What is sent stays selected when it is confirmed as other characters of the same places. -/
theorem confirmed_line_copied :
    let s := AppState.run toAsciiLowercase [⟨1, "net", ["#a"]⟩] said
    ∃ pieces, copySelectedLog (fun _ => none) true (exec (AppState.call toAsciiLowercase) s
        [.confirmMessage 1 (sequenceOrigin + 1) (some "bü") .message {}])
        ⟨.conversation 1, ⟨sequenceOrigin + 1, 1⟩, ⟨sequenceOrigin + 1, 3⟩⟩ = some pieces ∧
      (∀ piece ∈ pieces, ∃ a ∈ (s.lines (.conversation 1)).filter fun m =>
          covers ⟨.conversation 1, ⟨sequenceOrigin + 1, 1⟩, ⟨sequenceOrigin + 1, 3⟩⟩ m.sequence,
        Became (.conversation 1) a piece.1) ∧
      pieces.Pairwise fun p q => p.1.sequence < q.1.sequence := by
  refine copy_follows_selection toAsciiLowercase (fun _ => none) true [⟨1, "net", ["#a"]⟩]
    (.conversation 1) ⟨sequenceOrigin + 1, 1⟩ ⟨sequenceOrigin + 1, 3⟩ said [] _ ?_ trivial ?_
    ⟨⟨?_, trivial⟩, trivial⟩
  · decide +kernel
  · decide +kernel
  · intro _
    decide +kernel

/-- The text that comes back has a character across the byte where a selection ends. -/
theorem confirmed_line_cut :
    let s := AppState.run toAsciiLowercase [⟨1, "net", ["#a"]⟩] said
    Placed s.shelf (.conversation 1) ⟨sequenceOrigin + 1, 0⟩ ∧
      Placed s.shelf (.conversation 1) ⟨sequenceOrigin + 1, 1⟩ ∧
        copySelectedLog (fun _ => none) false
          (s.call toAsciiLowercase (.confirmMessage 1 (sequenceOrigin + 1) (some "é") .message {}))
          ⟨.conversation 1, ⟨sequenceOrigin + 1, 0⟩, ⟨sequenceOrigin + 1, 1⟩⟩ = none := by
  decide +kernel

end Said

end LogSelection

end CayenChat.App
