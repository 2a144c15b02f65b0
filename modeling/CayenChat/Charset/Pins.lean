import CayenChat.Charset.Overrides
import CayenChat.Lib.Machine

/-! # Messages keep their encoding

Pins are kept under the text of the line, so that equal lines share them. As
long as the codec writes no line without a pin while an equal one is pinned,
every message is written in the encoding it was checked with.
-/

namespace CayenChat.Charset

open Machine

variable {ε : Type*}

/-- A line on its way to the codec, and the encoding pinned for it when it is a message. -/
structure Line (ε : Type*) where
  text : String
  pin : Option (Option ε)
  deriving DecidableEq

def pinsOf (lines : List (Line ε)) : List (String × Option ε) :=
  lines.filterMap fun l => l.pin.map fun e => (l.text, e)

/-- A connection: its charsets, the message being queued, the queued lines, and what was made of
the lines the codec took. -/
structure Link (ε : Type*) where
  charsets : ChannelCharsets ε
  pending : Option (String × Option ε) := none
  queue : List (Line ε) := []
  written : List (Line ε × Outcome ε) := []

/-- A call, a step of the worker or a step of the codec. -/
inductive Act (ε : Type*)
  | set (channel : String) (decode encode : Option String) (charRefs : Option CharRefMode)
  | setCasemapping (mapping : CaseMapping)
  | setUtf8Only
  /-- A message is pinned, and about to be queued. -/
  | pin (line : String) (encoding : Option ε)
  | queued
  /-- The queue was full: the pin is taken back. -/
  | unqueued
  /-- A line without a pin is queued. -/
  | quote (line : String)
  /-- The codec writes the oldest line. -/
  | write

namespace Link

variable [DecidableEq ε] (encodings : Encodings ε)

def waiting (s : Link ε) : List (Line ε) :=
  s.queue ++ (s.pending.map fun p => ⟨p.1, some p.2⟩).toList

def step (s : Link ε) : Act ε → Link ε
  | .set channel decode encode charRefs =>
    match s.charsets.set encodings channel decode encode charRefs with
    | .ok charsets => { s with charsets }
    | .error _ => s
  | .setCasemapping mapping => { s with charsets := s.charsets.setCasemapping mapping }
  | .setUtf8Only => { s with charsets := (s.charsets.setUtf8Only encodings).1 }
  | .pin line encoding =>
    if s.pending.isSome || !isSingleLine line then s
    else { s with charsets := s.charsets.pin line encoding, pending := some (line, encoding) }
  | .queued =>
    match s.pending with
    | some p => { s with pending := none, queue := s.queue ++ [⟨p.1, some p.2⟩] }
    | none => s
  | .unqueued =>
    match s.pending with
    | some p => { s with pending := none, charsets := s.charsets.unpin p.1 }
    | none => s
  | .quote line => if s.pending.isSome then s else { s with queue := s.queue ++ [⟨line, none⟩] }
  | .write =>
    match s.queue with
    | [] => s
    | l :: queue =>
      { s with
        charsets := (s.charsets.encode encodings l.text).1
        queue
        written := s.written ++ [(l, (s.charsets.encode encodings l.text).2)] }

/-- A line without a pin is not written while a message of the same text waits behind it. -/
def Apart (s : Link ε) : Act ε → Prop
  | .write => ∀ l ∈ s.queue.head?, l.pin = none → ∀ p ∈ pinsOf s.waiting, p.1 ≠ l.text
  | _ => True

instance Apart.decidable (s : Link ε) : (a : Act ε) → Decidable (Apart s a)
  | .write => inferInstanceAs
      (Decidable (∀ l ∈ s.queue.head?, l.pin = none → ∀ p ∈ pinsOf s.waiting, p.1 ≠ l.text))
  | .set .. | .setCasemapping _ | .setUtf8Only | .pin .. | .queued | .unqueued | .quote _ =>
    isTrue trivial

def WrittenAsPinned (utf8Only : Bool) (w : Line ε × Outcome ε) : Prop :=
  ∀ e, w.1.pin = some e → w.2 = .wrote (textEncoding w.1.text fun _ => e) ∨
    w.2 = .skipped ∧ utf8Only = true ∧ ChannelCharsets.foreign encodings e = true

def foreignMessage (l : Line ε) : Bool := l.pin.any (ChannelCharsets.foreign encodings)

def unsent (w : Line ε × Outcome ε) : Bool := foreignMessage encodings w.1 && !w.2.isWritten

end Link

/-! ## The pins of a list of lines -/

/-- A table holds the pins of a list, those of equal lines in its order. -/
structure Holds (pins : Map String (List (Option ε))) (l : List (String × Option ε)) : Prop where
  agree : ∀ text, (pins.lookup text).getD [] =
    (l.filter fun p => decide (p.1 = text)).map Prod.snd
  occupied : ∀ text, pins.lookup text ≠ some []

section Holding

variable {s : ChannelCharsets ε} {l : List (String × Option ε)} {line : String} {e : Option ε}

theorem holds_empty : Holds (∅ : Map String (List (Option ε))) [] :=
  ⟨fun _ => rfl, fun _ h => by cases h⟩

theorem Holds.total_length (h : Holds s.pins l) : Map.total List.length s.pins = l.length :=
  Map.total_length h.agree

theorem Holds.pin (h : Holds s.pins l) (line : String) (e : Option ε) :
    Holds (s.pin line e).pins (l ++ [(line, e)]) where
  agree text := by
    rw [ChannelCharsets.pin, Map.lookup_insert, List.filter_append, List.map_append, ← h.agree]
    by_cases ht : text = line
    · subst ht
      simp
    · rw [if_neg ht, List.filter_cons_of_neg (by simpa using Ne.symm ht), List.filter_nil,
        List.map_nil, List.append_nil]
  occupied text := by
    rw [ChannelCharsets.pin, Map.lookup_insert]
    split_ifs
    · simp
    · exact h.occupied text

theorem lookup_leave (pins : Map String (List (Option ε))) (line text : String)
    (left : List (Option ε)) : (ChannelCharsets.leave pins line left).lookup text =
      if text = line then (if left = [] then none else some left) else pins.lookup text := by
  unfold ChannelCharsets.leave
  by_cases hl : left = []
  · rw [if_pos (List.isEmpty_iff.mpr hl), if_pos hl, Map.lookup_erase]
  · rw [if_neg (fun h => hl (List.isEmpty_iff.mp h)), if_neg hl, Map.lookup_insert]

theorem Holds.leave {pins : Map String (List (Option ε))} {l' : List (String × Option ε)}
    (h : Holds pins l) (line : String)
    (hne : ∀ text, text ≠ line → (l'.filter fun p => decide (p.1 = text)) =
      l.filter fun p => decide (p.1 = text)) :
    Holds (ChannelCharsets.leave pins line
      ((l'.filter fun p => decide (p.1 = line)).map Prod.snd)) l' := by
  constructor
  · intro text
    rw [lookup_leave]
    by_cases ht : text = line
    · subst ht
      rw [if_pos rfl]
      split
      · rename_i he
        exact he.symm
      · rfl
    · rw [if_neg ht, h.agree, hne text ht]
  · intro text
    rw [lookup_leave]
    split_ifs with ht he
    · simp
    · intro h
      exact he (Option.some.inj h)
    · exact h.occupied text

theorem Holds.lookup_of_mem (h : Holds s.pins l) (hm : (line, e) ∈ l) :
    s.pins.lookup line = some ((l.filter fun p => decide (p.1 = line)).map Prod.snd) := by
  have ha := h.agree line
  cases hl : s.pins.lookup line with
  | some queue =>
    rw [hl, Option.getD_some] at ha
    rw [ha]
  | none =>
    rw [hl, Option.getD_none, eq_comm, List.map_eq_nil_iff] at ha
    have hf : (line, e) ∈ l.filter fun p => decide (p.1 = line) :=
      List.mem_filter.mpr ⟨hm, decide_eq_true rfl⟩
    rw [ha] at hf
    cases hf

theorem Holds.take_newest (h : Holds s.pins (l ++ [(line, e)])) :
    ∃ pins, s.unpin line = { s with pins, pinned := s.pinned - 1 } ∧ Holds pins l := by
  have hfilter : ((l ++ [(line, e)]).filter fun p => decide (p.1 = line)) =
      (l.filter fun p => decide (p.1 = line)) ++ [(line, e)] := by
    rw [List.filter_append]
    simp
  have hm : (line, e) ∈ l ++ [(line, e)] := List.mem_append_right _ (List.mem_singleton_self _)
  have hlookup := h.lookup_of_mem hm
  have hleave : Holds (ChannelCharsets.leave s.pins line _) l := h.leave line fun text ht => by
    rw [List.filter_append, List.filter_cons_of_neg (by simpa using Ne.symm ht), List.filter_nil,
      List.append_nil]
  refine ⟨_, ?_, hleave⟩
  rw [ChannelCharsets.unpin, ChannelCharsets.take, hlookup, hfilter, List.map_append, List.map_cons,
    List.map_nil]
  dsimp only
  rw [if_pos rfl, List.dropLast_concat]

theorem Holds.take_oldest (h : Holds s.pins ((line, e) :: l)) :
    ∃ pins, s.take line false = ({ s with pins, pinned := s.pinned - 1 }, some e) ∧
      Holds pins l := by
  have hfilter : (((line, e) :: l).filter fun p => decide (p.1 = line)) =
      (line, e) :: l.filter fun p => decide (p.1 = line) :=
    List.filter_cons_of_pos (by simp)
  have hm : (line, e) ∈ (line, e) :: l := List.mem_cons_self
  have hlookup := h.lookup_of_mem hm
  have hleave : Holds (ChannelCharsets.leave s.pins line _) l := h.leave line fun text ht => by
    rw [List.filter_cons_of_neg (by simpa using Ne.symm ht)]
  refine ⟨_, ?_, hleave⟩
  rw [ChannelCharsets.take, hlookup, hfilter, List.map_cons]
  rfl

theorem Holds.take_none (h : Holds s.pins l) (hl : ∀ p ∈ l, p.1 ≠ line) (newest : Bool) :
    s.take line newest = (s, none) := by
  have ha := h.agree line
  have hnil : (l.filter fun p => decide (p.1 = line)) = [] := by
    rw [List.filter_eq_nil_iff]
    intro p hp
    simpa using hl p hp
  rw [hnil, List.map_nil] at ha
  have hnone : s.pins.lookup line = none := by
    cases hq : s.pins.lookup line with
    | none => rfl
    | some queue =>
      rw [hq, Option.getD_some] at ha
      exact absurd (ha ▸ hq) (h.occupied line)
  rw [ChannelCharsets.take, hnone]

end Holding

/-! ## Every step -/

section Running

variable [DecidableEq ε] {encodings : Encodings ε} {c c' : ChannelCharsets ε}
  {l : List (String × Option ε)} {line : String} {e : Option ε} {s : Link ε}

open ChannelCharsets

theorem set_frame {channel : String} {decode encode : Option String}
    {charRefs : Option CharRefMode}
    (h : c.set encodings channel decode encode charRefs = .ok c') :
    c'.pins = c.pins ∧ c'.pinned = c.pinned ∧ c'.skipped = c.skipped ∧ c'.utf8Only = c.utf8Only := by
  unfold ChannelCharsets.set at h
  simp only [bind, Except.bind, pure, Except.pure, throw, throwThe, MonadExceptOf.throw] at h
  split at h
  · cases h
  · split at h
    · cases h
    · split at h
      · cases h
      · split at h
        · cases h
        · cases h
          exact ⟨rfl, rfl, rfl, rfl⟩

theorem encode_pinned (h : Holds c.pins ((line, e) :: l)) (hc : c.pinned = l.length + 1)
    (hs : isSingleLine line = true) : ∃ pins, Holds pins l ∧
      c.encode encodings line =
        if c.utf8Only && foreign encodings e then
          ({ c with pins, pinned := c.pinned - 1, skipped := c.skipped + 1 }, .skipped)
        else
          ({ c with pins, pinned := c.pinned - 1 }, .wrote (textEncoding line fun _ => e)) := by
  obtain ⟨pins, htake, hpins⟩ := h.take_oldest
  refine ⟨pins, hpins, ?_⟩
  have hne : c.pinned ≠ 0 := by omega
  unfold ChannelCharsets.encode takePin
  rw [if_neg hne, htake]
  dsimp only
  by_cases hf : (c.utf8Only && foreign encodings e) = true
  · rw [if_pos hf, if_pos hf]
  · rw [if_neg hf, if_neg hf]
    dsimp only
    rw [if_pos hs]

theorem encode_free (h : Holds c.pins l) (hl : ∀ p ∈ l, p.1 ≠ line) :
    ∃ refused, (c.encode encodings line).1 = { c with refused } := by
  have hpin : c.takePin encodings line = (c, none) := by
    unfold takePin
    rw [h.take_none hl]
    split <;> rfl
  unfold ChannelCharsets.encode
  rw [hpin]
  dsimp only
  split
  · exact ⟨_, rfl⟩
  · exact ⟨_, rfl⟩

omit [DecidableEq ε] in
theorem pinsOf_append (lines more : List (Line ε)) :
    pinsOf (lines ++ more) = pinsOf lines ++ pinsOf more := List.filterMap_append

/-- What holds between the steps: the pins are those of the waiting messages, and what was taken
was written as pinned. -/
structure Kept (encodings : Encodings ε) (s : Link ε) : Prop where
  holds : Holds s.charsets.pins (pinsOf s.waiting)
  counter : s.charsets.pinned = (pinsOf s.waiting).length
  single : ∀ l ∈ s.waiting, l.pin.isSome = true → isSingleLine l.text = true
  written : ∀ w ∈ s.written, Link.WrittenAsPinned encodings s.charsets.utf8Only w
  skipped : s.charsets.skipped = s.written.countP (Link.unsent encodings)

theorem Kept.charsets (h : Kept encodings s) (hp : c.pins = s.charsets.pins)
    (hn : c.pinned = s.charsets.pinned) (hs : c.skipped = s.charsets.skipped)
    (hu : s.charsets.utf8Only = true → c.utf8Only = true) :
    Kept encodings { s with charsets := c } where
  holds := by
    rw [hp]
    exact h.holds
  counter := hn.trans h.counter
  single := h.single
  written w hw e he := by
    rcases h.written w hw e he with hok | ⟨hsk, hutf, hf⟩
    · exact .inl hok
    · exact .inr ⟨hsk, hu hutf, hf⟩
  skipped := hs.trans h.skipped

theorem Kept.write (h : Kept encodings s) (ha : Link.Apart s .write) :
    Kept encodings (s.step encodings .write) := by
  cases hq : s.queue with
  | nil =>
    rw [Link.step, hq]
    exact h
  | cons q queue =>
    have hwait : s.waiting = q :: ({ s with queue } : Link ε).waiting := by
      rw [Link.waiting, hq]
      rfl
    have hsingle : ∀ l ∈ ({ s with queue } : Link ε).waiting, l.pin.isSome = true →
        isSingleLine l.text = true := fun l hl =>
      h.single l (by rw [hwait]; exact List.mem_cons_of_mem _ hl)
    have hholds := h.holds
    have hcount := h.counter
    rw [Link.step, hq]
    dsimp only
    cases hpin : q.pin with
    | none =>
      have hrest : pinsOf s.waiting = pinsOf ({ s with queue } : Link ε).waiting := by
        rw [hwait, pinsOf, List.filterMap_cons, hpin]
        rfl
      have hfree := ha q (by rw [hq]; rfl) hpin
      obtain ⟨refused, henc⟩ :
          ∃ refused, (s.charsets.encode encodings q.text).1 = { s.charsets with refused } :=
        encode_free hholds hfree
      rw [henc]
      rw [hrest] at hholds hcount
      have hnot : Link.unsent encodings (q, (s.charsets.encode encodings q.text).2) = false := by
        rw [Link.unsent, Link.foreignMessage, hpin]
        rfl
      constructor
      · exact hholds
      · exact hcount
      · exact hsingle
      · intro w hw
        rcases List.mem_append.mp hw with hw | hw
        · exact h.written w hw
        · rw [List.mem_singleton.mp hw]
          intro e he
          rw [hpin] at he
          cases he
      · rw [List.countP_append, List.countP_singleton, hnot]
        exact h.skipped
    | some e =>
      have hrest : pinsOf s.waiting =
          (q.text, e) :: pinsOf ({ s with queue } : Link ε).waiting := by
        rw [hwait, pinsOf, List.filterMap_cons, hpin]
        rfl
      rw [hrest] at hholds hcount
      rw [List.length_cons] at hcount
      have hone := h.single q (by rw [hwait]; exact List.mem_cons_self ..) (by rw [hpin]; rfl)
      obtain ⟨pins, hpins, henc⟩ : ∃ pins, _ ∧ s.charsets.encode encodings q.text = _ :=
        encode_pinned hholds hcount hone
      rw [henc]
      split
      · rename_i hskip
        rw [Bool.and_eq_true] at hskip
        have hcounted : Link.unsent encodings (q, Outcome.skipped) = true := by
          rw [Link.unsent, Link.foreignMessage, hpin]
          exact Bool.and_eq_true_iff.mpr ⟨hskip.2, rfl⟩
        constructor
        · exact hpins
        · exact Nat.sub_eq_of_eq_add hcount
        · exact hsingle
        · intro w hw
          rcases List.mem_append.mp hw with hw | hw
          · exact h.written w hw
          · rw [List.mem_singleton.mp hw]
            intro e' he
            cases hpin.symm.trans he
            exact .inr ⟨rfl, hskip.1, hskip.2⟩
        · rw [List.countP_append, List.countP_singleton, hcounted]
          exact congrArg (· + 1) h.skipped
      · have hnot : Link.unsent encodings (q, Outcome.wrote (textEncoding q.text fun _ => e)) =
            false := Bool.and_false _
        constructor
        · exact hpins
        · exact Nat.sub_eq_of_eq_add hcount
        · exact hsingle
        · intro w hw
          rcases List.mem_append.mp hw with hw | hw
          · exact h.written w hw
          · rw [List.mem_singleton.mp hw]
            intro e' he
            cases hpin.symm.trans he
            exact .inl rfl
        · rw [List.countP_append, List.countP_singleton, hnot]
          exact h.skipped

theorem Kept.step (h : Kept encodings s) (a : Act ε) (ha : Link.Apart s a) :
    Kept encodings (s.step encodings a) := by
  cases a with
  | set channel decode encode charRefs =>
    rw [Link.step]
    split
    · rename_i c hc
      obtain ⟨hp, hn, hs, hu⟩ := set_frame hc
      exact h.charsets hp hn hs fun h => hu.trans h
    · exact h
  | setCasemapping mapping => exact h.charsets rfl rfl rfl id
  | setUtf8Only => exact h.charsets rfl rfl rfl fun _ => rfl
  | pin line e =>
    rw [Link.step]
    split
    · exact h
    · rename_i hfree
      simp only [Bool.or_eq_true, not_or, Bool.not_eq_true, Option.isSome_eq_false_iff,
        Option.isNone_iff_eq_none, Bool.not_eq_false'] at hfree
      have hwait : s.waiting = s.queue := by
        rw [Link.waiting, hfree.1]
        exact List.append_nil _
      have hpins : pinsOf (s.queue ++ [⟨line, some e⟩]) = pinsOf s.waiting ++ [(line, e)] := by
        rw [pinsOf_append, hwait]
        rfl
      constructor
      · change Holds _ (pinsOf (s.queue ++ [⟨line, some e⟩]))
        rw [hpins]
        exact h.holds.pin line e
      · change s.charsets.pinned + 1 = (pinsOf (s.queue ++ [⟨line, some e⟩])).length
        rw [hpins, List.length_append, h.counter]
        rfl
      · intro l hl hp
        rcases List.mem_append.mp hl with hl | hl
        · exact h.single l (by rw [hwait]; exact hl) hp
        · rw [List.mem_singleton.mp hl]
          exact hfree.2
      · exact h.written
      · exact h.skipped
  | queued =>
    rw [Link.step]
    split
    · rename_i p hp
      have hwait : s.waiting = s.queue ++ [⟨p.1, some p.2⟩] := by
        rw [Link.waiting, hp]
        rfl
      have hnow : ({ s with pending := none, queue := s.queue ++ [⟨p.1, some p.2⟩] } :
          Link ε).waiting = s.waiting := by
        rw [hwait]
        exact List.append_nil _
      constructor
      · rw [hnow]
        exact h.holds
      · rw [hnow]
        exact h.counter
      · rw [hnow]
        exact h.single
      · exact h.written
      · exact h.skipped
    · exact h
  | unqueued =>
    rw [Link.step]
    split
    · rename_i p hp
      have hwait : s.waiting = s.queue ++ [⟨p.1, some p.2⟩] := by
        rw [Link.waiting, hp]
        rfl
      have hpins : pinsOf s.waiting = pinsOf s.queue ++ [p] := by
        rw [hwait, pinsOf_append]
        rfl
      have hholds := h.holds
      have hcount := h.counter
      rw [hpins] at hholds hcount
      obtain ⟨pins, hun, hpins'⟩ := hholds.take_newest
      have hnow : ({ s with pending := none, charsets := s.charsets.unpin p.1 } :
          Link ε).waiting = s.queue := List.append_nil _
      constructor
      · rw [hnow, hun]
        exact hpins'
      · rw [hnow, hun]
        rw [List.length_append, List.length_singleton] at hcount
        exact Nat.sub_eq_of_eq_add hcount
      · rw [hnow]
        exact fun l hl => h.single l (by rw [hwait]; exact List.mem_append_left _ hl)
      · rw [hun]
        exact h.written
      · rw [hun]
        exact h.skipped
    · exact h
  | quote line =>
    rw [Link.step]
    split
    · exact h
    · rename_i hfree
      rw [Bool.not_eq_true, Option.isSome_eq_false_iff, Option.isNone_iff_eq_none] at hfree
      have hwait : s.waiting = s.queue := by
        rw [Link.waiting, hfree]
        exact List.append_nil _
      have hnow : ({ s with queue := s.queue ++ [⟨line, none⟩] } : Link ε).waiting =
          s.waiting ++ [⟨line, none⟩] := by
        rw [hwait, Link.waiting, hfree]
        exact List.append_nil _
      have hpins : pinsOf (s.waiting ++ [(⟨line, none⟩ : Line ε)]) = pinsOf s.waiting := by
        rw [pinsOf_append]
        exact List.append_nil _
      constructor
      · rw [hnow, hpins]
        exact h.holds
      · rw [hnow, hpins]
        exact h.counter
      · rw [hnow]
        intro l hl hp
        rcases List.mem_append.mp hl with hl | hl
        · exact h.single l hl hp
        · rw [List.mem_singleton.mp hl] at hp
          cases hp
      · exact h.written
      · exact h.skipped
  | write => exact h.write ha

omit [DecidableEq ε] in
theorem new_frame {configured : List (String × Option String × Option String × Option CharRefMode)}
    (h : ChannelCharsets.new encodings configured = .ok c) :
    c.pins = ∅ ∧ c.pinned = 0 ∧ c.skipped = 0 := by
  unfold ChannelCharsets.new at h
  simp only [bind, Except.bind] at h
  split at h
  · cases h
  · cases h
    exact ⟨rfl, rfl, rfl⟩

theorem kept_new (hp : c.pins = ∅) (hn : c.pinned = 0) (hs : c.skipped = 0) :
    Kept encodings { charsets := c } where
  holds := by
    rw [hp]
    exact holds_empty
  counter := hn
  single l hl := by cases hl
  written w hw := by cases hw
  skipped := hs

end Running

/-- When no line without a pin is written while an equal message waits, every message is written in
the encoding it was pinned with or skipped for UTF-8, and the counts are right. -/
theorem messages_keep_encoding [DecidableEq ε] (encodings : Encodings ε)
    (configured : List (String × Option String × Option String × Option CharRefMode))
    (c : ChannelCharsets ε) (hc : ChannelCharsets.new encodings configured = .ok c)
    (acts : List (Act ε))
    (ha : Along Link.Apart (Link.step encodings) ({ charsets := c } : Link ε) acts) :
    let s := exec (Link.step encodings) ({ charsets := c } : Link ε) acts
    (∀ w ∈ s.written, Link.WrittenAsPinned encodings s.charsets.utf8Only w) ∧
    s.charsets.pinned = Map.total List.length s.charsets.pins ∧
    s.charsets.pinned = (pinsOf s.waiting).length ∧
    s.charsets.unsentForUtf8Only encodings =
      s.waiting.countP (Link.foreignMessage encodings) +
        s.written.countP (Link.unsent encodings) := by
  intro s
  obtain ⟨hp, hn, hs⟩ := new_frame hc
  have h : Kept encodings s := exec_invariant (Kept encodings)
    (fun s a hk hap => hk.step a hap) (kept_new hp hn hs) ha
  have htotal := h.holds.total_length
  have hforeign : Map.total (List.countP (ChannelCharsets.foreign encodings)) s.charsets.pins =
      s.waiting.countP (Link.foreignMessage encodings) := by
    rw [Map.total_countP h.holds.agree, pinsOf, List.countP_filterMap]
    apply List.countP_congr
    intro l _
    rw [Link.foreignMessage]
    cases l.pin <;> rfl
  refine ⟨h.written, h.counter.trans htotal.symm, h.counter, ?_⟩
  rw [ChannelCharsets.unsentForUtf8Only, hforeign, h.skipped]

def exampleEncodings : Encodings String where
  utf8 := "UTF-8"
  resolve label :=
    if ["UTF-8", "Shift_JIS", "ISO-2022-JP"].contains label then some label else none

/-- A message keeps its encoding when the channel's changes while it waits. -/
theorem messages_keep_encoding_changed :
    let s := exec (Link.step exampleEncodings) { charsets := {} }
      [.set "#a" none (some "ISO-2022-JP") none,
        .pin "PRIVMSG #a あ\r\n" (some "ISO-2022-JP"), .queued,
        .set "#a" none (some "Shift_JIS") none, .write]
    s.written ≠ [] ∧
      ∀ w ∈ s.written, Link.WrittenAsPinned exampleEncodings s.charsets.utf8Only w :=
  ⟨by decide +kernel, (messages_keep_encoding exampleEncodings [] {} rfl _ (by decide +kernel)).1⟩

/-- A raw line of the same text in front of a message takes its pin, and the message is written in
the encoding the channel has by then. -/
theorem raw_line_takes_pin :
    let s := exec (Link.step exampleEncodings) { charsets := {} }
      [.set "#a" none (some "ISO-2022-JP") none, .quote "PRIVMSG #a あ\r\n",
        .pin "PRIVMSG #a あ\r\n" (some "ISO-2022-JP"), .queued,
        .set "#a" none (some "Shift_JIS") none, .write, .write]
    ∃ w ∈ s.written, ¬ Link.WrittenAsPinned exampleEncodings s.charsets.utf8Only w := by
  refine ⟨(⟨"PRIVMSG #a あ\r\n", some (some "ISO-2022-JP")⟩, .wrote (some "Shift_JIS")),
    by decide +kernel, fun h => ?_⟩
  rcases h _ rfl with h | ⟨h, -⟩
  · revert h
    decide +kernel
  · cases h

end CayenChat.Charset
