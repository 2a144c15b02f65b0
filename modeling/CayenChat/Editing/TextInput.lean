import CayenChat.Wire.Text
import CayenChat.Editing.Units

/-! # Pasted text

Pasted line breaks, and the short form of a long product link of Amazon. What
parses as a link is a parameter.
-/

namespace CayenChat.Editing

def replaceCrLf (c : Char) : List Char → List Char
  | '\r' :: '\n' :: s => c :: replaceCrLf c s
  | d :: s => d :: replaceCrLf c s
  | [] => []

def joinPastedLines (text : List Char) : List Char :=
  (replaceCrLf ' ' text).map fun c => if c == '\r' || c == '\n' then ' ' else c

/-- Text to insert between two characters so that single spaces separate the link. -/
def linkInsertion (before after : Option Char) (url : List Char) : List Char :=
  (if before.any (!isWhitespace ·) then [' '] else []) ++ url ++
    (if after.any (!isWhitespace ·) then [' '] else [])

namespace Amazon

/-- What a URL parses to. -/
structure Link where
  scheme : String
  username : String
  password : Option String
  port : Option ℕ
  fragment : Option String
  host : Option String
  segments : Option (List String)

def minLength : ℕ := 100

/-- Marketplace hosts, without a leading `www.`. -/
def domains : List String :=
  ["amazon.co.jp", "amazon.com", "amazon.co.uk", "amazon.de", "amazon.fr", "amazon.it",
    "amazon.es", "amazon.ca", "amazon.com.au", "amazon.com.br", "amazon.com.mx", "amazon.in",
    "amazon.nl", "amazon.se", "amazon.pl", "amazon.sg", "amazon.ae", "amazon.sa",
    "amazon.com.tr", "amazon.eg", "amazon.com.be"]

def isSlug (segment : String) : Bool :=
  segment ≠ "" && segment ≠ "dp" && segment ≠ "gp" && segment ≠ "product"

def isAsin (value : String) : Bool :=
  byteLen value = 10 && value.toList.all fun c => c.isUpper || c.isDigit

def skipLanguage : List String → List String
  | "-" :: lang :: rest =>
    if byteLen lang = 2 || byteLen lang = 5 then rest else "-" :: lang :: rest
  | all => all

def product : List String → Option (Bool × String × List String)
  | "dp" :: asin :: rest => some (true, asin, rest)
  | slug :: "dp" :: asin :: rest => some (isSlug slug, asin, rest)
  | "gp" :: "product" :: asin :: rest => some (true, asin, rest)
  | _ => none

def restOk : List String → Bool
  | [] | [""] => true
  | [tail] => tail.startsWith "ref="
  | _ => false

variable (parse : List Char → Option Link)

def shortenLink (link : List Char) : Option (List Char) := do
  if link.length < minLength then none
  else
    let url ← parse link
    if (url.scheme ≠ "http" && url.scheme ≠ "https") || url.username ≠ "" ||
        url.password.isSome || url.port.isSome || url.fragment.isSome then none
    else
      let host ← url.host
      let bare := if host.startsWith "www." then (host.drop 4).toString else host
      if !domains.contains bare then none
      else
        let segments ← url.segments
        let (slugOk, asin, rest) ← product (skipLanguage segments)
        if slugOk && restOk rest && isAsin asin then
          pure ("https://".toList ++ host.toList ++ "/dp/".toList ++ asin.toList)
        else none

def shortenPasted (text : List Char) : Option (List Char) :=
  let link := ((text.dropWhile isWhitespace).reverse.dropWhile isWhitespace).reverse
  if link.any isWhitespace then none else shortenLink parse link

end Amazon

end CayenChat.Editing

/-! ## The text input

The text of an input, what is selected in it, what an input method composes,
the steps back, and the links that wait for the end of a composition. An
operation that cuts the text between the bytes of a character, or past its
end, has no result.
-/

namespace CayenChat.Editing

open Utf8

structure EditSnapshot where
  content : List Char
  selection : Range
  reversed : Bool

/-- A nickname that was completed, and the others that would do. -/
structure NickCompletion where
  span : Range
  names : List (List Char)
  index : ℕ

structure TextInput where
  content : List Char := []
  selectedRange : Range := .at 0
  selectionReversed : Bool := false
  markedRange : Option Range := none
  isSelecting : Bool := false
  /-- Set by a double or triple click: the unit and the range that click selected. -/
  dragUnit : Option (SelectUnit × Range) := none
  undo : List EditSnapshot := []
  redo : List EditSnapshot := []
  completion : Option NickCompletion := none
  secret : Bool := false
  draft : Bool := false
  doubleClickSelectsAll : Bool := false
  multiline : Bool := false
  lineQuote : Option (List Char) := none
  /-- Links that arrived while composing. -/
  pendingLinks : List (List Char) := []
  /-- Every link that was inserted; nothing reads it. -/
  inserted : List (List Char) := []

namespace TextInput

def cursorOffset (t : TextInput) : ℕ :=
  if t.selectionReversed then t.selectedRange.start else t.selectedRange.stop

def noSelection (t : TextInput) : Bool := t.selectedRange.start == t.selectedRange.stop

def moveTo (t : TextInput) (offset : ℕ) : TextInput :=
  { t with completion := none, selectedRange := .at offset, selectionReversed := false }

def selectTo (t : TextInput) (offset : ℕ) : TextInput :=
  let range : Range :=
    if t.selectionReversed then ⟨offset, t.selectedRange.stop⟩ else ⟨t.selectedRange.start, offset⟩
  if range.stop < range.start then
    { t with
      completion := none
      selectedRange := ⟨range.stop, range.start⟩
      selectionReversed := !t.selectionReversed }
  else { t with completion := none, selectedRange := range }

def snapshot (t : TextInput) : EditSnapshot := ⟨t.content, t.selectedRange, t.selectionReversed⟩

def recordEdit (t : TextInput) : TextInput :=
  if t.markedRange.isNone then
    { t with
      undo := (if t.undo.length = 100 then t.undo.drop 1 else t.undo) ++ [t.snapshot]
      redo := [] }
  else t

/-! ## Links -/

def insertLinkNow (t : TextInput) (link : List Char) : Option TextInput := do
  let t := t.recordEdit
  let offset := t.cursorOffset
  let (before, after) ← split t.content offset
  pure { t with
    content := before ++ linkInsertion before.getLast? after.head? link ++ after
    selectedRange := .at offset
    selectionReversed := false
    markedRange := none
    completion := none
    inserted := t.inserted ++ [link] }

def flushPendingLinks (t : TextInput) : Option TextInput :=
  if t.markedRange.isSome || t.pendingLinks.isEmpty then some t
  else t.pendingLinks.foldlM insertLinkNow { t with pendingLinks := [] }

def insertLink (t : TextInput) (link : List Char) : Option TextInput :=
  if t.markedRange.isSome then some { t with pendingLinks := t.pendingLinks ++ [link] }
  else t.insertLinkNow link

/-! ## Typing -/

def singleLineOrNormalized (multiline : Bool) (text : List Char) : List Char :=
  if multiline then (replaceCrLf '\n' text).map fun c => if c == '\r' then '\n' else c
  else text.map fun c => if c == '\r' || c == '\n' then ' ' else c

def replaced (t : TextInput) (range : Option Range) : Range :=
  ((range.map (Range.fromUtf16 t.content)).or t.markedRange).getD t.selectedRange

def replaceTextInRange (t : TextInput) (range : Option Range) (text : List Char) :
    Option TextInput := do
  -- Return is handled by an action and must not insert a stray space.
  if !t.multiline && (text = ['\n'] || text = ['\r']) then pure t
  else
    let text := singleLineOrNormalized t.multiline text
    let range := t.replaced range
    let old ← slice t.content range.start range.stop
    let t := if old = text then t else t.recordEdit
    let (before, _) ← split t.content range.start
    let (_, after) ← split t.content range.stop
    flushPendingLinks { t with
      content := before ++ text ++ after
      selectedRange := .at (range.start + size text)
      selectionReversed := false
      markedRange := none
      completion := none }

def unitsOffset : List Char → ℕ → ℕ := fromUtf16

def replaceAndMarkTextInRange (t : TextInput) (range : Option Range) (text : List Char)
    (selected : Option Range) : Option TextInput := do
  let text := singleLineOrNormalized t.multiline text
  let range := t.replaced range
  let t := t.recordEdit
  let (before, _) ← split t.content range.start
  let (_, after) ← split t.content range.stop
  flushPendingLinks { t with
    content := before ++ text ++ after
    markedRange := if text.isEmpty then none else some ⟨range.start, range.start + size text⟩
    selectedRange := match selected with
      | some r => ⟨range.start + unitsOffset text r.start, range.start + unitsOffset text r.stop⟩
      | none => .at (range.start + size text)
    selectionReversed := false
    completion := none }

def unmarkText (t : TextInput) : Option TextInput :=
  if t.markedRange.isSome then flushPendingLinks { t with markedRange := none } else some t

/-- What the input method reads; a secret only as masks of the same length. -/
def textForRange (t : TextInput) (range : Range) : Option (List Char) :=
  let range := range.fromUtf16 t.content
  if t.secret then
    some (List.replicate (toUtf16 t.content range.stop - toUtf16 t.content range.start) '*')
  else slice t.content range.start range.stop

/-! ## The whole text -/

def clearAfterSend (t : TextInput) : Option TextInput :=
  flushPendingLinks { t with
    content := []
    selectedRange := .at 0
    selectionReversed := false
    markedRange := none
    completion := none
    undo := []
    redo := [] }

def setText (t : TextInput) (value : List Char) : Option TextInput :=
  flushPendingLinks { t with
    content := value
    selectedRange := .at (size value)
    selectionReversed := false
    markedRange := none
    completion := none
    undo := []
    redo := [] }

/-- Replaces the whole text as one edit that can be undone. -/
def replaceText (t : TextInput) (value : List Char) : Option TextInput :=
  let t := if t.content = value then t else t.recordEdit
  flushPendingLinks { t with
    content := value
    selectedRange := .at (floor value (min t.cursorOffset (size value)))
    selectionReversed := false
    markedRange := none
    completion := none }

def restore (t : TextInput) (snapshot : EditSnapshot) : Option TextInput :=
  flushPendingLinks { t with
    content := snapshot.content
    selectedRange := snapshot.selection
    selectionReversed := snapshot.reversed
    markedRange := none
    completion := none }

def undoEdit (t : TextInput) : Option TextInput :=
  match t.undo.getLast? with
  | none => some t
  | some snapshot =>
    restore { t with undo := t.undo.dropLast, redo := t.redo ++ [t.snapshot] } snapshot

def redoEdit (t : TextInput) : Option TextInput :=
  match t.redo.getLast? with
  | none => some t
  | some snapshot =>
    restore { t with redo := t.redo.dropLast, undo := t.undo ++ [t.snapshot] } snapshot

end TextInput

end CayenChat.Editing
