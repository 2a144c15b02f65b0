import CayenChat.Editing.TextInput

/-! # What is done to the text input

Every key, press of the mouse, request of an input method and call of the
windows is an operation of its own.
-/

namespace CayenChat.Editing

open Utf8

namespace TextInput

variable (script : Script)

/-! ## Keys that move and select -/

def left (t : TextInput) : TextInput :=
  if t.noSelection then t.moveTo (previousBoundary script t.content t.cursorOffset)
  else t.moveTo t.selectedRange.start

def right (t : TextInput) : TextInput :=
  if t.noSelection then t.moveTo (nextBoundary script t.content t.selectedRange.stop)
  else t.moveTo t.selectedRange.stop

def selectLeft (t : TextInput) : TextInput :=
  t.selectTo (previousBoundary script t.content t.cursorOffset)

def selectRight (t : TextInput) : TextInput :=
  t.selectTo (nextBoundary script t.content t.cursorOffset)

def selectEverything (t : TextInput) : TextInput := (t.moveTo 0).selectTo (size t.content)

def homeOffset (t : TextInput) : Option ℕ := do
  if !t.multiline then pure 0
  else
    let (before, _) ← split t.content t.cursorOffset
    pure (SelectUnit.lineStart before)

def endOffset (t : TextInput) : Option ℕ := do
  if !t.multiline then pure (size t.content)
  else
    let (_, after) ← split t.content t.cursorOffset
    pure (t.cursorOffset + SelectUnit.lineRest after)

def home (t : TextInput) : Option TextInput := t.homeOffset.map t.moveTo
def «end» (t : TextInput) : Option TextInput := t.endOffset.map t.moveTo
def selectHome (t : TextInput) : Option TextInput := t.homeOffset.map t.selectTo
def selectEnd (t : TextInput) : Option TextInput := t.endOffset.map t.selectTo
def documentStart (t : TextInput) : TextInput := t.moveTo 0
def documentEnd (t : TextInput) : TextInput := t.moveTo (size t.content)
def selectDocumentStart (t : TextInput) : TextInput := t.selectTo 0
def selectDocumentEnd (t : TextInput) : TextInput := t.selectTo (size t.content)

def moveRows (t : TextInput) (target : ℕ) (select : Bool) : TextInput :=
  if select then t.selectTo target else t.moveTo target

def wordLeft (t : TextInput) : TextInput :=
  t.moveTo (if t.noSelection then wordBoundaryLeft script t.content t.cursorOffset
    else t.selectedRange.start)

def wordRight (t : TextInput) : TextInput :=
  t.moveTo (if t.noSelection then wordBoundaryRight script t.content t.cursorOffset
    else t.selectedRange.stop)

def selectWordLeft (t : TextInput) : TextInput :=
  t.selectTo (wordBoundaryLeft script t.content t.cursorOffset)

def selectWordRight (t : TextInput) : TextInput :=
  t.selectTo (wordBoundaryRight script t.content t.cursorOffset)

/-! ## Keys that insert and delete -/

/-- A line break, which repeats the quote mark that the line starts with. -/
def insertNewline (t : TextInput) : Option TextInput := do
  match t.lineQuote with
  | none => t.replaceTextInRange none ['\n']
  | some quote =>
    let cursor := t.selectedRange.start
    let (before, _) ← split t.content cursor
    let start := SelectUnit.lineStart before
    if start + (size quote + 1) ≤ cursor then
      let line ← slice t.content start cursor
      -- Only after the quote and its space.
      if (quote ++ [' ']).isPrefixOf line then t.replaceTextInRange none ('\n' :: quote ++ [' '])
      else t.replaceTextInRange none ['\n']
    else t.replaceTextInRange none ['\n']

/-- The line around an offset in a multi-line input, otherwise the whole text. -/
def hardLine (t : TextInput) (offset : ℕ) : Option Range := do
  if !t.multiline then pure ⟨0, size t.content⟩
  else
    let (before, after) ← split t.content offset
    pure ⟨SelectUnit.lineStart before, offset + SelectUnit.lineRest after⟩

def deleteTo (t : TextInput) (offset : ℕ) : Option TextInput :=
  (if t.noSelection then t.selectTo offset else t).replaceTextInRange none []

def deleteWordBackward (t : TextInput) : Option TextInput :=
  t.deleteTo (wordBoundaryLeft script t.content t.cursorOffset)

def deleteWordForward (t : TextInput) : Option TextInput :=
  t.deleteTo (wordBoundaryRight script t.content t.cursorOffset)

def backspace (t : TextInput) : Option TextInput :=
  t.deleteTo (previousBoundary script t.content t.cursorOffset)

def delete (t : TextInput) : Option TextInput :=
  t.deleteTo (nextBoundary script t.content t.cursorOffset)

def deleteToBeginning (t : TextInput) : Option TextInput := do
  if t.noSelection then t.deleteTo (← t.hardLine t.cursorOffset).start
  else t.replaceTextInRange none []

/-- Deletes to the end of the line, or the line break at the end of one. -/
def deleteToEnd (t : TextInput) : Option TextInput := do
  if t.noSelection then
    let cursor := t.cursorOffset
    let line ← t.hardLine cursor
    t.deleteTo (if line.stop = cursor ∧ cursor < size t.content then
      nextBoundary script t.content cursor else line.stop)
  else t.replaceTextInRange none []

def deleteLine (t : TextInput) : Option TextInput := do
  let line ← t.hardLine t.cursorOffset
  ((t.moveTo line.start).selectTo line.stop).replaceTextInRange none []

def replaceWhitespace (t : TextInput) (text : List Char) : Option TextInput := do
  let range ← whitespaceAround t.content t.cursorOffset
  let old ← slice t.content range.start range.stop
  if old = text then pure t
  else ((t.moveTo range.start).selectTo range.stop).replaceTextInRange none text

def deleteWhitespace (t : TextInput) : Option TextInput := t.replaceWhitespace []
def collapseWhitespace (t : TextInput) : Option TextInput := t.replaceWhitespace [' ']

def copy (t : TextInput) : Option (Option (List Char)) :=
  if !t.secret && !t.noSelection then
    (slice t.content t.selectedRange.start t.selectedRange.stop).map some
  else some none

def cut (t : TextInput) : Option TextInput := do
  match ← t.copy with
  | some _ => t.replaceTextInRange none []
  | none => pure t

/-! ## The mouse -/

def onMouseDown (t : TextInput) (offset clickCount : ℕ) (shift : Bool) : Option TextInput := do
  if t.doubleClickSelectsAll && 2 ≤ clickCount && !shift then
    -- Not a drag start, so moving the mouse keeps the selection.
    pure { t with isSelecting := false }.selectEverything
  else
    let t := { t with isSelecting := true, dragUnit := none }
    if shift then pure (t.selectTo offset)
    else
      match SelectUnit.ofClick clickCount with
      | some unit =>
        -- A composition in progress keeps the plain click.
        if t.markedRange.isSome then pure (t.moveTo offset)
        else
          let range ← SelectUnit.range script t.content offset unit
          let t := (t.moveTo range.start).selectTo range.stop
          pure { t with dragUnit := some (unit, range) }
      | none => pure (t.moveTo offset)

/-- Moves the end of the selection to an offset; after a double or triple click by whole units,
keeping the clicked one selected. -/
def dragTo (t : TextInput) (offset : ℕ) : Option TextInput := do
  match t.dragUnit with
  | none => pure (t.selectTo offset)
  | some (unit, anchor) =>
    let range ← SelectUnit.range script t.content offset unit
    if range.start < anchor.start then
      pure { t with
        completion := none
        selectedRange := ⟨range.start, anchor.stop⟩
        selectionReversed := true }
    else
      pure { t with
        completion := none
        selectedRange := ⟨anchor.start, range.stop⟩
        selectionReversed := false }

def onMouseMove (t : TextInput) (offset : ℕ) : Option TextInput :=
  if t.isSelecting then t.dragTo script offset else some t

def onMouseUp (t : TextInput) (offset : ℕ) : Option TextInput :=
  (t.onMouseMove script offset).map fun t => { t with isSelecting := false }

/-! ## Nicknames and pasted text -/

/-- The completion that the cursor still stands behind. -/
def completing (t : TextInput) : Option (Option NickCompletion) := do
  match t.completion with
  | none => pure none
  | some previous =>
    if t.cursorOffset = previous.span.stop then
      let shown ← slice t.content previous.span.start previous.span.stop
      let name ← previous.names[previous.index]?
      pure (if shown = name then some previous else none)
    else pure none

def completeWith (t : TextInput) (span : Range) (names : List (List Char)) (index : ℕ) :
    Option TextInput := do
  let name ← names[index]?
  let t ← { t with selectedRange := span }.replaceTextInRange none name
  pure { t with completion := some ⟨⟨span.start, span.start + size name⟩, names, index⟩ }

def completeNickname (t : TextInput) (members : List (List Char)) : Option TextInput := do
  if t.markedRange.isSome || !t.noSelection then pure t
  else
    match ← t.completing with
    | some previous =>
      t.completeWith previous.span previous.names ((previous.index + 1) % previous.names.length)
    | none =>
      let cursor := t.cursorOffset
      let start ← nicknameStart script t.content cursor
      let typed ← slice t.content start cursor
      let names := nicknameMatches script typed members
      if names.isEmpty then pure t else t.completeWith ⟨start, cursor⟩ names 0

/-- Inserts pasted text at the caret, shortening a lone long link when that is on. -/
def insertPasted (parse : List Char → Option Amazon.Link) (t : TextInput) (text : List Char)
    (shortens : Bool) : Option TextInput := do
  let start := t.selectedRange.start
  let short := if t.draft && shortens then Amazon.shortenPasted parse text else none
  let t ← t.replaceTextInRange none (if t.multiline then text else joinPastedLines text)
  match short with
  | none => pure t
  -- A separate edit, so one undo gives back the long link.
  | some short =>
    replaceTextInRange { t with selectedRange := ⟨start, t.selectedRange.stop⟩ } none short

end TextInput

inductive Op
  | replaceTextInRange (range : Option Range) (text : List Char)
  | replaceAndMarkTextInRange (range : Option Range) (text : List Char) (selected : Option Range)
  | unmarkText
  | textForRange (range : Range)
  | left
  | right
  | selectLeft
  | selectRight
  | selectAll
  | home
  | «end»
  | selectHome
  | selectEnd
  | documentStart
  | documentEnd
  | selectDocumentStart
  | selectDocumentEnd
  | moveRows (target : ℕ) (select : Bool)
  | wordLeft
  | wordRight
  | selectWordLeft
  | selectWordRight
  | insertNewline
  | backspace
  | delete
  | deleteWordBackward
  | deleteWordForward
  | deleteToBeginning
  | deleteToEnd
  | deleteLine
  | deleteWhitespace
  | collapseWhitespace
  | copy
  | cut
  | undo
  | redo
  | onMouseDown (offset clickCount : ℕ) (shift : Bool)
  | onMouseMove (offset : ℕ)
  | onMouseUp (offset : ℕ)
  | completeNickname (members : List (List Char))
  | insertPasted (text : List Char) (shortens : Bool)
  | insertLink (link : List Char)
  | replaceText (value : List Char)
  | setText (value : List Char)
  | clearAfterSend
  | setLineQuote (quote : Option (List Char))

namespace TextInput

variable (script : Script) (parse : List Char → Option Amazon.Link)

def step (t : TextInput) : Op → Option TextInput
  | .replaceTextInRange range text => t.replaceTextInRange range text
  | .replaceAndMarkTextInRange range text selected =>
    t.replaceAndMarkTextInRange range text selected
  | .unmarkText => t.unmarkText
  | .textForRange range => (t.textForRange range).map fun _ => t
  | .left => some (t.left script)
  | .right => some (t.right script)
  | .selectLeft => some (t.selectLeft script)
  | .selectRight => some (t.selectRight script)
  | .selectAll => some t.selectEverything
  | .home => t.home
  | .end => t.end
  | .selectHome => t.selectHome
  | .selectEnd => t.selectEnd
  | .documentStart => some t.documentStart
  | .documentEnd => some t.documentEnd
  | .selectDocumentStart => some t.selectDocumentStart
  | .selectDocumentEnd => some t.selectDocumentEnd
  | .moveRows target select => some (t.moveRows target select)
  | .wordLeft => some (t.wordLeft script)
  | .wordRight => some (t.wordRight script)
  | .selectWordLeft => some (t.selectWordLeft script)
  | .selectWordRight => some (t.selectWordRight script)
  | .insertNewline => t.insertNewline
  | .backspace => t.backspace script
  | .delete => t.delete script
  | .deleteWordBackward => t.deleteWordBackward script
  | .deleteWordForward => t.deleteWordForward script
  | .deleteToBeginning => t.deleteToBeginning
  | .deleteToEnd => t.deleteToEnd script
  | .deleteLine => t.deleteLine
  | .deleteWhitespace => t.deleteWhitespace
  | .collapseWhitespace => t.collapseWhitespace
  | .copy => t.copy.map fun _ => t
  | .cut => t.cut
  | .undo => t.undoEdit
  | .redo => t.redoEdit
  | .onMouseDown offset clickCount shift => t.onMouseDown script offset clickCount shift
  | .onMouseMove offset => t.onMouseMove script offset
  | .onMouseUp offset => t.onMouseUp script offset
  | .completeNickname members => t.completeNickname script members
  | .insertPasted text shortens => t.insertPasted parse text shortens
  | .insertLink link => t.insertLink link
  | .replaceText value => t.replaceText value
  | .setText value => t.setText value
  | .clearAfterSend => t.clearAfterSend
  | .setLineQuote quote => some { t with lineQuote := quote }

end TextInput

end CayenChat.Editing
