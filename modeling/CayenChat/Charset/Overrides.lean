import CayenChat.Lib.Totals
import CayenChat.Wire.Names

/-! # Character encodings of channels

A connection writes lines in the server's encoding; a channel may override it
for the text of its messages. A message is written in the encoding it was
checked with: that encoding is pinned to the line until the codec takes it.
-/

namespace CayenChat.Charset

/-- The encodings a library can both read and write, by their labels. -/
structure Encodings (ε : Type*) where
  utf8 : ε
  resolve : String → Option ε

/-- When characters an encoding cannot hold are written as references. -/
inductive CharRefMode
  | auto
  | iso2022jp
  | off
  deriving DecidableEq, Repr

/-- The overrides of one channel; a side that is `none` follows the connection. -/
structure Entry (ε : Type*) where
  channel : String
  decode : Option ε
  encode : Option ε
  charRefs : Option CharRefMode

/-- What was fixed for a queued line: an encoding (`none` is the connection's), or that the line is
not to be written. -/
inductive Pin (ε : Type*)
  | encoding (encoding : Option ε)
  | skip

/-- The overrides of one connection and the pins of the queued lines. -/
structure ChannelCharsets (ε : Type*) where
  mapping : CaseMapping := default
  entries : List (Entry ε) := []
  /-- The server announced `UTF8ONLY`: only UTF-8 overrides apply. -/
  utf8Only : Bool := false
  /-- Whether any override exists. -/
  any : Bool := false
  /-- The encodings fixed for each queued line, oldest first. -/
  pins : Map String (List (Option ε)) := ∅
  /-- How many pins there are. -/
  pinned : ℕ := 0
  /-- Lines the codec skipped because of `UTF8ONLY`. -/
  skipped : ℕ := 0
  /-- Lines the codec dropped for a line break. -/
  refused : ℕ := 0

def wordOf (cs : List Char) : List Char := cs.takeWhile fun c => c ≠ ' ' && c ≠ '\r' && c ≠ '\n'

def afterWord (cs : List Char) : List Char := (cs.drop (wordOf cs).length).dropWhile (· == ' ')

def skipMarked (marker : Char) (cs : List Char) : List Char :=
  if cs.head? = some marker then afterWord cs else cs

/-- The target of a message line, when the line has a text. -/
def textTarget (line : String) : Option String :=
  let cs := skipMarked ':' (skipMarked '@' line.toList)
  let command := String.ofList (wordOf cs)
  let rest := afterWord cs
  let target := wordOf rest
  if (eqIgnoreAsciiCase command "PRIVMSG" || eqIgnoreAsciiCase command "NOTICE") && target ≠ [] &&
    (rest.drop target.length).head? = some ' ' then some (String.ofList target)
  else none

/-- The encoding of the text of a line (`none` is the connection's), chosen by its target. -/
def textEncoding {ε : Type*} (line : String) (encoder : String → Option ε) : Option ε :=
  (textTarget line).bind encoder

def isSingleLine (line : String) : Bool :=
  let cs := line.toList
  let body := if ['\r', '\n'].isSuffixOf cs then cs.dropLast.dropLast else cs
  body.all fun c => c ≠ '\r' && c ≠ '\n' && c.toNat ≠ 0

/-- What the codec makes of a line. -/
inductive Outcome (ε : Type*)
  /-- Written, its text in this encoding. -/
  | wrote (encoding : Option ε)
  | skipped
  | refused
  deriving DecidableEq

def Outcome.isWritten {ε : Type*} : Outcome ε → Bool
  | wrote _ => true
  | _ => false

namespace ChannelCharsets

variable {ε : Type*}

def pin (s : ChannelCharsets ε) (line : String) (encoding : Option ε) : ChannelCharsets ε :=
  { s with
    pins := s.pins.insert line ((s.pins.lookup line).getD [] ++ [encoding])
    pinned := s.pinned + 1 }

/-- The pins with those left of a line; a line without pins is forgotten. -/
def leave (pins : Map String (List (Option ε))) (line : String) (left : List (Option ε)) :
    Map String (List (Option ε)) :=
  if left.isEmpty then pins.erase line else pins.insert line left

/-- The oldest pin of a line, or the newest. -/
def take (s : ChannelCharsets ε) (line : String) (newest : Bool) :
    ChannelCharsets ε × Option (Option ε) :=
  match s.pins.lookup line with
  | none => (s, none)
  | some queue =>
    ({ s with
        pins := leave s.pins line (if newest then queue.dropLast else queue.tail)
        pinned := s.pinned - 1 },
      if newest then queue.getLast? else queue.head?)

def unpin (s : ChannelCharsets ε) (line : String) : ChannelCharsets ε := (s.take line true).1

def find (s : ChannelCharsets ε) (channel : String) : Option (Entry ε) :=
  s.entries.find? fun entry => s.mapping.same entry.channel channel

def setCasemapping (s : ChannelCharsets ε) (mapping : CaseMapping) : ChannelCharsets ε :=
  { s with mapping }

def isEmpty (s : ChannelCharsets ε) : Bool := !s.any && s.pinned == 0

section Encoding

variable [DecidableEq ε] (encodings : Encodings ε)

def foreign (encoding : Option ε) : Bool := encoding.any fun e => !decide (e = encodings.utf8)

/-- The encoding of a label that was given. -/
def side (label : Option String) : Except String (Option ε) :=
  match label with
  | none => .ok none
  | some label =>
    match encodings.resolve label with
    | some encoding => .ok (some encoding)
    | none => .error ("Unsupported character encoding: " ++ label)

/-- The configured overrides, as they are: of one channel the last one is kept. -/
def new (configured : List (String × Option String × Option String × Option CharRefMode)) :
    Except String (ChannelCharsets ε) := do
  let kept ← configured.foldlM (fun (kept : List (Entry ε)) configured => do
    let (channel, decode, encode, charRefs) := configured
    if validChannel channel = false then throw ("Invalid channel name: " ++ channel)
    let decode ← side encodings decode
    let encode ← side encodings encode
    let kept := kept.filter fun other => other.channel ≠ channel
    return if decode.isSome || encode.isSome || charRefs.isSome then
      kept ++ [⟨channel, decode, encode, charRefs⟩] else kept) []
  return { entries := kept, any := !kept.isEmpty }

/-- Replaces the overrides of a channel; none at all removes its entry. -/
def set (s : ChannelCharsets ε) (channel : String) (decode encode : Option String)
    (charRefs : Option CharRefMode) : Except String (ChannelCharsets ε) := do
  if validChannel channel = false then throw ("Invalid channel name: " ++ channel)
  let decode ← side encodings decode
  let encode ← side encodings encode
  if s.utf8Only && (foreign encodings decode || foreign encodings encode) then
    throw "The server requires UTF-8 (UTF8ONLY); only UTF-8 can be set for a channel."
  let kept := s.entries.filter fun entry => !s.mapping.same entry.channel channel
  let entries :=
    if decode.isSome || encode.isSome || charRefs.isSome then
      kept ++ [⟨channel, decode, encode, charRefs⟩]
    else kept
  return { s with entries, any := !entries.isEmpty }

/-- The server announced `UTF8ONLY`: whether that switches off an override. -/
def setUtf8Only (s : ChannelCharsets ε) : ChannelCharsets ε × Bool :=
  ({ s with utf8Only := true },
    !s.utf8Only && s.entries.any fun entry =>
      foreign encodings entry.decode || foreign encodings entry.encode)

/-- How many queued lines `UTF8ONLY` keeps from being written. -/
def unsentForUtf8Only (s : ChannelCharsets ε) : ℕ :=
  Map.total (List.countP (foreign encodings)) s.pins + s.skipped

def encoder (s : ChannelCharsets ε) (target : String) : Option ε :=
  ((s.find target).bind Entry.encode).filter fun e => !s.utf8Only || decide (e = encodings.utf8)

/-- The pin of a line the codec is about to write. -/
def takePin (s : ChannelCharsets ε) (line : String) : ChannelCharsets ε × Option (Pin ε) :=
  if s.pinned = 0 then (s, none)
  else
    match s.take line false with
    | (s, none) => (s, none)
    | (s, some encoding) =>
      if s.utf8Only && foreign encodings encoding then
        ({ s with skipped := s.skipped + 1 }, some .skip)
      else (s, some (.encoding encoding))

/-- The codec writes a line. -/
def encode (s : ChannelCharsets ε) (line : String) : ChannelCharsets ε × Outcome ε :=
  match s.takePin encodings line with
  | (s, some .skip) => (s, .skipped)
  | (s, some (.encoding encoding)) =>
    if isSingleLine line then (s, .wrote (textEncoding line fun _ => encoding))
    else ({ s with refused := s.refused + 1 }, .refused)
  | (s, none) =>
    if isSingleLine line then
      (s, .wrote (if s.isEmpty then none else textEncoding line (s.encoder encodings)))
    else ({ s with refused := s.refused + 1 }, .refused)

end Encoding

end ChannelCharsets

end CayenChat.Charset
