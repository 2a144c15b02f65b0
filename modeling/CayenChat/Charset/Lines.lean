import CayenChat.Charset.Overrides
import CayenChat.Wire.Transcript

/-! # The bytes of a line

A line is written in the connection's encoding, except that the text of a
message has its own. Half-width katakana are kept in ISO-2022-JP by a run of
their own. The encoders themselves are the library's.
-/

namespace CayenChat.Charset

/-- The encoders of a library: the bytes of a text, and whether a character could not be
represented. -/
structure Encoders (ε : Type*) extends Encodings ε where
  iso2022jp : ε
  encode : ε → List Char → List UInt8 × Bool

/-- What the library documents: `:` is one byte that changes no state, and every encoder but the
one of ISO-2022-JP is without state. -/
structure Encoders.Documented {ε : Type*} (c : Encoders ε) : Prop where
  empty : ∀ e, (c.encode e []).1 = []
  colon : ∀ e cs, (c.encode e (':' :: cs)).1 = 0x3A :: (c.encode e cs).1
  stateless : ∀ e, e ≠ c.iso2022jp → ∀ as bs,
    (c.encode e (as ++ bs)).1 = (c.encode e as).1 ++ (c.encode e bs).1

def isKana (c : Char) : Bool := 0xFF61 ≤ c.toNat && c.toNat ≤ 0xFF9F

/-- The runs of a text, each all katakana or none. -/
def kanaRuns : List Char → List (List Char)
  | [] => []
  | ch :: cs =>
    match kanaRuns cs with
    | [] => [[ch]]
    | run :: runs =>
      if run.head?.any isKana = isKana ch then (ch :: run) :: runs else [ch] :: run :: runs

def openKana : List UInt8 := [0x1B, 0x28, 0x49]

def closeKana : List UInt8 := [0x1B, 0x28, 0x42]

/-- A target and a text of a message line, and what stands before the text. -/
structure TextSpan where
  target : List Char
  head : List Char
  text : List Char

/-- Finds the target and the text of a message line. -/
def textSpan (line : List Char) : Option TextSpan :=
  let cs := skipMarked ':' (skipMarked '@' line)
  let command := String.ofList (wordOf cs)
  let rest := afterWord cs
  let target := wordOf rest
  let text := afterWord rest
  if (eqIgnoreAsciiCase command "PRIVMSG" || eqIgnoreAsciiCase command "NOTICE") && target ≠ [] &&
    (rest.drop target.length).head? = some ' ' then
    some ⟨target, line.take (line.length - text.length), text⟩
  else none

section Lines

variable {ε : Type*} [DecidableEq ε] (c : Encoders ε)

def encodeRun (e : ε) (run : List Char) : List UInt8 × Bool :=
  if run.head?.any isKana then
    (openKana ++ run.map (fun ch => UInt8.ofNat (ch.toNat - 0xFF61 + 0x21)) ++ closeKana, false)
  else c.encode e run

def joinRun (bytes chunk : List UInt8) : List UInt8 :=
  (if chunk.head? = some 0x1B ∧ closeKana <:+ bytes then bytes.take (bytes.length - 3) else bytes) ++
    chunk

/-- Encodes a text. -/
def encodeText (text : List Char) (e : ε) : List UInt8 × Bool :=
  if e = c.iso2022jp ∧ text.any isKana then
    (kanaRuns text).foldl
      (fun sofar run =>
        let (chunk, runLost) := encodeRun c e run
        (joinRun sofar.1 chunk, sofar.2 || runLost))
      ([], false)
  else c.encode e text

/-- Encodes a line without its end; `own` chooses the encoding of the text by the target. -/
def encodeBody (line : List Char) (connection : ε) (own : Option (List Char → Option ε)) :
    List UInt8 × Option ε :=
  let whole :=
    let (bytes, lost) := c.encode connection line
    (bytes, if lost then some connection else none)
  if connection = c.iso2022jp ∨ own.isSome then
    match textSpan line with
    | none => whole
    | some span =>
      let encoder := own.bind fun own => own span.target
      if encoder.isSome ∨ connection = c.iso2022jp then
        let textEncoding := encoder.getD connection
        let (head, headLost) := c.encode connection span.head
        let (text, textLost) := encodeText c span.text textEncoding
        (head ++ text, if headLost then some connection else if textLost then some textEncoding
          else none)
      else whole
  else whole

def lineEnd : List UInt8 := [0x0D, 0x0A]

/-- Encodes a line to send. -/
def encodeLine (line : String) (connection : ε) (own : Option (List Char → Option ε)) :
    List UInt8 × Option ε :=
  let cs := line.toList
  if ['\r', '\n'] <:+ cs then
    let (bytes, failed) := encodeBody c cs.dropLast.dropLast connection own
    (bytes ++ lineEnd, failed)
  else encodeBody c cs connection own

end Lines

end CayenChat.Charset
