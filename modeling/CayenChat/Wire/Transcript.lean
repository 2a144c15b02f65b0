import CayenChat.Wire.Tags

/-! # Messages as lines of the transcript

How the protocol library writes a message, and how much of its tags the
transcript keeps.
-/

namespace CayenChat

/-- `str::trim_end_matches` with a set of characters. -/
def trimEndMatches (cs : List Char) (s : String) : String :=
  String.ofList (s.toList.reverse.dropWhile cs.contains).reverse

/-- A command and its arguments; the last one may have to be marked. -/
def stringify (cmd : String) (args : List String) : String :=
  match args.getLast? with
  | some suffix =>
    let args := joinWith " " args.dropLast
    let sp := if args = "" then "" else " "
    let co := if suffix = "" ∨ suffix.toList.contains ' ' ∨ startsWithAny [':'] suffix then ":"
      else ""
    cmd ++ sp ++ args ++ " " ++ co ++ suffix
  | none => cmd

def Mode.flag : Mode → String
  | plus mode _ => "+" ++ mode.letter.toString
  | minus mode _ => "-" ++ mode.letter.toString
  | noPrefix mode => mode.letter.toString

def Mode.arg : Mode → Option String
  | plus _ arg | minus _ arg => arg
  | noPrefix _ => none

def Response.digits (r : Response) : String := Tags.padded 3 r.code

namespace IrcCommand

/-- A command as it is written. -/
def toLine : IrcCommand → String
  | pass p => stringify "PASS" [p]
  | oper u p => stringify "OPER" [u, p]
  | join c k n => stringify "JOIN" (c :: (k.toList ++ n.toList))
  | channelMode c ms =>
    (ms.filterMap Mode.arg).foldl (fun line arg => line ++ " " ++ arg)
      (ms.foldl (fun line mode => line ++ mode.flag) ("MODE " ++ c ++ " "))
  | nickserv words => stringify "NICKSERV" words
  | chanserv text => stringify "CHANSERV" [text]
  | batch r kind params =>
    stringify "BATCH" (r :: ((kind.map BatchSubCommand.toStr).toList ++ params.getD []))
  | cap k s c p => stringify "CAP" (k.toList ++ [s.toStr] ++ c.toList ++ p.toList)
  | authenticate d => stringify "AUTHENTICATE" [d]
  | privmsg t m => stringify "PRIVMSG" [t, m]
  | notice t m => stringify "NOTICE" [t, m]
  | nick n => stringify "NICK" [n]
  | quit r => stringify "QUIT" r.toList
  | part c r => stringify "PART" (c :: r.toList)
  | kick c n r => stringify "KICK" (c :: n :: r.toList)
  | account a => stringify "ACCOUNT" [a]
  | response r args => stringify r.digits args
  | raw verb args => stringify verb args
  | other verb args => stringify verb args

end IrcCommand

def Prefix.toLine : Prefix → String
  | serverName name => name
  | nickname name user host =>
    name ++ (if user = "" then "" else "!" ++ user) ++ (if host = "" then "" else "@" ++ host)

/-- A tag value with what cannot stand in one escaped. -/
def Tags.escapeTagValue (value : String) : String :=
  String.ofList <| value.toList.flatMap fun c =>
    match c with
    | ';' => ['\\', ':']
    | ' ' => ['\\', 's']
    | '\\' => ['\\', '\\']
    | '\r' => ['\\', 'r']
    | '\n' => ['\\', 'n']
    | c => [c]

def Tag.toLine (tag : Tag) : String :=
  tag.key ++ match tag.value with
    | some value => "=" ++ Tags.escapeTagValue value
    | none => ""

namespace IrcMessage

/-- What is written before the command. -/
def head (m : IrcMessage) : String :=
  (match m.tags with
    | some tags => "@" ++ joinWith ";" (tags.map Tag.toLine) ++ " "
    | none => "") ++
  match m.source with
    | some source => ":" ++ source.toLine ++ " "
    | none => ""

def toLine (m : IrcMessage) : String := m.head ++ m.command.toLine ++ "\r\n"

end IrcMessage

namespace Tags

def transcriptTagBytes : ℕ := 512

def takeBytes : ℕ → List Char → List Char
  | _, [] => []
  | n, c :: cs => if c.utf8Size ≤ n then c :: takeBytes (n - c.utf8Size) cs else []

/-- A transcript line; a long tag section is shortened unless it is asked for. -/
def transcriptLine (m : IrcMessage) (fullTags : Bool) : String :=
  let line := trimEndMatches ['\r', '\n'] m.toLine
  match m.tags with
  | some (_ :: _) =>
    let tags := line.toList.takeWhile (· != ' ')
    let tagEnd := byteLen (String.ofList tags)
    if fullTags ∨ tagEnd ≤ transcriptTagBytes then line
    else
      let kept := takeBytes transcriptTagBytes line.toList
      String.ofList kept ++ "…[" ++ toString (tagEnd - byteLen (String.ofList kept)) ++
        " tag bytes omitted]" ++ String.ofList (line.toList.drop tags.length)
  | _ => line

end Tags

example : (IrcMessage.toLine { command := .privmsg "#a" "hi there" }) = "PRIVMSG #a :hi there\r\n" := by
  decide

end CayenChat
