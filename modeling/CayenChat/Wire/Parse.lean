import CayenChat.Wire.Transcript

/-! # Commands as they are read

A line without tags and source is split into a command and its arguments, and
the arguments are given their meaning. What is typed names its command, so the
numeric replies of servers are not read here. A command that no modelled
function looks into is kept as the arguments it is written with.
-/

namespace CayenChat

def isBreak (c : Char) : Bool := c == '\r' || c == '\n' || c.toNat == 0

def hasBreak (s : String) : Bool := s.toList.any isBreak

def CapSubCommand.parse (s : String) : Option CapSubCommand :=
  [ls, list, req, ack, nak, ending, new, del].find? fun c => eqIgnoreAsciiCase s c.toStr

def BatchSubCommand.parse (upper : Char → List Char) (s : String) : BatchSubCommand :=
  if eqIgnoreAsciiCase s "NETSPLIT" then netsplit
  else if eqIgnoreAsciiCase s "NETJOIN" then netjoin
  else custom (String.ofList (s.toList.flatMap upper))

/-- The subcommand of `METADATA`, as it is written. -/
def metadataSubCommand (s : String) : Option String :=
  ["GET", "LIST", "SET", "CLEAR"].find? (eqIgnoreAsciiCase s)

namespace ChannelMode

def takesArg : ChannelMode → Bool
  | ban | exception | limit | inviteException | key | founder | admin | oper | halfop | voice =>
    true
  | _ => false

def ofChar : Char → ChannelMode
  | 'b' => ban
  | 'e' => exception
  | 'l' => limit
  | 'i' => inviteOnly
  | 'I' => inviteException
  | 'k' => key
  | 'm' => moderated
  | 'r' => registeredOnly
  | 's' => secret
  | 't' => protectedTopic
  | 'n' => noExternalMessages
  | 'q' => founder
  | 'a' => admin
  | 'o' => oper
  | 'h' => halfop
  | 'v' => voice
  | c => unknown c

end ChannelMode

/-- Whether modes are set, cleared or asked for. -/
inductive PlusMinus
  | plus
  | minus
  | noPrefix
  deriving DecidableEq

def PlusMinus.mode (sign : PlusMinus) (mode : ChannelMode) (arg : Option String) : Mode :=
  match sign with
  | plus => .plus mode arg
  | minus => .minus mode arg
  | noPrefix => .noPrefix mode

/-- The modes of letters; those that take an argument take the next one. -/
def modesOf (ofChar : Char → ChannelMode) (takesArg : ChannelMode → Bool) :
    PlusMinus → List Char → List String → List Mode
  | _, [], _ => []
  | sign, c :: cs, args =>
    if c = '+' then modesOf ofChar takesArg .plus cs args
    else if c = '-' then modesOf ofChar takesArg .minus cs args
    else if takesArg (ofChar c) then
      sign.mode (ofChar c) args.head? :: modesOf ofChar takesArg sign cs args.tail
    else sign.mode (ofChar c) none :: modesOf ofChar takesArg sign cs args

/-- The modes of a `MODE` line: letters, then their arguments. -/
def parseModes (ofChar : Char → ChannelMode) (takesArg : ChannelMode → Bool) :
    List String → List Mode
  | [] => []
  -- Letters without a sign ask for a list.
  | first :: rest => modesOf ofChar takesArg .noPrefix first.toList rest

/-- Commands written with the arguments they were read with, and how many these may be. -/
def plainCommands : List (String × ℕ × ℕ) :=
  [("SERVICE", 6, 6), ("SQUIT", 2, 2), ("TOPIC", 1, 2), ("NAMES", 0, 2), ("LIST", 0, 2),
    ("INVITE", 2, 2), ("MOTD", 0, 1), ("LUSERS", 0, 2), ("VERSION", 0, 1), ("STATS", 0, 2),
    ("TIME", 0, 1), ("CONNECT", 2, 2), ("TRACE", 0, 1), ("ADMIN", 0, 1), ("INFO", 0, 1),
    ("SERVLIST", 0, 2), ("SQUERY", 2, 2), ("WHOIS", 1, 2), ("KILL", 2, 2), ("PING", 1, 2),
    ("PONG", 1, 2), ("ERROR", 1, 1), ("AWAY", 0, 1), ("REHASH", 0, 0), ("DIE", 0, 0),
    ("RESTART", 0, 0), ("SUMMON", 1, 3), ("USERS", 1, 1), ("WALLOPS", 1, 1), ("SAJOIN", 2, 2),
    ("SAMODE", 2, 3), ("SANICK", 2, 2), ("SAPART", 2, 2), ("SAQUIT", 2, 2), ("OPERSERV", 1, 1),
    ("BOTSERV", 1, 1), ("HOSTSERV", 1, 1), ("MEMOSERV", 1, 1), ("MONITOR", 1, 2),
    ("CHGHOST", 2, 2)]

/-- A `CAP` command; the subcommand stands first or behind a target. -/
def capCommand : List String → Option IrcCommand
  | [a] => (CapSubCommand.parse a).map fun s => .cap none s none none
  | [a, b] =>
    match CapSubCommand.parse a with
    | some s => some (.cap none s (some b) none)
    | none => (CapSubCommand.parse b).map fun s => .cap (some a) s none none
  | [a, b, c] =>
    match CapSubCommand.parse a with
    | some s => some (.cap none s (some b) (some c))
    | none => (CapSubCommand.parse b).map fun s => .cap (some a) s (some c) none
  | [a, b, c, d] => (CapSubCommand.parse b).map fun s => .cap (some a) s (some c) (some d)
  | _ => none

/-- A `METADATA` command; its subcommand is written again before the arguments it stands in. -/
def metadataCommand : List String → Option IrcCommand
  | [target, sub] => (metadataSubCommand sub).map fun s => .other "METADATA" [target, s]
  | target :: sub :: rest =>
    match metadataSubCommand sub with
    | some s => some (.other "METADATA" (target :: s :: sub :: rest))
    -- One without a subcommand is written as its target alone.
    | none => if rest.length = 1 then some (.other "METADATA" [target]) else none
  | _ => none

/-- The command of a name in upper case and arguments, unless these do not fit it. -/
def readCommand (upper : Char → List Char) (verb : String) (args : List String) :
    Option IrcCommand :=
  match verb, args with
  | "PASS", [p] => some (.pass p)
  | "NICK", [n] => some (.nick n)
  | "USER", [u, m, _, r] => some (.other "USER" [u, m, "*", r])
  | "OPER", [u, p] => some (.oper u p)
  | "MODE", target :: pieces =>
    some (.channelMode target (if startsWithAny ['#', '&', '+', '!'] target then
      parseModes ChannelMode.ofChar ChannelMode.takesArg pieces
      -- The modes of a user have no arguments.
      else parseModes ChannelMode.unknown (fun _ => false) pieces))
  | "QUIT", [] => some (.quit none)
  | "QUIT", [m] => some (.quit (some m))
  | "JOIN", [c] => some (.join c none none)
  | "JOIN", [c, k] => some (.join c (some k) none)
  | "JOIN", [c, k, n] => some (.join c (some k) (some n))
  | "PART", [c] => some (.part c none)
  | "PART", [c, m] => some (.part c (some m))
  | "KICK", [c, n] => some (.kick c n none)
  | "KICK", [c, n, r] => some (.kick c n (some r))
  | "PRIVMSG", [t, m] => some (.privmsg t m)
  | "NOTICE", [t, m] => some (.notice t m)
  -- A mask alone is not written.
  | "LINKS", [] => some (.other "LINKS" [])
  | "LINKS", [_] => some (.other "LINKS" [])
  | "LINKS", [r, s] => some (.other "LINKS" [r, s])
  | "WHO", [] => some (.other "WHO" [])
  | "WHO", [s] => some (.other "WHO" [s])
  | "WHO", [s, o] => some (.other "WHO" (if o = "o" then [s, "o"] else [s]))
  | "WHOWAS", [n] => some (.other "WHOWAS" [n])
  -- A server without a count is not written.
  | "WHOWAS", [n, _] => some (.other "WHOWAS" [n])
  | "WHOWAS", [n, c, t] => some (.other "WHOWAS" [n, c, t])
  | "USERHOST", users => some (.other "USERHOST" users)
  | "ISON", users => some (.other "USERHOST" users)
  | "NICKSERV", [_] => some (.nickserv [])
  | "CHANSERV", [m] => some (.chanserv m)
  | "CAP", args => capCommand args
  | "AUTHENTICATE", [d] => some (.authenticate d)
  | "ACCOUNT", [a] => some (.account a)
  | "METADATA", args => metadataCommand args
  | "BATCH", [t] => some (.batch t none none)
  | "BATCH", [t, k] => some (.batch t (some (.parse upper k)) none)
  | "BATCH", t :: k :: params => some (.batch t (some (.parse upper k)) (some params))
  | verb, args =>
    if plainCommands.any fun p => p.1 = verb ∧ p.2.1 ≤ args.length ∧ args.length ≤ p.2.2 then
      some (.other verb args)
    else none

def newCommand (upper : Char → List Char) (cmd : String) (args : List String) : IrcCommand :=
  (readCommand upper (toAsciiUppercase cmd) args).getD (.raw cmd args)

/-- The text up to the first ` :`, with the space, and the text behind it. -/
def splitSuffix : List Char → Option (List Char × List Char)
  | [] => none
  | c :: cs =>
    if c = ' ' ∧ cs.head? = some ':' then some ([' '], cs.tail)
    else (splitSuffix cs).map fun split => (c :: split.1, split.2)

/-- `str::splitn` at a character. -/
def splitN (c : Char) : ℕ → List Char → List (List Char)
  | 0, _ => []
  | 1, cs => [cs]
  | n + 2, cs =>
    match cs.dropWhile (· != c) with
    | [] => [cs]
    | _ :: rest => cs.takeWhile (· != c) :: splitN c (n + 1) rest

def withoutLineEnd (cs : List Char) : List Char :=
  if ['\r', '\n'] <:+ cs then cs.dropLast.dropLast
  else if cs.getLast? = some '\r' ∨ cs.getLast? = some '\n' then cs.dropLast
  else cs

/-- A line without its end: what stands before the last argument, and that argument when it is
marked. -/
def splitTrailing (cs : List Char) : List Char × Option (List Char) :=
  match splitSuffix cs with
  | some (before, after) => (before, some (withoutLineEnd after))
  | none => (withoutLineEnd cs, none)

/-- Why a line is not a message. -/
inductive ParseProblem
  | emptyMessage
  | invalidCommand
  deriving DecidableEq

/-- Reads a line that has neither tags nor a source. -/
def parseMessage (upper : Char → List Char) (line : String) : Except ParseProblem IrcMessage :=
  let cs := line.toList
  if cs = [] then .error .emptyMessage
  else
    let (state, suffix) := splitTrailing cs
    let command := state.takeWhile (· != ' ')
    let rest := (state.dropWhile (· != ' ')).tail
    -- A command starts with no colon when it has no arguments.
    if (' ' ∉ state) ∧ state.head? = some ':' then .error .invalidCommand
    else
      let args := (splitN ' ' 14 rest).filter (!·.isEmpty) ++ suffix.toList
      .ok { command := newCommand upper (String.ofList command) (args.map String.ofList) }

end CayenChat
