import CayenChat.Wire.Text

/-! # IRC messages

Messages as the protocol library hands them over: tags, source and command,
already split into fields. Of its commands only those a modelled function
looks into are told apart; every other one is `other`.
-/

namespace CayenChat

/-- A message tag; a key without `=` has no value. -/
structure Tag where
  key : String
  value : Option String
  deriving DecidableEq, Repr

/-- The source of a message. -/
inductive Prefix
  | serverName (name : String)
  | nickname (nickname user host : String)
  deriving DecidableEq, Repr

/-- The type of a batch; the library spells the custom ones in upper case. -/
inductive BatchSubCommand
  | netsplit
  | netjoin
  | custom (name : String)
  deriving DecidableEq, Repr

def BatchSubCommand.toStr : BatchSubCommand → String
  | netsplit => "NETSPLIT"
  | netjoin => "NETJOIN"
  | custom name => name

inductive CapSubCommand
  | ls | list | req | ack | nak | ending | new | del
  deriving DecidableEq, Repr

def CapSubCommand.toStr : CapSubCommand → String
  | ls => "LS"
  | list => "LIST"
  | req => "REQ"
  | ack => "ACK"
  | nak => "NAK"
  | ending => "END"
  | new => "NEW"
  | del => "DEL"

/-- A numeric reply, by its code. -/
structure Response where
  code : ℕ
  deriving DecidableEq, Repr

namespace Response

@[match_pattern] abbrev rplWelcome : Response := ⟨1⟩
@[match_pattern] abbrev rplIsupport : Response := ⟨5⟩
@[match_pattern] abbrev rplChannelModeIs : Response := ⟨324⟩
@[match_pattern] abbrev errUnknownCommand : Response := ⟨421⟩
@[match_pattern] abbrev errNeedMoreParams : Response := ⟨461⟩
@[match_pattern] abbrev errNickLocked : Response := ⟨902⟩
@[match_pattern] abbrev rplSaslSuccess : Response := ⟨903⟩
@[match_pattern] abbrev errSaslFail : Response := ⟨904⟩
@[match_pattern] abbrev errSaslTooLong : Response := ⟨905⟩
@[match_pattern] abbrev errSaslAbort : Response := ⟨906⟩
@[match_pattern] abbrev errSaslAlready : Response := ⟨907⟩
@[match_pattern] abbrev rplSaslMechs : Response := ⟨908⟩

end Response

/-- A channel mode, by its letter. -/
inductive ChannelMode
  | ban | exception | limit | inviteOnly | inviteException | key | moderated | registeredOnly
  | secret | protectedTopic | noExternalMessages | founder | admin | oper | halfop | voice
  | unknown (letter : Char)
  deriving DecidableEq, Repr

def ChannelMode.letter : ChannelMode → Char
  | ban => 'b'
  | exception => 'e'
  | limit => 'l'
  | inviteOnly => 'i'
  | inviteException => 'I'
  | key => 'k'
  | moderated => 'm'
  | registeredOnly => 'r'
  | secret => 's'
  | protectedTopic => 't'
  | noExternalMessages => 'n'
  | founder => 'q'
  | admin => 'a'
  | oper => 'o'
  | halfop => 'h'
  | voice => 'v'
  | unknown letter => letter

/-- A mode set or cleared, with the argument the library pairs it with; one without a sign asks for
a list. -/
inductive Mode
  | plus (mode : ChannelMode) (arg : Option String)
  | minus (mode : ChannelMode) (arg : Option String)
  | noPrefix (mode : ChannelMode)
  deriving DecidableEq, Repr

/-- The command of a message. -/
inductive IrcCommand
  | pass (password : String)
  | oper (name password : String)
  | join (channel : String) (key realname : Option String)
  | channelMode (channel : String) (modes : List Mode)
  | nickserv (words : List String)
  | chanserv (text : String)
  | batch (reference : String) (kind : Option BatchSubCommand) (params : Option (List String))
  | cap (first : Option String) (subcommand : CapSubCommand) (third fourth : Option String)
  | authenticate (data : String)
  | privmsg (target text : String)
  | notice (target text : String)
  | nick (nickname : String)
  | quit (reason : Option String)
  | part (channel : String) (reason : Option String)
  | kick (channel nickname : String) (reason : Option String)
  | account (name : String)
  | response (response : Response) (args : List String)
  | raw (verb : String) (args : List String)
  | other (verb : String) (args : List String)
  deriving DecidableEq, Repr

/-- An IRC message. -/
structure IrcMessage where
  tags : Option (List Tag) := none
  source : Option Prefix := none
  command : IrcCommand
  deriving DecidableEq, Repr

def IrcMessage.sourceNickname (m : IrcMessage) : Option String :=
  match m.source with
  | some (.nickname nickname _ _) => some nickname
  | _ => none

end CayenChat
