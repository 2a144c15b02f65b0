import CayenChat.Lib.Machine
import CayenChat.Lib.Map
import CayenChat.Wire.Message
import CayenChat.Wire.Names

/-! # The modes of joined channels

The mode letters set on each joined channel, for display, and the queries that
ask for them. The channels are keyed by their names as the server folds them,
and folded again when its case mapping changes.
-/

namespace CayenChat.Modes

def MAX_FLAGS : ℕ := 64
def MAX_TRACKED : ℕ := 512
def MAX_IN_FLIGHT : ℕ := 4
def QUERY_TIMEOUT : ℕ := 10000
def DEFAULT_LIST_MODES : String := "beI"
def DEFAULT_PREFIX_MODES : String := "ov"

abbrev Entry := String × Option (List Char)

structure ChannelModes where
  listModes : String := DEFAULT_LIST_MODES
  prefixModes : String := DEFAULT_PREFIX_MODES
  notFlags : List Char := DEFAULT_LIST_MODES.toList ++ DEFAULT_PREFIX_MODES.toList
  channels : Map String Entry := ∅
  pending : List String := []
  inFlight : List (String × ℕ) := []
  warned : Bool := false

namespace ChannelModes

/-- The letters between the parentheses of a `PREFIX`. -/
def prefixLetters (value : String) : String :=
  (((stripFirst '(' value).bind (splitOnce ')')).map Prod.fst).getD ""

/-- A token of the server's features; it tells whether the list or the membership modes are
announced. -/
def isupportToken (modes : ChannelModes × Bool) (token : String) : ChannelModes × Bool :=
  if eqIgnoreAsciiCase token "-CHANMODES" then
    ({ modes.1 with listModes := DEFAULT_LIST_MODES }, true)
  else if eqIgnoreAsciiCase token "-PREFIX" then
    ({ modes.1 with prefixModes := DEFAULT_PREFIX_MODES }, true)
  else
    match splitOnce '=' token with
    | some (name, value) =>
      if eqIgnoreAsciiCase name "CHANMODES" then
        ({ modes.1 with listModes := (splitChar ',' value).head?.getD "" }, true)
      else if eqIgnoreAsciiCase name "PREFIX" then
        ({ modes.1 with prefixModes := prefixLetters value }, true)
      else modes
    | none => modes

def isupport (modes : ChannelModes) (message : IrcMessage) : ChannelModes :=
  match message.command with
  | .response .rplIsupport args =>
    let tokens := (args.drop 1).flatMap splitWhitespace
    let (modes, changed) := tokens.foldl isupportToken (modes, false)
    if changed then
      { modes with notFlags := modes.listModes.toList ++ modes.prefixModes.toList }
    else modes
  | _ => modes

def set (modes : ChannelModes) (flags : List Char) (plus : Bool) (letter : Char) : List Char :=
  if !letter.isAlpha || modes.notFlags.contains letter then flags
  else if plus then
    if !flags.contains letter && decide (flags.length < MAX_FLAGS) then flags ++ [letter] else flags
  else flags.filter (· != letter)

/-- The letters of a reply applied to flags, cleared behind a minus. -/
def apply (modes : ChannelModes) (flags : List Char) : Bool → List Char → List Char
  | _, [] => flags
  | plus, letter :: letters =>
    if letter = '+' then modes.apply flags true letters
    else if letter = '-' then modes.apply flags false letters
    else modes.apply (modes.set flags plus letter) plus letters

/-- The changes of a `MODE` applied to flags; a letter without a sign asks for a list. -/
def applyModes (modes : ChannelModes) (flags : List Char) (changes : List Mode) : List Char :=
  changes.foldl (fun flags change =>
    match change with
    | .plus mode _ => modes.set flags true mode.letter
    | .minus mode _ => modes.set flags false mode.letter
    | .noPrefix _ => flags) flags

/-- A reply about a channel with its mode letters. -/
def observeReply (modes : ChannelModes) (args : List String) (mapping : CaseMapping) :
    ChannelModes × Option (String × String) :=
  match args[1]?.filter validChannel with
  | none => (modes, none)
  | some channel =>
    let key := mapping.fold channel
    let modes := { modes with
      inFlight := modes.inFlight.filter fun query => mapping.fold query.1 != key }
    match modes.channels.lookup key with
    | none => (modes, none)
    | some (name, _) =>
      let flags := modes.apply [] true (args[2]?.getD "").toList
      ({ modes with channels := modes.channels.insert key (name, some flags) },
        some (channel, String.ofList flags))

/-- A `MODE` of a channel; before its reply there is nothing to change. -/
def observeMode (modes : ChannelModes) (channel : String) (changes : List Mode)
    (mapping : CaseMapping) : ChannelModes × Option (String × String) :=
  let key := mapping.fold channel
  match modes.channels.lookup key with
  | some (name, some flags) =>
    let updated := modes.applyModes flags changes
    ({ modes with channels := modes.channels.insert key (name, some updated) },
      some (channel, String.ofList updated))
  | _ => (modes, none)

/-- What a message changes, with the channel and its flags afterwards. -/
def observe (modes : ChannelModes) (message : IrcMessage) (mapping : CaseMapping)
    (replayed : Bool) : ChannelModes × Option (String × String) :=
  if replayed then (modes, none)
  else
    match message.command with
    | .response .rplChannelModeIs args => modes.observeReply args mapping
    | .channelMode channel changes => modes.observeMode channel changes mapping
    | _ => (modes, none)

/-- Our join, with a note the first time the limit is hit. -/
def joined (modes : ChannelModes) (channel : String) (mapping : CaseMapping) :
    ChannelModes × Option String :=
  let key := mapping.fold channel
  if (modes.channels.lookup key).isNone && decide (MAX_TRACKED ≤ modes.channels.entries.length) then
    ({ modes with warned := true },
      if modes.warned then none
      else some "Channel modes are not tracked beyond 512 channels.")
  else
    ({ modes with
        pending := modes.pending.filter (fun queued => mapping.fold queued != key) ++ [channel]
        channels := modes.channels.insert key (channel, none) }, none)

def flags (modes : ChannelModes) (channel : String) (mapping : CaseMapping) : Option String :=
  (modes.channels.lookup (mapping.fold channel)).bind fun entry => entry.2.map String.ofList

def left (modes : ChannelModes) (channel : String) (mapping : CaseMapping) : ChannelModes :=
  let key := mapping.fold channel
  { modes with
    channels := modes.channels.erase key
    pending := modes.pending.filter fun queued => mapping.fold queued != key
    inFlight := modes.inFlight.filter fun query => mapping.fold query.1 != key }

/-- The channels to ask for now, as many as places are free. -/
def takeQueries (modes : ChannelModes) (now : ℕ) : ChannelModes × List String :=
  let inFlight := modes.inFlight.filter fun query => now < query.2
  let count := min (MAX_IN_FLIGHT - inFlight.length) modes.pending.length
  let queries := modes.pending.take count
  ({ modes with
      pending := modes.pending.drop count
      inFlight := inFlight ++ queries.map fun name => (name, now + QUERY_TIMEOUT) }, queries)

def nextDeadline (modes : ChannelModes) : Option ℕ :=
  if modes.pending.isEmpty then none else (modes.inFlight.map Prod.snd).min?

/-- An entry put under its key; one that has the key already keeps its name, its modes unknown. -/
def refoldEntry (mapping : CaseMapping) (channels : Map String Entry) (entry : Entry) :
    Map String Entry :=
  match channels.lookup (mapping.fold entry.1) with
  | some taken => channels.insert (mapping.fold entry.1) (taken.1, none)
  | none => channels.insert (mapping.fold entry.1) entry

def refold (mapping : CaseMapping) (entries : List Entry) : Map String Entry :=
  entries.foldl (refoldEntry mapping) ∅

/-- The names folded by another mapping, the table walked in the order given. -/
def setCasemapping (modes : ChannelModes) (mapping : CaseMapping) (order : List Entry) :
    ChannelModes :=
  let channels := refold mapping order
  let tracked := fun name => (channels.lookup (mapping.fold name)).any fun own => own.1 == name
  { modes with
    channels := channels
    pending := modes.pending.filter tracked
    inFlight := modes.inFlight.filter fun query => tracked query.1 }

end ChannelModes

/-! ## The connection's calls -/

/-- The modes with the case mapping of the connection, which every call is made with. -/
structure Tracker where
  modes : ChannelModes := {}
  mapping : CaseMapping := default

/-- A call of the connection. A change of the case mapping comes with the order in which the table
is walked. -/
inductive ModesCall where
  | joined (channel : String)
  | left (channel : String)
  | isupport (message : IrcMessage)
  | observe (message : IrcMessage) (replayed : Bool)
  | takeQueries (now : ℕ)
  | setCasemapping (mapping : CaseMapping) (order : List Entry)

namespace Tracker

def call (t : Tracker) : ModesCall → Tracker
  | .joined channel => { t with modes := (t.modes.joined channel t.mapping).1 }
  | .left channel => { t with modes := t.modes.left channel t.mapping }
  | .isupport message => { t with modes := t.modes.isupport message }
  | .observe message replayed => { t with modes := (t.modes.observe message t.mapping replayed).1 }
  | .takeQueries now => { t with modes := (t.modes.takeQueries now).1 }
  | .setCasemapping mapping order => { modes := t.modes.setCasemapping mapping order, mapping }

def Walks (t : Tracker) : ModesCall → Prop
  | .setCasemapping _ order => order.Perm (Map.values t.modes.channels)
  | _ => True

end Tracker

end CayenChat.Modes
