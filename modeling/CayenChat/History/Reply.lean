import CayenChat.History.Requests
import CayenChat.Wire.Text

/-! # Replies to history requests

How an incoming line is matched to the outstanding request, to a reply being
swallowed, or to a request given up before its reply began.
-/

namespace CayenChat

/-- One `CHATHISTORY TARGETS` line of a reply. -/
def targetLine (m : IrcMessage) : Option HistoryTarget :=
  match m.command with
  | .raw verb (subcommand :: name :: latest :: _) =>
    if !eqIgnoreAsciiCase verb "CHATHISTORY" then none
    else if !eqIgnoreAsciiCase subcommand "TARGETS" || name == "" || decide (64 < byteLen name) then
      none
    else (Tags.parseServerTime latest).map fun latest => ⟨name, latest⟩
  | _ => none

/-- A message line of a reply about a channel or about the conversation with a peer. -/
def historyLine (m : IrcMessage) (channel : String) (mapping : CaseMapping) :
    Option HistoryMessage := do
  let (target, text, notice) ← match m.command with
    | .privmsg target text => some (target, text, false)
    | .notice target text => some (target, text, true)
    | _ => none
  if validChannel channel then
    guard (mapping.same target channel)
  else
    let fromPeer := m.sourceNickname.any (sameNickname · channel)
    guard (fromPeer || sameNickname target channel)
  guard (!isCtcp text || (actionText text).isSome)
  let sender := match m.source with
    | some (.nickname nickname _ _) => nickname
    | some (.serverName name) => name
    | none => "server"
  return {
    sender
    text := if validChannel channel then text else echoText target text
    notice
    serverTime := (Tags.tagValue m "time").bind Tags.parseServerTime
    msgid := Tags.msgid m
    account := Tags.account m }

def Response.debug : Response → String
  | .errUnknownCommand => "ERR_UNKNOWNCOMMAND"
  | .errNeedMoreParams => "ERR_NEEDMOREPARAMS"
  | r => toString r.code

/-- The note of a line that rejects the request for a channel. -/
def failure (m : IrcMessage) (channel : String) : Option String :=
  match m.command with
  | .raw verb args =>
    if eqIgnoreAsciiCase verb "FAIL" && args.head?.any (eqIgnoreAsciiCase · "CHATHISTORY") then
      some ("History for " ++ channel ++ " is unavailable (" ++ args[1]?.getD "" ++ "): " ++
        args.getLast?.getD "")
    else none
  | .response response args =>
    if (response == .errUnknownCommand || response == .errNeedMoreParams) &&
        args[1]?.any (eqIgnoreAsciiCase · "CHATHISTORY") then
      some ("History for " ++ channel ++ " is unavailable: the server rejected CHATHISTORY (" ++
        response.debug ++ ").")
    else none
  | _ => none

def Outstanding.holds (o : Outstanding) (reference : String) : Bool :=
  o.reference == some reference || o.nested.contains reference

def Outstanding.nest (o : Outstanding) (reference : String) : Outstanding :=
  if o.nested.length < maxNested then { o with nested := o.nested ++ [reference] }
  else { o with nestedOverflowed := true }

namespace HistoryRequests

def closedBatch (m : IrcMessage) : Option String :=
  match m.command with
  | .batch reference _ _ => stripFirst '-' reference
  | _ => none

def hangsOffUntracked (h : HistoryRequests) (m : IrcMessage) : Bool :=
  match h.outstanding, m.batchTag with
  | some o, some parent =>
    let reference := (closedBatch m).getD parent
    o.nestedOverflowed && !(o.holds reference || h.discarding.contains reference)
  | _, _ => false

def enqueuePeers (h : HistoryRequests) : List String → HistoryRequests × Option String
  | [] => (h, none)
  | peer :: peers =>
    match h.enqueue peer with
    | (h, none) => h.enqueuePeers peers
    | (h, some full) => (h, some full)

/-- The reply of the outstanding request ended. -/
def finish (h : HistoryRequests) (o : Outstanding) : HistoryRequests × Finished :=
  let h := { h with outstanding := none }
  let note :=
    if 0 < o.dropped then
      some ("History for " ++ o.channel ++ " had " ++ toString o.dropped ++
        " more lines than kept (100).")
    else none
  let peers := directTargets o.targets
  let (h, note) :=
    if o.page.isTargets then
      let (h, full) := h.enqueuePeers peers
      (h, (full.or note).or (some ("History targets: " ++ toString peers.length ++
        " direct-message conversation(s) asked for history.")))
    else (h, note)
  let incomplete := o.page == .resume && !o.ended && decide (o.limit ≤ o.kept + o.dropped)
  (h, { channel := o.channel, page := o.page, lines := o.kept, targets := o.targets.length,
        ended := o.ended, incomplete, note })

/-- A batch is closed. -/
def observeClose (h : HistoryRequests) (reference : String) : HistoryRequests × Observed :=
  if h.discarding.contains reference then
    ({ h with discarding := h.discarding.erase reference }, .consumed)
  else
    match h.outstanding with
    | none => (h, .unrelated)
    | some o =>
      if o.nested.contains reference then
        ({ h with outstanding := some { o with nested := o.nested.erase reference } }, .consumed)
      else if o.reference == some reference then
        let (h, finished) := h.finish o
        (h, .finished finished)
      else (h, .unrelated)

/-- A batch is opened that may be the reply to a request about the target. -/
def observeReply (h : HistoryRequests) (reference target : String) (ended : Bool) :
    HistoryRequests × Observed :=
  match h.outstanding.filter fun o => o.reference.isNone && h.names o.channel target with
  | some o =>
    ({ h with outstanding := some { o with reference := some reference, ended } }, .consumed)
  | none =>
    if h.abandoned.any (h.names · target) then
      ({ h with
          abandoned := h.abandoned.eraseP (h.names · target)
          discarding := h.discarding ++ [reference] }, .consumed)
    else (h, .unrelated)

/-- A batch is opened outside of every reply. -/
def observeRoot (h : HistoryRequests) (reference : String) (kind : Option String)
    (params : Option (List String)) (ended : Bool) : HistoryRequests × Observed :=
  if kind = some targetsBatch then
    match h.outstanding.filter fun o => o.reference.isNone && o.page.isTargets with
    | some o => ({ h with outstanding := some { o with reference := some reference } }, .consumed)
    | none => (h, .unrelated)
  else if kind = some "CHATHISTORY" then
    match params.bind List.head? with
    | none => (h, .unrelated)
    | some target => h.observeReply reference target ended
  else (h, .unrelated)

/-- A batch opened inside a reply belongs to it. -/
def observeNested (h : HistoryRequests) (reference : String) (parent : Option String) :
    Option HistoryRequests :=
  parent.bind fun parent =>
    if h.discarding.contains parent then
      some (if h.discarding.length < maxNested + 1 then
        { h with discarding := h.discarding ++ [reference] } else h)
    else
      (h.outstanding.filter (·.holds parent)).map fun o =>
        { h with outstanding := some (o.nest reference) }

def observeBatch (h : HistoryRequests) (reference : String) (kind : Option String)
    (params : Option (List String)) (parent : Option String) (ended : Bool) :
    HistoryRequests × Observed :=
  match stripFirst '-' reference with
  | some reference => h.observeClose reference
  | none =>
    match stripFirst '+' reference with
    | none => (h, .unrelated)
    | some reference =>
      if !Tags.followedBatch reference then (h, .unrelated)
      else
        match h.observeNested reference parent with
        | some h => (h, .consumed)
        | none => h.observeRoot reference kind params ended

/-- A line of the reply being answered. -/
def observeInReply (h : HistoryRequests) (o : Outstanding) (m : IrcMessage) :
    HistoryRequests × Observed :=
  if o.page.isTargets then
    match targetLine m with
    | some target =>
      (if o.targets.length < maxTargetEntries then
        { h with outstanding := some { o with targets := o.targets ++ [target] } } else h,
        .consumed)
    | none => (h, .consumed)
  else
    match historyLine m o.channel h.casemapping with
    | some line =>
      if o.kept < maxHistoryLines then
        ({ h with outstanding := some { o with kept := o.kept + 1 } },
          .message ⟨o.channel, o.page, line⟩)
      else ({ h with outstanding := some { o with dropped := o.dropped + 1 } }, .consumed)
    | none => (h, .consumed)

/-- A line outside of the batches of a reply rejects the request, or is unrelated. -/
def observeOutside (h : HistoryRequests) (o : Outstanding) (m : IrcMessage) :
    HistoryRequests × Observed :=
  match if o.reference.isNone then failure m o.channel else none with
  | some note =>
    let note :=
      if o.page.isTargets then replaceFirst "History for *" "History targets" note else note
    let finished := Finished.failure o.channel o.page (some note)
    ({ h with outstanding := none }.fallBack finished, .finished finished)
  | none => (h, .unrelated)

/-- What becomes of an incoming line. -/
def observe (h : HistoryRequests) (m : IrcMessage) : HistoryRequests × Observed :=
  if h.hangsOffUntracked m then (h, .consumed)
  else
    match m.command with
    | .batch reference kind params =>
      h.observeBatch reference (kind.map BatchSubCommand.toStr) params m.batchTag
        (Tags.hasTag m endTag)
    | _ =>
      if m.batchTag.any h.discarding.contains then (h, .consumed)
      else
        match h.outstanding with
        | none => (h, .unrelated)
        | some o =>
          if m.batchTag.any o.holds then h.observeInReply o m else h.observeOutside o m

end HistoryRequests

end CayenChat
