import CayenChat.Sasl.Handshake
import CayenChat.Wire.Names
import CayenChat.Wire.Text
import CayenChat.Wire.Transcript

/-! # Secrets in the transcript

The lines of the transcript with passwords, keys and credentials masked.
-/

namespace CayenChat

def redactedKey : String := "[redacted]"

def Mode.setsKey : Mode → Bool
  | plus .key _ | minus .key _ => true
  | _ => false

def Mode.hideArg : Mode → Mode
  | plus mode (some _) => plus mode (some redactedKey)
  | minus mode (some _) => minus mode (some redactedKey)
  | mode => mode

def redactKeyModes (modes : List Mode) : List Mode :=
  if !modes.any Mode.setsKey then modes else modes.map Mode.hideArg

/-- Mode arguments as separate words; all are hidden when the mode string sets or clears a key. -/
def redactModeWords : List String → Option (List String)
  | [] => none
  | modes :: args =>
    if startsWithAny ['+', '-'] modes ∧ modes.toList.contains 'k' ∧ args ≠ [] then
      some (modes :: args.map fun _ => redactedKey)
    else none

/-- The command with a channel key in a `MODE` or `324` hidden, if it is one. -/
def hideChannelKey : IrcCommand → Option IrcCommand
  | .channelMode channel modes => some (.channelMode channel (redactKeyModes modes))
  | .raw verb (target :: words) =>
    if eqIgnoreAsciiCase verb "MODE" ∧ validChannel target then
      (redactModeWords words).map fun words => .raw verb (target :: words)
    else none
  | .response .rplChannelModeIs (nick :: channel :: word :: words) =>
    (redactModeWords (word :: words)).map fun words =>
      .response .rplChannelModeIs (nick :: channel :: words)
  | _ => none

def withoutChannelKey (m : IrcMessage) : Option IrcMessage :=
  (hideChannelKey m.command).map fun command => { m with command := command }

def saslMechanisms : List SaslMechanism :=
  [.plain, .scramSha1, .scramSha256, .scramSha512, .ecdsaNist256pChallenge]

/-- An `AUTHENTICATE` argument that carries no payload. -/
def isAuthenticateMarker (data : String) : Bool :=
  data == "+" || data == "*" ||
    saslMechanisms.any fun mechanism => eqIgnoreAsciiCase data mechanism.name

/-- The transcript form of a message with secrets masked. -/
def redactedWireLine (m : IrcMessage) (fullTags : Bool) : String :=
  match withoutChannelKey m with
  | some redacted => Tags.transcriptLine redacted fullTags
  | none =>
    match m.command with
    | .pass _ => "PASS [redacted]"
    | .authenticate data =>
      if isAuthenticateMarker data then Tags.transcriptLine m fullTags
      else "AUTHENTICATE [redacted]"
    | .oper name _ => "OPER " ++ name ++ " [redacted]"
    | .join channel (some _) _ => "JOIN " ++ channel ++ " [redacted]"
    | .nickserv _ => "NICKSERV [redacted]"
    | .chanserv _ => "CHANSERV [redacted]"
    | .privmsg target body =>
      if isServiceSecret target body then "PRIVMSG " ++ target ++ " :[redacted]"
      else Tags.transcriptLine m fullTags
    | .notice target body =>
      if isServiceSecret target body then "NOTICE " ++ target ++ " :[redacted]"
      else Tags.transcriptLine m fullTags
    | .raw verb args =>
      if eqIgnoreAsciiCase verb "PASS" then "PASS [redacted]"
      else if eqIgnoreAsciiCase verb "AUTHENTICATE" then
        if args.head?.any isAuthenticateMarker then trimEndMatches ['\r', '\n'] m.toLine
        else "AUTHENTICATE [redacted]"
      else if eqIgnoreAsciiCase verb "OPER" then "OPER " ++ args.headD "" ++ " [redacted]"
      else if eqIgnoreAsciiCase verb "AUTH" then "AUTH [redacted]"
      else if ["NS", "NICKSERV", "CS", "CHANSERV", "AUTHSERV"].contains (toAsciiUppercase verb) &&
          (args.head?.bind fun arg => (splitWhitespace arg).head?).any isSecretServiceCommand then
        verb ++ " [redacted]"
      else Tags.transcriptLine m fullTags
    | _ => Tags.transcriptLine m fullTags

end CayenChat

/-! ## What the transcript keeps secret

Two messages that differ only in a secret give the same line of the transcript
and are shown alike, exactly when the message is written in one of the ways the
masking knows.
-/

namespace CayenChat

/-- Whether a message is pinned as typed because it gives a service a password; the target may list
several recipients. -/
def pinnedAsTyped (target text : String) : Bool :=
  (splitChar ',' target).any fun one => isServiceSecret one text

def isChannelName (name : String) : Bool := startsWithAny ['#', '&', '+', '!'] name

def Mode.isKey : Mode → Bool
  | plus .key _ | minus .key _ | noPrefix .key => true
  | _ => false

def SamePayload (a b : String) : Prop :=
  a = b ∨ isAuthenticateMarker a = false ∧ isAuthenticateMarker b = false

/-- Two commands that differ only in a secret. -/
inductive DiffersInSecret : IrcCommand → IrcCommand → Prop
  | pass (p p' : String) : DiffersInSecret (.pass p) (.pass p')
  | rawPass {verb : String} (hv : eqIgnoreAsciiCase verb "PASS" = true) (args args' : List String) :
      DiffersInSecret (.raw verb args) (.raw verb args')
  | authenticate {d d' : String} (hd : isAuthenticateMarker d = false)
      (hd' : isAuthenticateMarker d' = false) :
      DiffersInSecret (.authenticate d) (.authenticate d')
  | rawAuthenticate {verb : String} (hv : eqIgnoreAsciiCase verb "AUTHENTICATE" = true)
      {args args' : List String} (hs : List.Forall₂ SamePayload args args') :
      DiffersInSecret (.raw verb args) (.raw verb args')
  | oper (name p p' : String) : DiffersInSecret (.oper name p) (.oper name p')
  | rawOper {verb : String} (hv : eqIgnoreAsciiCase verb "OPER" = true) (name : String)
      (args args' : List String) :
      DiffersInSecret (.raw verb (name :: args)) (.raw verb (name :: args'))
  | join (channel key key' : String) (realname : Option String) :
      DiffersInSecret (.join channel (some key) realname) (.join channel (some key') realname)
  | rawJoin {verb : String} (hv : eqIgnoreAsciiCase verb "JOIN" = true)
      (channel key key' : String) (args : List String) :
      DiffersInSecret (.raw verb (channel :: key :: args)) (.raw verb (channel :: key' :: args))
  | channelMode (channel : String) {modes modes' : List Mode} (hk : modes.any Mode.isKey = true)
      (hs : modes.map Mode.hideArg = modes'.map Mode.hideArg) :
      DiffersInSecret (.channelMode channel modes) (.channelMode channel modes')
  | rawMode {verb channel modes : String} (hv : eqIgnoreAsciiCase verb "MODE" = true)
      (hc : isChannelName channel = true) (hk : modes.toList.contains 'k' = true)
      {args args' : List String} (hl : args.length = args'.length) :
      DiffersInSecret (.raw verb (channel :: modes :: args)) (.raw verb (channel :: modes :: args'))
  | modeIs (nick channel : String) {modes : String} (hk : modes.toList.contains 'k' = true)
      {args args' : List String} (hl : args.length = args'.length) :
      DiffersInSecret (.response .rplChannelModeIs (nick :: channel :: modes :: args))
        (.response .rplChannelModeIs (nick :: channel :: modes :: args'))
  | privmsg {target body body' : String} (hb : pinnedAsTyped target body = true)
      (hb' : pinnedAsTyped target body' = true) :
      DiffersInSecret (.privmsg target body) (.privmsg target body')
  | notice {target body body' : String} (hb : pinnedAsTyped target body = true)
      (hb' : pinnedAsTyped target body' = true) :
      DiffersInSecret (.notice target body) (.notice target body')
  | rawMessage {verb target body body' : String}
      (hv : eqIgnoreAsciiCase verb "PRIVMSG" = true ∨ eqIgnoreAsciiCase verb "NOTICE" = true)
      (hb : pinnedAsTyped target body = true) (hb' : pinnedAsTyped target body' = true)
      (args : List String) :
      DiffersInSecret (.raw verb (target :: body :: args)) (.raw verb (target :: body' :: args))

def shownText : IrcCommand → Option String
  | .privmsg target text | .notice target text => some (echoText target text)
  | _ => none

/-- Messages that differ only in a secret from this one leave the same line and are shown alike. -/
def KeepsSecret (m : IrcMessage) : Prop :=
  ∀ command, DiffersInSecret m.command command →
    (∀ fullTags, redactedWireLine { m with command := command } fullTags =
      redactedWireLine m fullTags) ∧
    shownText command = shownText m.command

/-- The ways of writing a secret that the masking knows. -/
def Masked : IrcCommand → Prop
  | .privmsg target body | .notice target body =>
    pinnedAsTyped target body = true → isCredentialService target = true
  | .channelMode _ modes =>
    modes.any Mode.isKey = true → modes.any Mode.setsKey = true ∨ ∀ mode ∈ modes, mode.arg = none
  | .response .rplChannelModeIs (_ :: _ :: modes :: _ :: _) =>
    modes.toList.contains 'k' = true → startsWithAny ['+', '-'] modes = true
  | .raw verb args =>
    (eqIgnoreAsciiCase verb "AUTHENTICATE" = true → args.head?.any isAuthenticateMarker = true →
      ∀ arg ∈ args, isAuthenticateMarker arg = true) ∧
    (eqIgnoreAsciiCase verb "JOIN" = true → args.length < 2) ∧
    (eqIgnoreAsciiCase verb "MODE" = true → ∀ channel modes arg rest,
      args = channel :: modes :: arg :: rest → isChannelName channel = true →
      modes.toList.contains 'k' = true →
      validChannel channel = true ∧ startsWithAny ['+', '-'] modes = true) ∧
    ((eqIgnoreAsciiCase verb "PRIVMSG" = true ∨ eqIgnoreAsciiCase verb "NOTICE" = true) →
      ∀ target body rest, args = target :: body :: rest → pinnedAsTyped target body = false)
  | _ => True

/-! ## What is masked stays masked -/

variable {m : IrcMessage} {command : IrcCommand} {target body verb : String}
  {modes modes' : List Mode} {args : List String}

theorem redactModeWords_congr {word : String} {args args' : List String}
    (hs : startsWithAny ['+', '-'] word = true) (hk : word.toList.contains 'k' = true)
    (hl : args.length = args'.length) (hn : args ≠ []) :
    redactModeWords (word :: args) = some (word :: args.map fun _ => redactedKey) ∧
      redactModeWords (word :: args') = some (word :: args.map fun _ => redactedKey) := by
  have hn' : args' ≠ [] := by
    rintro rfl
    exact hn (List.length_eq_zero_iff.mp hl)
  have he : (args'.map fun _ => redactedKey) = args.map fun _ => redactedKey := by
    rw [List.map_const', List.map_const', hl]
  rw [redactModeWords, if_pos ⟨hs, hk, hn⟩, redactModeWords, if_pos ⟨hs, hk, hn'⟩, he]
  exact ⟨rfl, rfl⟩

theorem setsKey_hideArg (mode : Mode) : mode.hideArg.setsKey = mode.setsKey := by
  cases mode with
  | plus mode arg => cases arg <;> cases mode <;> rfl
  | minus mode arg => cases arg <;> cases mode <;> rfl
  | noPrefix mode => rfl

theorem any_setsKey_hideArg :
    (modes.map Mode.hideArg).any Mode.setsKey = modes.any Mode.setsKey := by
  rw [List.any_map]
  exact congrArg modes.any (funext setsKey_hideArg)

theorem hideArg_of_none {mode : Mode} (h : mode.arg = none) : mode.hideArg = mode := by
  cases mode with
  | plus mode arg => cases arg with
    | none => rfl
    | some => cases h
  | minus mode arg => cases arg with
    | none => rfl
    | some => cases h
  | noPrefix mode => rfl

theorem arg_of_hideArg {mode : Mode} (h : mode.hideArg.arg = none) : mode.arg = none := by
  cases mode with
  | plus mode arg => cases arg with
    | none => rfl
    | some => cases h
  | minus mode arg => cases arg with
    | none => rfl
    | some => cases h
  | noPrefix mode => rfl

theorem eq_of_no_args (hs : modes.map Mode.hideArg = modes'.map Mode.hideArg)
    (hn : ∀ mode ∈ modes, mode.arg = none) : modes' = modes := by
  have h (l : List Mode) (hl : ∀ mode ∈ l, mode.arg = none) : l.map Mode.hideArg = l :=
    (List.map_congr_left fun mode hm => hideArg_of_none (hl mode hm)).trans (List.map_id l)
  have hn' : ∀ mode ∈ modes', mode.arg = none := fun mode hm => by
    refine arg_of_hideArg ?_
    have hm : mode.hideArg ∈ modes.map Mode.hideArg := hs ▸ List.mem_map_of_mem hm
    rw [h modes hn] at hm
    exact hn _ hm
  rw [← h modes hn, hs, h modes' hn']

theorem pinnedAsTyped_iff : pinnedAsTyped target body = true ↔
    (splitChar ',' target).any isCredentialService = true ∧
      (splitWhitespace body).head?.any isSecretServiceCommand = true := by
  simp only [pinnedAsTyped, isServiceSecret, List.any_eq_true, Bool.and_eq_true]
  constructor
  · rintro ⟨one, hm, hc, hb⟩
    exact ⟨⟨one, hm, hc⟩, hb⟩
  · rintro ⟨⟨one, hm, hc⟩, hb⟩
    exact ⟨one, hm, hc, hb⟩

theorem serviceSecret_of_pinned (hp : pinnedAsTyped target body = true)
    (hc : isCredentialService target = true) : isServiceSecret target body = true := by
  rw [isServiceSecret, hc, (pinnedAsTyped_iff.mp hp).2]
  rfl

theorem rawLine (hk : hideChannelKey m.command = none) (hm : m.command = .raw verb args)
    (full : Bool) : redactedWireLine m full =
      if eqIgnoreAsciiCase verb "PASS" then "PASS [redacted]"
      else if eqIgnoreAsciiCase verb "AUTHENTICATE" then
        if args.head?.any isAuthenticateMarker then trimEndMatches ['\r', '\n'] m.toLine
        else "AUTHENTICATE [redacted]"
      else if eqIgnoreAsciiCase verb "OPER" then "OPER " ++ args.headD "" ++ " [redacted]"
      else if eqIgnoreAsciiCase verb "AUTH" then "AUTH [redacted]"
      else if ["NS", "NICKSERV", "CS", "CHANSERV", "AUTHSERV"].contains (toAsciiUppercase verb) &&
          (args.head?.bind fun arg => (splitWhitespace arg).head?).any isSecretServiceCommand then
        verb ++ " [redacted]"
      else Tags.transcriptLine m full := by
  rw [redactedWireLine, withoutChannelKey, hk, hm]
  rfl

theorem verb_ne {v w : String} (hv : eqIgnoreAsciiCase verb v = true)
    (hw : eqIgnoreAsciiCase v w = false) : eqIgnoreAsciiCase verb w = false := by
  rw [eqIgnoreAsciiCase, beq_iff_eq] at hv
  rw [eqIgnoreAsciiCase] at hw ⊢
  rwa [hv]

theorem hideChannelKey_raw (hv : eqIgnoreAsciiCase verb "MODE" = false) (args : List String) :
    hideChannelKey (.raw verb args) = none := by
  cases args with
  | nil => rfl
  | cons target words =>
    rw [hideChannelKey, if_neg]
    rintro ⟨h, -⟩
    rw [hv] at h
    cases h

theorem redactKeyModes_congr (hs : modes.map Mode.hideArg = modes'.map Mode.hideArg)
    (hk : modes.any Mode.setsKey = true) : redactKeyModes modes' = redactKeyModes modes := by
  have hk' : modes'.any Mode.setsKey = true := by
    rw [← any_setsKey_hideArg, ← hs, any_setsKey_hideArg, hk]
  rw [redactKeyModes, redactKeyModes, hk, hk']
  exact hs.symm

theorem head_marker {args args' : List String} (hs : List.Forall₂ SamePayload args args') :
    args'.head?.any isAuthenticateMarker = args.head?.any isAuthenticateMarker := by
  cases hs with
  | nil => rfl
  | cons h _ =>
    rcases h with rfl | ⟨h, h'⟩
    · rfl
    · simp [h, h']

theorem eq_of_markers {args args' : List String} (hs : List.Forall₂ SamePayload args args')
    (hm : ∀ arg ∈ args, isAuthenticateMarker arg = true) : args' = args := by
  induction hs with
  | nil => rfl
  | @cons a b l l' h _ ih =>
    rcases h with rfl | ⟨h, -⟩
    · rw [ih fun arg ha => hm arg (List.mem_cons_of_mem _ ha)]
    · rw [hm a (by simp)] at h
      cases h

theorem Masked.keepsSecret (hm : Masked m.command) : KeepsSecret m := by
  obtain ⟨tags, source, command⟩ := m
  intro command' hd
  cases hd with
  | pass p p' => exact ⟨fun _ => rfl, rfl⟩
  | rawPass hv args args' =>
    refine ⟨fun full => ?_, rfl⟩
    have hk := hideChannelKey_raw (verb_ne hv (by decide))
    rw [rawLine (hk args') rfl, rawLine (hk args) rfl, if_pos hv, if_pos hv]
  | authenticate hd hd' =>
    refine ⟨fun full => ?_, rfl⟩
    simp [redactedWireLine, withoutChannelKey, hideChannelKey, hd, hd']
  | rawAuthenticate hv hs =>
    refine ⟨fun full => ?_, rfl⟩
    have hk := hideChannelKey_raw (verb_ne hv (by decide))
    have hp := verb_ne (w := "PASS") hv (by decide)
    rw [rawLine (hk _) rfl, rawLine (hk _) rfl]
    simp only [hp, hv, Bool.false_eq_true, if_false, if_true, head_marker hs]
    split_ifs with hh
    · rw [eq_of_markers hs (hm.1 hv hh)]
    · rfl
  | oper name p p' => exact ⟨fun _ => rfl, rfl⟩
  | rawOper hv name args args' =>
    refine ⟨fun full => ?_, rfl⟩
    have hk := hideChannelKey_raw (verb_ne hv (by decide))
    have hp := verb_ne hv (w := "PASS") (by decide)
    have ha := verb_ne hv (w := "AUTHENTICATE") (by decide)
    rw [rawLine (hk _) rfl, rawLine (hk _) rfl]
    simp only [hp, ha, hv, Bool.false_eq_true, if_false, if_true, List.headD_cons]
  | join channel key key' realname => exact ⟨fun _ => rfl, rfl⟩
  | rawJoin hv channel key key' args =>
    exact absurd (hm.2.1 hv) (by simp)
  | channelMode channel hk hs =>
    refine ⟨fun full => ?_, rfl⟩
    rcases hm hk with hk | hn
    · simp only [redactedWireLine, withoutChannelKey, hideChannelKey, Option.map_some,
        redactKeyModes_congr hs hk]
    · rw [eq_of_no_args hs hn]
  | @rawMode verb channel modes hv hc hk args args' hl =>
    refine ⟨fun full => ?_, rfl⟩
    cases args with
    | nil => rw [List.length_eq_zero_iff.mp hl.symm]
    | cons arg rest =>
      obtain ⟨hchan, hsign⟩ := hm.2.2.1 hv _ _ _ _ rfl hc hk
      obtain ⟨h, h'⟩ := redactModeWords_congr hsign hk hl (List.cons_ne_nil arg rest)
      simp only [redactedWireLine, withoutChannelKey, hideChannelKey, hv, hchan, and_self,
        if_true, h, h', Option.map_some]
  | @modeIs nick channel modes hk args args' hl =>
    refine ⟨fun full => ?_, rfl⟩
    cases args with
    | nil => rw [List.length_eq_zero_iff.mp hl.symm]
    | cons arg rest =>
      obtain ⟨h, h'⟩ := redactModeWords_congr (hm hk) hk hl (List.cons_ne_nil arg rest)
      simp only [redactedWireLine, withoutChannelKey, hideChannelKey, h, h', Option.map_some]
  | privmsg hb hb' =>
    have hc := hm hb
    have h := serviceSecret_of_pinned hb hc
    have h' := serviceSecret_of_pinned hb' hc
    refine ⟨fun full => ?_, ?_⟩
    · simp [redactedWireLine, withoutChannelKey, hideChannelKey, h, h']
    · simp [shownText, echoText, h, h']
  | notice hb hb' =>
    have hc := hm hb
    have h := serviceSecret_of_pinned hb hc
    have h' := serviceSecret_of_pinned hb' hc
    refine ⟨fun full => ?_, ?_⟩
    · simp [redactedWireLine, withoutChannelKey, hideChannelKey, h, h']
    · simp [shownText, echoText, h, h']
  | rawMessage hv hb hb' args =>
    rw [hm.2.2.2 hv _ _ _ rfl] at hb
    cases hb

/-! ## What the masking does not know leaks -/

/-- How often the letter x is in a text; neither separators nor line endings have one. -/
def exes (s : String) : ℕ := s.toList.count 'x'

def xText (n : ℕ) : String := String.ofList (List.replicate n 'x')

@[simp] theorem exes_append (s t : String) : exes (s ++ t) = exes s + exes t := by
  simp [exes]

@[simp] theorem exes_xText (n : ℕ) : exes (xText n) = n := by simp [exes, xText]

theorem exes_joinWith {sep : String} (hs : exes sep = 0) (l : List String) :
    exes (joinWith sep l) = (l.map exes).sum := by
  induction l with
  | nil => rfl
  | cons s l ih =>
    cases l with
    | nil => simp [joinWith]
    | cons t l =>
      have h : joinWith sep (s :: t :: l) = s ++ sep ++ joinWith sep (t :: l) := rfl
      rw [h, exes_append, exes_append, hs, ih, Nat.add_zero]
      rfl

theorem exes_stringify (cmd : String) (args : List String) :
    exes (stringify cmd args) = exes cmd + (args.map exes).sum := by
  have hif (c : Prop) [Decidable c] {s : String} (hs : exes s = 0) :
      exes (if c then "" else s) = 0 := by split_ifs <;> [rfl; exact hs]
  have hif' (c : Prop) [Decidable c] : exes (if c then ":" else "") = 0 := by split_ifs <;> rfl
  induction args using List.reverseRecOn with
  | nil => simp [stringify]
  | append_singleton args suffix _ =>
    simp only [stringify, List.getLast?_concat, List.dropLast_concat, exes_append,
      hif _ (show exes " " = 0 from rfl), hif', exes_joinWith (show exes " " = 0 from rfl),
      show exes " " = 0 from rfl, List.map_append, List.map_singleton, List.sum_append,
      List.sum_singleton]
    omega

theorem exes_trimEndMatches (s : String) : exes (trimEndMatches ['\r', '\n'] s) = exes s := by
  have h (l : List Char) : (l.dropWhile ['\r', '\n'].contains).count 'x' = l.count 'x' := by
    induction l with
    | nil => rfl
    | cons c l ih =>
      rw [List.dropWhile_cons]
      split_ifs with hc
      · rw [ih, List.count_cons_of_ne]
        rintro rfl
        simp at hc
      · rfl
  simp [exes, trimEndMatches, h]

theorem transcriptLine_full (m : IrcMessage) :
    Tags.transcriptLine m true = trimEndMatches ['\r', '\n'] m.toLine := by
  unfold Tags.transcriptLine
  cases m.tags with
  | none => rfl
  | some tags =>
    cases tags with
    | nil => rfl
    | cons => simp

theorem exes_toLine (m : IrcMessage) : exes m.toLine = exes m.head + exes m.command.toLine := by
  rw [IrcMessage.toLine, exes_append, exes_append, show exes "\r\n" = 0 from rfl, Nat.add_zero]

theorem exes_eq_of_line (hk : KeepsSecret m) (hd : DiffersInSecret m.command command)
    (hm : redactedWireLine m true = trimEndMatches ['\r', '\n'] m.toLine)
    (hc : redactedWireLine { m with command := command } true =
      trimEndMatches ['\r', '\n'] ({ m with command := command } : IrcMessage).toLine) :
    exes command.toLine = exes m.command.toLine := by
  have h := congrArg exes ((hk command hd).1 true)
  rw [hm, hc, exes_trimEndMatches, exes_trimEndMatches, exes_toLine, exes_toLine] at h
  exact Nat.add_left_cancel h

theorem exes_map_xText (n : ℕ) (args : List String) :
    ((args.map fun _ => xText n).map exes).sum = args.length * n := by
  induction args with
  | nil => simp
  | cons arg args ih =>
    rw [List.map_cons, List.map_cons, List.sum_cons, ih, exes_xText, List.length_cons]
    ring

theorem head_splitWhitespace_pass (n : ℕ) :
    (splitWhitespace ("PASS " ++ xText n)).head?.any isSecretServiceCommand = true := by
  have h : ("PASS " ++ xText n).toList =
      'P' :: 'A' :: 'S' :: 'S' :: ' ' :: List.replicate n 'x' := by
    simp [xText]
  simp only [splitWhitespace, h, List.splitOnP_cons_eq_if_modifyHead,
    show isWhitespace 'P' = false from rfl, show isWhitespace 'A' = false from rfl,
    show isWhitespace 'S' = false from rfl, show isWhitespace ' ' = true from rfl,
    Bool.false_eq_true, if_false, if_true, List.modifyHead_cons]
  rw [List.filter_cons_of_pos (by simp), List.map_cons, List.head?_cons]
  decide

theorem pinnedAsTyped_pass (hp : pinnedAsTyped target body = true) (n : ℕ) :
    pinnedAsTyped target ("PASS " ++ xText n) = true :=
  pinnedAsTyped_iff.mpr ⟨(pinnedAsTyped_iff.mp hp).1, head_splitWhitespace_pass n⟩

theorem not_serviceSecret (hc : isCredentialService target ≠ true) (body : String) :
    isServiceSecret target body = false := by
  rw [isServiceSecret, Bool.eq_false_iff.mpr hc, Bool.false_and]

theorem masked_privmsg {tags : Option (List Tag)} {source : Option Prefix}
    (hk : KeepsSecret ⟨tags, source, .privmsg target body⟩) : Masked (.privmsg target body) := by
  intro hp
  by_contra hc
  have hline (body : String) : redactedWireLine ⟨tags, source, .privmsg target body⟩ true =
      trimEndMatches ['\r', '\n'] (IrcMessage.toLine ⟨tags, source, .privmsg target body⟩) := by
    rw [← transcriptLine_full]
    simp [redactedWireLine, withoutChannelKey, hideChannelKey, not_serviceSecret hc]
  have h := exes_eq_of_line hk (.privmsg hp (pinnedAsTyped_pass hp (exes body + 1))) (hline _)
    (hline _)
  simp only [IrcCommand.toLine, exes_stringify, List.map_cons, List.sum_cons, exes_append,
    exes_xText] at h
  omega

theorem masked_notice {tags : Option (List Tag)} {source : Option Prefix}
    (hk : KeepsSecret ⟨tags, source, .notice target body⟩) : Masked (.notice target body) := by
  intro hp
  by_contra hc
  have hline (body : String) : redactedWireLine ⟨tags, source, .notice target body⟩ true =
      trimEndMatches ['\r', '\n'] (IrcMessage.toLine ⟨tags, source, .notice target body⟩) := by
    rw [← transcriptLine_full]
    simp [redactedWireLine, withoutChannelKey, hideChannelKey, not_serviceSecret hc]
  have h := exes_eq_of_line hk (.notice hp (pinnedAsTyped_pass hp (exes body + 1))) (hline _)
    (hline _)
  simp only [IrcCommand.toLine, exes_stringify, List.map_cons, List.sum_cons, exes_append,
    exes_xText] at h
  omega

def Mode.withArg (s : String) : Mode → Mode
  | plus mode (some _) => plus mode (some s)
  | minus mode (some _) => minus mode (some s)
  | mode => mode

theorem withArg_spec (s : String) (mode : Mode) : (mode.withArg s).hideArg = mode.hideArg ∧
    (mode.withArg s).flag = mode.flag ∧ (mode.withArg s).setsKey = mode.setsKey ∧
    (mode.withArg s).arg = mode.arg.map fun _ => s := by
  cases mode with
  | plus mode arg => cases arg <;> cases mode <;> exact ⟨rfl, rfl, rfl, rfl⟩
  | minus mode arg => cases arg <;> cases mode <;> exact ⟨rfl, rfl, rfl, rfl⟩
  | noPrefix mode => exact ⟨rfl, rfl, rfl, rfl⟩

theorem exes_channelMode (channel : String) (modes : List Mode) :
    exes (IrcCommand.toLine (.channelMode channel modes)) =
      exes "MODE " + exes channel + (modes.map fun mode => exes mode.flag).sum +
        ((modes.filterMap Mode.arg).map exes).sum := by
  have hargs (l : List String) (line : String) :
      exes (l.foldl (fun line arg => line ++ " " ++ arg) line) = exes line + (l.map exes).sum := by
    induction l generalizing line with
    | nil => rfl
    | cons arg l ih =>
      rw [List.foldl_cons, ih, exes_append, exes_append, show exes " " = 0 from rfl,
        List.map_cons, List.sum_cons, Nat.add_zero, Nat.add_assoc]
  have hflags (l : List Mode) (line : String) :
      exes (l.foldl (fun line mode => line ++ mode.flag) line) =
        exes line + (l.map fun mode => exes mode.flag).sum := by
    induction l generalizing line with
    | nil => rfl
    | cons mode l ih =>
      rw [List.foldl_cons, ih, exes_append, List.map_cons, List.sum_cons, Nat.add_assoc]
  rw [IrcCommand.toLine, hargs, hflags, exes_append, exes_append, show exes " " = 0 from rfl,
    Nat.add_zero]

theorem masked_channelMode {tags : Option (List Tag)} {source : Option Prefix} {channel : String}
    (hk : KeepsSecret ⟨tags, source, .channelMode channel modes⟩) :
    Masked (.channelMode channel modes) := by
  intro hkey
  by_contra hno
  rw [not_or, Bool.not_eq_true] at hno
  obtain ⟨hset, harg⟩ := hno
  have hline {modes : List Mode} (hset : modes.any Mode.setsKey = false) :
      redactedWireLine ⟨tags, source, .channelMode channel modes⟩ true =
        trimEndMatches ['\r', '\n']
          (IrcMessage.toLine ⟨tags, source, .channelMode channel modes⟩) := by
    rw [← transcriptLine_full]
    simp [redactedWireLine, withoutChannelKey, hideChannelKey, redactKeyModes, hset]
  -- every argument is exchanged for one with more letters than all of them have
  set n := ((modes.filterMap Mode.arg).map exes).sum + 1 with hn
  have hspec := withArg_spec (xText n)
  have hhide : modes.map Mode.hideArg = (modes.map (Mode.withArg (xText n))).map Mode.hideArg := by
    rw [List.map_map]
    exact List.map_congr_left fun mode _ => (hspec mode).1.symm
  have hset' : (modes.map (Mode.withArg (xText n))).any Mode.setsKey = false := by
    rw [← any_setsKey_hideArg, ← hhide, any_setsKey_hideArg, hset]
  have h := exes_eq_of_line hk (.channelMode channel hkey hhide) (hline hset) (hline hset')
  have hflags : ((modes.map (Mode.withArg (xText n))).map fun mode => exes mode.flag) =
      modes.map fun mode => exes mode.flag := by
    rw [List.map_map]
    exact List.map_congr_left fun mode _ => congrArg exes (hspec mode).2.1
  have hargs : (modes.map (Mode.withArg (xText n))).filterMap Mode.arg =
      (modes.filterMap Mode.arg).map fun _ => xText n := by
    rw [List.filterMap_map, List.map_filterMap]
    exact List.filterMap_congr fun mode _ => (hspec mode).2.2.2
  rw [exes_channelMode, exes_channelMode, hflags, hargs, exes_map_xText] at h
  have hpos : 0 < (modes.filterMap Mode.arg).length := by
    push Not at harg
    obtain ⟨mode, hm, ha⟩ := harg
    obtain ⟨arg, ha⟩ := Option.ne_none_iff_exists'.mp ha
    exact List.length_pos_of_mem (List.mem_filterMap.mpr ⟨mode, hm, ha⟩)
  have hle : n ≤ (modes.filterMap Mode.arg).length * n := Nat.le_mul_of_pos_left n hpos
  omega

theorem masked_modeIs {tags : Option (List Tag)} {source : Option Prefix}
    {nick channel word arg : String}
    (hk : KeepsSecret ⟨tags, source,
      .response .rplChannelModeIs (nick :: channel :: word :: arg :: args)⟩) :
    Masked (.response .rplChannelModeIs (nick :: channel :: word :: arg :: args)) := by
  intro hkey
  by_contra hs
  have hline (args : List String) : redactedWireLine ⟨tags, source,
        .response .rplChannelModeIs (nick :: channel :: word :: args)⟩ true =
      trimEndMatches ['\r', '\n'] (IrcMessage.toLine ⟨tags, source,
        .response .rplChannelModeIs (nick :: channel :: word :: args)⟩) := by
    rw [← transcriptLine_full]
    simp [redactedWireLine, withoutChannelKey, hideChannelKey, redactModeWords, hs]
  have hd := @DiffersInSecret.modeIs nick channel word hkey (arg :: args)
    (xText (exes arg + 1) :: args) rfl
  have h := exes_eq_of_line hk hd (hline _) (hline _)
  simp only [IrcCommand.toLine, exes_stringify, List.map_cons, List.sum_cons, exes_xText] at h
  omega

theorem toAsciiUppercase_eq {v : String} (hv : eqIgnoreAsciiCase verb v = true) :
    toAsciiUppercase verb = toAsciiUppercase v := by
  have h : verb.toList.map Char.toLower = v.toList.map Char.toLower := beq_iff_eq.mp hv
  have hup (s : String) : s.toList.map Char.toUpper =
      (s.toList.map Char.toLower).map Char.toUpper := by
    rw [List.map_map]
    exact List.map_congr_left fun c _ => c.toUpper_toLower_eq_toUpper.symm
  rw [toAsciiUppercase, toAsciiUppercase, hup, h, ← hup]

def shownRaw : List String := ["JOIN", "MODE", "PRIVMSG", "NOTICE"]

theorem rawLine_shown (hk : hideChannelKey m.command = none) (hm : m.command = .raw verb args)
    {v : String} (hv : eqIgnoreAsciiCase verb v = true) (hs : v ∈ shownRaw) :
    redactedWireLine m true = trimEndMatches ['\r', '\n'] m.toLine := by
  have hne : ∀ w ∈ ["PASS", "AUTHENTICATE", "OPER", "AUTH"], eqIgnoreAsciiCase verb w = false := by
    intro w hw
    refine verb_ne hv ?_
    fin_cases hs <;> fin_cases hw <;> decide
  have hup : ["NS", "NICKSERV", "CS", "CHANSERV", "AUTHSERV"].contains (toAsciiUppercase verb) =
      false := by
    rw [toAsciiUppercase_eq hv]
    fin_cases hs <;> decide
  rw [rawLine hk hm, hne "PASS" (by simp), hne "AUTHENTICATE" (by simp), hne "OPER" (by simp),
    hne "AUTH" (by simp), hup, ← transcriptLine_full]
  rfl

theorem exes_le_sum {s : String} (hs : s ∈ args) : exes s ≤ (args.map exes).sum :=
  List.le_sum_of_mem (List.mem_map_of_mem hs)

theorem isAuthenticateMarker_xText (n : ℕ) : isAuthenticateMarker (xText (n + 1)) = false := by
  have h : (xText (n + 1)).toList = 'x' :: List.replicate n 'x' := by
    simp [xText, List.replicate_succ]
  have hne {s : String} (hs : s.toList.head? ≠ some 'x') : xText (n + 1) ≠ s := by
    rintro rfl
    simp [h] at hs
  have hcase {s : String} (hs : (s.toList.map Char.toLower).head? ≠ some 'x') :
      eqIgnoreAsciiCase (xText (n + 1)) s = false := by
    rw [eqIgnoreAsciiCase, beq_eq_false_iff_ne, h]
    intro he
    rw [← he] at hs
    exact hs rfl
  rw [isAuthenticateMarker, beq_eq_false_iff_ne.mpr (hne (by decide)),
    beq_eq_false_iff_ne.mpr (hne (by decide)), Bool.false_or, Bool.false_or, List.any_eq_false]
  intro mechanism _
  rw [Bool.not_eq_true]
  apply hcase
  cases mechanism <;> decide

def otherPayload (n : ℕ) (args : List String) : List String :=
  args.map fun arg => if isAuthenticateMarker arg then arg else xText (n + 1)

theorem samePayload_otherPayload (n : ℕ) (args : List String) :
    List.Forall₂ SamePayload args (otherPayload n args) := by
  induction args with
  | nil => exact .nil
  | cons arg args ih =>
    apply List.Forall₂.cons _ ih
    by_cases h : isAuthenticateMarker arg = true
    · simp only [h, if_true]
      exact .inl rfl
    · simp only [h]
      exact .inr ⟨Bool.eq_false_iff.mpr h, isAuthenticateMarker_xText n⟩

theorem masked_authenticate {tags : Option (List Tag)} {source : Option Prefix}
    (hk : KeepsSecret ⟨tags, source, .raw verb args⟩)
    (hv : eqIgnoreAsciiCase verb "AUTHENTICATE" = true)
    (hh : args.head?.any isAuthenticateMarker = true) :
    ∀ arg ∈ args, isAuthenticateMarker arg = true := by
  by_contra hno
  push Not at hno
  obtain ⟨arg, ha, hm⟩ := hno
  have hline (args : List String) (hh : args.head?.any isAuthenticateMarker = true) :
      redactedWireLine ⟨tags, source, .raw verb args⟩ true =
        trimEndMatches ['\r', '\n'] (IrcMessage.toLine ⟨tags, source, .raw verb args⟩) := by
    rw [rawLine (hideChannelKey_raw (verb_ne hv (by decide)) args) rfl,
      verb_ne hv (w := "PASS") (by decide), hv, hh]
    rfl
  have hs := samePayload_otherPayload (args.map exes).sum args
  have h := exes_eq_of_line hk (.rawAuthenticate hv hs) (hline _ hh)
    (hline _ ((head_marker hs).trans hh))
  have hx : xText ((args.map exes).sum + 1) ∈ otherPayload (args.map exes).sum args :=
    List.mem_map.mpr ⟨arg, ha, if_neg hm⟩
  have hle := exes_le_sum hx
  simp only [IrcCommand.toLine, exes_stringify, exes_xText] at h hle
  omega

theorem masked_join {tags : Option (List Tag)} {source : Option Prefix}
    (hk : KeepsSecret ⟨tags, source, .raw verb args⟩)
    (hv : eqIgnoreAsciiCase verb "JOIN" = true) : args.length < 2 := by
  match args, hk with
  | [], _ | [_], _ => simp
  | channel :: key :: rest, hk =>
    exfalso
    have hline (args : List String) := @rawLine_shown ⟨tags, source, .raw verb args⟩ verb args
      (hideChannelKey_raw (verb_ne hv (by decide)) args) rfl _ hv (by simp [shownRaw])
    have hd := DiffersInSecret.rawJoin hv channel key (xText (exes key + 1)) rest
    have h := exes_eq_of_line hk hd (hline _) (hline _)
    simp only [IrcCommand.toLine, exes_stringify, List.map_cons, List.sum_cons, exes_xText] at h
    omega

theorem masked_mode {tags : Option (List Tag)} {source : Option Prefix}
    {channel word arg : String} {rest : List String}
    (hk : KeepsSecret ⟨tags, source, .raw verb (channel :: word :: arg :: rest)⟩)
    (hv : eqIgnoreAsciiCase verb "MODE" = true) (hc : isChannelName channel = true)
    (hkey : word.toList.contains 'k' = true) :
    validChannel channel = true ∧ startsWithAny ['+', '-'] word = true := by
  by_contra hno
  have hhide (args : List String) :
      hideChannelKey (.raw verb (channel :: word :: args)) = none := by
    rw [hideChannelKey]
    split_ifs with h
    · rw [redactModeWords, if_neg fun hw => hno ⟨h.2, hw.1⟩]
      rfl
    · rfl
  have hline (args : List String) :=
    @rawLine_shown ⟨tags, source, .raw verb (channel :: word :: args)⟩ verb _ (hhide args) rfl _ hv
      (by simp [shownRaw])
  have hd := @DiffersInSecret.rawMode verb channel word hv hc hkey (arg :: rest)
    (xText (exes arg + 1) :: rest) rfl
  have h := exes_eq_of_line hk hd (hline _) (hline _)
  simp only [IrcCommand.toLine, exes_stringify, List.map_cons, List.sum_cons, exes_xText] at h
  omega

theorem masked_message {tags : Option (List Tag)} {source : Option Prefix} {rest : List String}
    (hk : KeepsSecret ⟨tags, source, .raw verb (target :: body :: rest)⟩)
    (hv : eqIgnoreAsciiCase verb "PRIVMSG" = true ∨ eqIgnoreAsciiCase verb "NOTICE" = true) :
    pinnedAsTyped target body = false := by
  by_contra hp
  rw [Bool.not_eq_false] at hp
  have hshown : ∃ v ∈ shownRaw, eqIgnoreAsciiCase verb v = true ∧
      eqIgnoreAsciiCase v "MODE" = false := by
    rcases hv with h | h
    · exact ⟨"PRIVMSG", by simp [shownRaw], h, by decide⟩
    · exact ⟨"NOTICE", by simp [shownRaw], h, by decide⟩
  obtain ⟨v, hs, hvv, hmode⟩ := hshown
  have hline (args : List String) := @rawLine_shown ⟨tags, source, .raw verb args⟩ verb args
    (hideChannelKey_raw (verb_ne hvv hmode) args) rfl v hvv hs
  have hd := DiffersInSecret.rawMessage hv hp (pinnedAsTyped_pass hp (exes body + 1)) rest
  have h := exes_eq_of_line hk hd (hline _) (hline _)
  simp only [IrcCommand.toLine, exes_stringify, List.map_cons, List.sum_cons, exes_append,
    exes_xText] at h
  omega

/-- A secret is kept from the transcript and from the screen just where the masking knows the way it
is written. -/
theorem keepsSecret_iff (m : IrcMessage) : KeepsSecret m ↔ Masked m.command := by
  refine ⟨fun hk => ?_, Masked.keepsSecret⟩
  obtain ⟨tags, source, command⟩ := m
  cases command with
  | privmsg target body => exact masked_privmsg hk
  | notice target body => exact masked_notice hk
  | channelMode channel modes => exact masked_channelMode hk
  | response r args =>
    by_cases hr : r = .rplChannelModeIs
    · subst hr
      match args, hk with
      | nick :: channel :: word :: arg :: args, hk => exact masked_modeIs hk
      | [], _ | [_], _ | [_, _], _ | [_, _, _], _ => trivial
    · rw [Masked]
      · trivial
      -- no other form that the masking looks at is a reply
      all_goals
        intros
        rename_i h
        cases h
      exact hr rfl
  | raw verb args =>
    refine ⟨masked_authenticate hk, masked_join hk, ?_, ?_⟩
    · rintro hv channel word arg rest rfl hc hkey
      exact masked_mode hk hv hc hkey
    · rintro hv target body rest rfl
      exact masked_message hk hv
  | _ => trivial

/-- A password for one of several recipients is pinned as typed and still shown. -/
theorem keepsSecret_several_recipients :
    pinnedAsTyped "bob,NickServ" "IDENTIFY hunter2" = true ∧
      ¬ KeepsSecret { command := .privmsg "bob,NickServ" "IDENTIFY hunter2" } := by
  refine ⟨by decide, fun hk => ?_⟩
  have h := (hk (.privmsg "bob,NickServ" "IDENTIFY swordfish")
    (.privmsg (by decide) (by decide))).2
  exact absurd h (by decide)

end CayenChat
