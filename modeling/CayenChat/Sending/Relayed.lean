import CayenChat.Lib.Machine
import CayenChat.Sending.Outgoing

/-! # An accepted message is not cut

The check measures the line as it goes out, where a text of one word has no
colon; what the server relays has one. The mask is that of the last line of
ours that showed one.
-/

namespace CayenChat.Sending

open Charset Machine

variable {ε : Type*} [DecidableEq ε] {c : Encoders ε}

/-! ## The parts of a line -/

theorem wordOf_append {word rest : List Char} (hw : ∀ ch ∈ word, ch ≠ ' ' ∧ ch ≠ '\r' ∧ ch ≠ '\n') :
    wordOf (word ++ ' ' :: rest) = word := by
  unfold wordOf
  rw [List.takeWhile_append_of_pos]
  · rw [List.takeWhile_cons_of_neg (by decide), List.append_nil]
  · intro ch hch
    obtain ⟨h1, h2, h3⟩ := hw ch hch
    simp [h1, h2, h3]

theorem afterWord_append {word rest : List Char}
    (hw : ∀ ch ∈ word, ch ≠ ' ' ∧ ch ≠ '\r' ∧ ch ≠ '\n') :
    afterWord (word ++ ' ' :: rest) = rest.dropWhile (· == ' ') := by
  unfold afterWord
  rw [wordOf_append hw, List.drop_left, List.dropWhile_cons_of_pos (by decide)]

def IsWord (word : List Char) : Prop :=
  word ≠ [] ∧ ∀ ch ∈ word, ch ≠ ' ' ∧ ch ≠ '\r' ∧ ch ≠ '\n'

theorem verb_isWord {verb : List Char} (hv : verb = "PRIVMSG".toList ∨ verb = "NOTICE".toList) :
    ∀ ch ∈ verb, ch ≠ ' ' ∧ ch ≠ '\r' ∧ ch ≠ '\n' := by
  have hall : verb.all (fun ch => ch ≠ ' ' ∧ ch ≠ '\r' ∧ ch ≠ '\n') = true := by
    rcases hv with rfl | rfl <;> decide
  exact fun ch hch => of_decide_eq_true (List.all_eq_true.mp hall ch hch)

theorem textSpan_message {verb target tail : List Char} (hv : verb = "PRIVMSG".toList ∨
    verb = "NOTICE".toList) (ht : IsWord target) (htail : tail.head? ≠ some ' ') :
    textSpan (verb ++ ' ' :: (target ++ ' ' :: tail)) =
      some ⟨target, verb ++ ' ' :: (target ++ [' ']), tail⟩ := by
  have hword := verb_isWord hv
  have hmarked : skipMarked ':' (skipMarked '@' (verb ++ ' ' :: (target ++ ' ' :: tail))) =
      verb ++ ' ' :: (target ++ ' ' :: tail) := by
    rcases hv with rfl | rfl <;> rfl
  have hhead : (target ++ ' ' :: tail).dropWhile (· == ' ') = target ++ ' ' :: tail := by
    obtain _ | ⟨ch, cs⟩ := target
    · exact absurd rfl ht.1
    · exact List.dropWhile_cons_of_neg (by simpa using (ht.2 ch List.mem_cons_self).1)
  have htext : tail.dropWhile (· == ' ') = tail := by
    obtain _ | ⟨ch, cs⟩ := tail
    · rfl
    · exact List.dropWhile_cons_of_neg (by simpa using htail)
  have hverb : (eqIgnoreAsciiCase (String.ofList verb) "PRIVMSG" ||
      eqIgnoreAsciiCase (String.ofList verb) "NOTICE") = true := by
    rcases hv with rfl | rfl <;> decide
  have hlen : (verb ++ ' ' :: (target ++ ' ' :: tail)).length - tail.length =
      (verb ++ ' ' :: (target ++ [' '])).length := by
    simp only [List.length_append, List.length_cons, List.length_nil]
    omega
  have hsplit : verb ++ ' ' :: (target ++ ' ' :: tail) =
      verb ++ ' ' :: (target ++ [' ']) ++ tail := by simp
  unfold textSpan
  rw [hmarked]
  dsimp only
  rw [wordOf_append hword, afterWord_append hword, hhead, wordOf_append ht.2,
    afterWord_append ht.2, htext, hverb, hlen, hsplit, List.take_left, List.drop_left]
  simp [ht.1]

/-! ## The bytes of a line -/

theorem joinRun_colon (bytes chunk : List UInt8) :
    joinRun (0x3A :: bytes) chunk = 0x3A :: joinRun bytes chunk := by
  have hsuffix : closeKana <:+ 0x3A :: bytes ↔ closeKana <:+ bytes := by
    rw [List.suffix_cons_iff]
    exact or_iff_right (by rw [closeKana]; simp)
  unfold joinRun
  by_cases h : chunk.head? = some 0x1B ∧ closeKana <:+ bytes
  · have hlen : 3 ≤ bytes.length := h.2.length_le
    rw [if_pos h, if_pos ⟨h.1, hsuffix.mpr h.2⟩, List.length_cons,
      show bytes.length + 1 - 3 = bytes.length - 3 + 1 by omega]
    rfl
  · rw [if_neg h, if_neg fun h' => h ⟨h'.1, hsuffix.mp h'.2⟩]
    rfl

omit [DecidableEq ε] in
theorem foldl_colon {e : ε} (runs : List (List Char)) (bytes : List UInt8) (lost lost' : Bool) :
    (runs.foldl (fun sofar run => (joinRun sofar.1 (encodeRun c e run).1,
      sofar.2 || (encodeRun c e run).2)) (0x3A :: bytes, lost)).1 =
    0x3A :: (runs.foldl (fun sofar run => (joinRun sofar.1 (encodeRun c e run).1,
      sofar.2 || (encodeRun c e run).2)) (bytes, lost')).1 := by
  induction runs generalizing bytes lost lost' with
  | nil => rfl
  | cons run runs ih =>
    rw [List.foldl_cons, List.foldl_cons]
    dsimp only
    rw [joinRun_colon]
    exact ih ..

theorem joinRun_nil (chunk : List UInt8) : joinRun [] chunk = chunk := by
  unfold joinRun
  rw [if_neg (by rintro ⟨-, h⟩; cases List.eq_nil_of_suffix_nil h)]
  rfl

theorem encodeText_colon (hc : c.Documented) (text : List Char) (e : ε) :
    (encodeText c (':' :: text) e).1 = 0x3A :: (encodeText c text e).1 := by
  have hany : (':' :: text).any isKana = text.any isKana := rfl
  unfold encodeText
  rw [hany]
  by_cases h : e = c.iso2022jp ∧ text.any isKana = true
  · rw [if_pos h, if_pos h]
    cases hr : kanaRuns text with
    | nil =>
      obtain _ | ⟨ch, cs⟩ := text
      · cases h.2
      · rw [kanaRuns] at hr
        split at hr
        · cases hr
        · split at hr <;> cases hr
    | cons run runs =>
      have hcolon : ∀ cs, (encodeRun c e (':' :: cs)).1 = 0x3A :: (c.encode e cs).1 :=
        fun cs => hc.colon e cs
      have hruns : kanaRuns (':' :: text) = if run.head?.any isKana = false then
          (':' :: run) :: runs else [':'] :: run :: runs := by
        rw [kanaRuns, hr]
        rfl
      rw [hruns]
      split
      · rename_i hkana
        have hrun : encodeRun c e run = c.encode e run := if_neg (Bool.not_eq_true _ ▸ hkana)
        rw [List.foldl_cons, List.foldl_cons]
        dsimp only
        rw [joinRun_nil, joinRun_nil, hcolon, hrun]
        exact foldl_colon ..
      · rw [List.foldl_cons]
        dsimp only
        rw [joinRun_nil, hcolon, hc.empty]
        exact foldl_colon ..
  · rw [if_neg h, if_neg h]
    exact hc.colon e text

theorem encodeBody_message (hc : c.Documented) {verb target tail : List Char}
    (hv : verb = "PRIVMSG".toList ∨ verb = "NOTICE".toList) (ht : IsWord target)
    (htail : tail.head? ≠ some ' ') (connection : ε) (encoder : Option ε) :
    (encodeBody c (verb ++ ' ' :: (target ++ ' ' :: tail)) connection
        (some fun _ => encoder)).1 =
      (c.encode connection (verb ++ ' ' :: (target ++ [' ']))).1 ++
        (encodeText c tail (encoder.getD connection)).1 := by
  have hsplit : verb ++ ' ' :: (target ++ ' ' :: tail) =
      verb ++ ' ' :: (target ++ [' ']) ++ tail := by simp
  unfold encodeBody
  rw [if_pos (.inr rfl), textSpan_message hv ht htail]
  dsimp only
  split
  · rfl
  · rename_i hplain
    obtain ⟨hnone, hne⟩ := not_or.mp hplain
    obtain rfl : encoder = none := by simpa using hnone
    have htext : encodeText c tail connection = c.encode connection tail :=
      if_neg fun h => hne h.1
    rw [Option.getD_none, htext, hsplit]
    exact hc.stateless connection hne _ _

theorem encodeLine_message (hc : c.Documented) {line : String} {verb target tail : List Char}
    (hline : line.toList = verb ++ ' ' :: (target ++ ' ' :: tail) ++ ['\r', '\n'])
    (hv : verb = "PRIVMSG".toList ∨ verb = "NOTICE".toList) (ht : IsWord target)
    (htail : tail.head? ≠ some ' ') (connection : ε) (encoder : Option ε) :
    (encodeLine c line connection (some fun _ => encoder)).1 =
      (c.encode connection (verb ++ ' ' :: (target ++ [' ']))).1 ++
        (encodeText c tail (encoder.getD connection)).1 ++ lineEnd := by
  have hdrop : ∀ cs : List Char, (cs ++ ['\r', '\n']).dropLast.dropLast = cs := by
    intro cs
    rw [show cs ++ ['\r', '\n'] = cs ++ ['\r'] ++ ['\n'] by simp, List.dropLast_concat,
      List.dropLast_concat]
  unfold encodeLine
  rw [hline]
  dsimp only
  rw [if_pos (List.suffix_append ..), hdrop]
  dsimp only
  rw [encodeBody_message hc hv ht htail]

/-! ## The colon a server writes -/

theorem splitOnce_append {word rest : List Char} (hw : ∀ ch ∈ word, ch ≠ ' ') :
    splitOnce ' ' (String.ofList (word ++ ' ' :: rest)) =
      some (String.ofList word, String.ofList rest) := by
  have hspan : (word ++ ' ' :: rest).span (· != ' ') = (word, ' ' :: rest) := by
    rw [List.span_eq_takeWhile_dropWhile]
    rw [List.takeWhile_append_of_pos (by simpa using hw), List.dropWhile_append_of_pos (by simpa using hw)]
    simp
  unfold splitOnce
  rw [String.toList_ofList, hspan]

theorem relayedColon_message {line : String} {verb target tail : List Char}
    (hline : line.toList = verb ++ ' ' :: (target ++ ' ' :: tail) ++ ['\r', '\n'])
    (hv : ∀ ch ∈ verb, ch ≠ ' ') (ht : ∀ ch ∈ target, ch ≠ ' ') (htail : tail.head? ≠ some ':')
    (hne : tail ≠ []) : relayedColon line = true := by
  have htrim : trimEndMatches ['\r', '\n'] line = String.ofList (verb ++ ' ' :: (target ++ ' ' ::
      ((tail ++ ['\r', '\n']).reverse.dropWhile ['\r', '\n'].contains).reverse)) := by
    have hassoc : verb ++ ' ' :: (target ++ ' ' :: tail) ++ ['\r', '\n'] =
        verb ++ ' ' :: target ++ ' ' :: (tail ++ ['\r', '\n']) := by simp
    unfold trimEndMatches
    rw [hline, hassoc, trimEnd_append (by decide)]
    simp
  unfold relayedColon thirdPart
  rw [htrim, splitOnce_append hv, Option.bind_some, splitOnce_append ht]
  have hstart : (tail ++ ['\r', '\n']).rdropWhile ['\r', '\n'].contains <+: tail ++ ['\r', '\n'] :=
    List.rdropWhile_prefix ..
  change (!startsWithAny [':'] (String.ofList
    ((tail ++ ['\r', '\n']).rdropWhile ['\r', '\n'].contains))) = true
  unfold startsWithAny
  rw [String.toList_ofList]
  split
  · rfl
  · rename_i ch rest hcons
    obtain ⟨t, tail, rfl⟩ := List.exists_cons_of_ne_nil hne
    rw [hcons, List.cons_append, List.cons_prefix_cons] at hstart
    rw [hstart.1]
    simpa using htail

/-! ## Accepted messages -/

/-- The line a server relays: our prefix, the command and the target, and the text in its own
encoding behind a colon. -/
def relayedLine (c : Encoders ε) (prefixLine : List UInt8) (m : ChatMessage ε) (connection : ε) :
    List UInt8 :=
  let verb := if m.notice then "NOTICE" else "PRIVMSG"
  prefixLine ++ (c.encode connection (verb ++ " " ++ m.target ++ " ").toList).1 ++ [0x3A] ++
    (encodeText c m.text.toList (m.encoder.getD connection)).1 ++ lineEnd

theorem stringify_message (cmd : String) {target text : String} (h : target ≠ "") :
    stringify cmd [target, text] = cmd ++ " " ++ target ++ " " ++
      (if text = "" ∨ text.toList.contains ' ' ∨ startsWithAny [':'] text then ":" else "") ++
      text := by
  change cmd ++ (if target = "" then "" else " ") ++ target ++ " " ++ _ ++ text = _
  rw [if_neg h]
  rfl

omit [DecidableEq ε] in
theorem toLine_message (m : ChatMessage ε) (ht : IsWord m.target.toList) :
    ∃ tail, (tail = ':' :: m.text.toList ∨
        tail = m.text.toList ∧ tail ≠ [] ∧ tail.head? ≠ some ' ' ∧ tail.head? ≠ some ':') ∧
      (IrcMessage.mk none none m.command).toLine.toList =
        (if m.notice then "NOTICE" else "PRIVMSG").toList ++
          ' ' :: (m.target.toList ++ ' ' :: tail) ++ ['\r', '\n'] := by
  have hne : m.target ≠ "" := fun h => ht.1 (by rw [h]; rfl)
  have hcommand : (IrcMessage.mk none none m.command).toLine =
      stringify (if m.notice then "NOTICE" else "PRIVMSG") [m.target, m.text] ++ "\r\n" := by
    unfold IrcMessage.toLine ChatMessage.command
    cases m.notice
    · exact String.empty_append ▸ rfl
    · exact String.empty_append ▸ rfl
  rw [hcommand, stringify_message _ hne]
  by_cases hplain : m.text = "" ∨ m.text.toList.contains ' ' = true ∨ startsWithAny [':'] m.text = true
  · rw [if_pos hplain]
    refine ⟨':' :: m.text.toList, .inl rfl, ?_⟩
    simp [String.toList_append]
  · rw [if_neg hplain]
    obtain ⟨hempty, hspace, hcolon⟩ : m.text ≠ "" ∧ ¬ m.text.toList.contains ' ' = true ∧
        ¬ startsWithAny [':'] m.text = true := by
      rwa [not_or, not_or] at hplain
    refine ⟨m.text.toList, .inr ⟨rfl, fun h => hempty (String.toList_eq_nil_iff.mp h), ?_, ?_⟩, ?_⟩
    · intro h
      exact hspace (List.contains_iff_mem.mpr (List.mem_of_head? h))
    · intro h
      apply hcolon
      unfold startsWithAny
      obtain ⟨t, ht⟩ := List.head?_eq_some_iff.mp h
      rw [ht]
      rfl
    · simp [String.toList_append]

variable {name : ε → String}

theorem encodeStrict_ok {text : String} {wire : Wire ε} {bytes : List UInt8}
    (h : encodeStrict c name text wire = .ok bytes) : ∃ connection,
      c.resolve wire.label = some connection ∧
      bytes = (encodeLine c text connection wire.charsets).1 := by
  unfold encodeStrict at h
  split at h
  · cases h
  · rename_i connection hr
    split at h
    · rename_i hline
      cases h
      exact ⟨connection, hr, by rw [hline]⟩
    · cases h

theorem validateRelayedWire_ok {text : String} {wire : Wire ε} {p : ℕ}
    (h : validateRelayedWire c name text wire p = .ok ()) : ∃ bytes,
      encodeStrict c name text wire = .ok bytes ∧
      bytes.length + (if relayedColon text then 1 else 0) + p ≤ maxLine := by
  unfold validateRelayedWire at h
  cases hw : validateWire c name text wire with
  | error e =>
    rw [hw] at h
    cases h
  | ok _ =>
    rw [hw] at h
    cases he : encodeStrict c name text wire with
    | error e =>
      rw [he] at h
      cases h
    | ok bytes =>
      rw [he] at h
      refine ⟨bytes, rfl, ?_⟩
      by_contra hlong
      change (if _ then _ else _) = _ at h
      rw [if_pos (by omega)] at h
      cases h

theorem relayedLine_le (hc : c.Documented) {m : ChatMessage ε} {wire : Wire ε} {p : ℕ}
    {prefixLine : List UInt8} {connection : ε} (ht : IsWord m.target.toList)
    (hp : prefixLine.length = p) (hr : c.resolve wire.label = some connection)
    (hv : validateOutgoingRelayed c name (.message m) wire p = .ok ()) :
    (relayedLine c prefixLine m connection).length ≤ maxLine := by
  obtain ⟨bytes, he, hle⟩ := validateRelayedWire_ok hv
  obtain ⟨connection', hr', hbytes⟩ := encodeStrict_ok he
  obtain rfl : connection = connection' := Option.some.inj (hr.symm.trans hr')
  obtain ⟨tail, htail, hline⟩ := toLine_message m ht
  have hverb : (if m.notice then "NOTICE" else "PRIVMSG").toList = "PRIVMSG".toList ∨
      (if m.notice then "NOTICE" else "PRIVMSG").toList = "NOTICE".toList := by
    cases m.notice
    · exact .inl rfl
    · exact .inr rfl
  have hspace : tail.head? ≠ some ' ' := by
    rcases htail with rfl | ⟨-, -, h, -⟩
    · simp
    · exact h
  have hhead : (if m.notice then "NOTICE" else "PRIVMSG").toList ++
      ' ' :: (m.target.toList ++ [' ']) =
      ((if m.notice then "NOTICE" else "PRIVMSG") ++ " " ++ m.target ++ " ").toList := by
    simp [String.toList_append]
  rw [encodeLine_message hc hline hverb ht hspace, hhead] at hbytes
  subst hbytes
  have hlen : (relayedLine c prefixLine m connection).length = p +
      (c.encode connection ((if m.notice then "NOTICE" else "PRIVMSG") ++ " " ++ m.target ++
        " ").toList).1.length + 1 +
      (encodeText c m.text.toList (m.encoder.getD connection)).1.length + lineEnd.length := by
    simp only [relayedLine, List.length_append, hp, List.length_singleton]
  rw [hlen]
  simp only [List.length_append] at hle
  rcases htail with rfl | ⟨rfl, hne, -, hcolon⟩
  · rw [encodeText_colon hc, List.length_cons] at hle
    omega
  · have hcounted := relayedColon_message hline (fun ch hch => (verb_isWord hverb ch hch).1)
      (fun ch hch => (ht.2 ch hch).1) hcolon hne
    rw [if_pos hcounted] at hle
    omega

/-! ## What our lines show -/

/-- What a line shows of our own mask: a user and a host, or a host alone. -/
structure Showing where
  user : Option String
  host : String

def showsSource (message : IrcMessage) (nick : String) : Option Showing :=
  match message.source with
  | some (.nickname own user host) => if own = nick then some ⟨some user, host⟩ else none
  | _ => none

/-- What a line received under a nickname shows of our own mask. -/
def shows (message : IrcMessage) (nick : String) : Option Showing :=
  match message.command with
  | .other "CHGHOST" [user, host] =>
    if message.sourceNickname = some nick then some ⟨some user, host⟩
    else showsSource message nick
  | .response .rplWelcome args => (welcomeMask args).map fun mask => ⟨some mask.1, mask.2⟩
  | .response rplHostHidden args => (hiddenHost args nick).map fun host => ⟨none, host⟩
  | _ => showsSource message nick

def Showing.isBelieved (s : Showing) : Bool := s.user.all isPlausible && isPlausible s.host

def shownBy (lines : List (IrcMessage × String)) : List Showing :=
  lines.filterMap fun l => shows l.1 l.2

def OwnMask.follow (m : OwnMask) (s : Showing) : OwnMask := ⟨s.user <|> m.user, some s.host⟩

def OwnMask.after (m : OwnMask) (shown : Option Showing) : OwnMask :=
  (shown.filter Showing.isBelieved).elim m m.follow

theorem OwnMask.setMask_fst (m : OwnMask) (user host : String) :
    (m.setMask user host).1 = m.after (some ⟨some user, host⟩) := by
  unfold setMask OwnMask.after
  rw [Option.filter_some]
  cases hp : isPlausible user && isPlausible host with
  | false =>
    have hb : Showing.isBelieved ⟨some user, host⟩ = false := hp
    rw [hb]
    rfl
  | true =>
    have hb : Showing.isBelieved ⟨some user, host⟩ = true := hp
    rw [hb, if_neg (by decide), if_pos rfl]
    by_cases hsame : m.user = some user ∧ m.host = some host
    · obtain ⟨rfl, rfl⟩ : m = ⟨some user, some host⟩ := by
        cases m
        exact congrArg₂ OwnMask.mk hsame.1 hsame.2
      simp [follow]
    · rw [not_and_or] at hsame
      dsimp only
      rw [if_pos (by simpa using hsame)]
      rfl

theorem OwnMask.setHost_fst (m : OwnMask) (host : String) :
    (m.setHost host).1 = m.after (some ⟨none, host⟩) := by
  unfold setHost OwnMask.after
  rw [Option.filter_some]
  cases hp : isPlausible host with
  | false =>
    have hb : Showing.isBelieved ⟨none, host⟩ = false := hp
    rw [hb]
    rfl
  | true =>
    have hb : Showing.isBelieved ⟨none, host⟩ = true := hp
    rw [hb, if_pos rfl]
    by_cases hsame : m.host = some host
    · rw [if_pos (by simp [hsame])]
      cases m
      exact congrArg (OwnMask.mk _) hsame
    · rw [if_neg (by simpa using hsame)]
      rfl

theorem OwnMask.observeSource_fst (m : OwnMask) (message : IrcMessage) (nick : String) :
    (m.observeSource message nick).1 = m.after (showsSource message nick) := by
  unfold observeSource showsSource
  cases message.source with
  | none => rfl
  | some source =>
    cases source with
    | serverName name => rfl
    | nickname own user host =>
      dsimp only
      split
      · exact m.setMask_fst ..
      · rfl

theorem OwnMask.observe_fst (m : OwnMask) (message : IrcMessage) (nick : String) :
    (m.observe message nick).1 = m.after (shows message nick) := by
  unfold observe
  dsimp only
  split
  · rename_i user host heq
    have hshows : shows message nick = if message.sourceNickname = some nick then
        some ⟨some user, host⟩ else showsSource message nick := by
      unfold shows
      rw [heq]
      rfl
    rw [hshows]
    by_cases hown : message.sourceNickname = some nick
    · rw [if_pos hown, if_pos hown]
      exact m.setMask_fst ..
    · rw [if_neg hown, if_neg hown]
      exact m.observeSource_fst ..
  · rename_i args heq
    have hshows : shows message nick =
        (welcomeMask args).map fun mask => ⟨some mask.1, mask.2⟩ := by
      unfold shows
      rw [heq]
      rfl
    rw [hshows]
    cases welcomeMask args with
    | none => rfl
    | some mask => exact m.setMask_fst ..
  · rename_i args heq
    have hshows : shows message nick = (hiddenHost args nick).map fun host => ⟨none, host⟩ := by
      unfold shows
      rw [heq]
      rfl
    rw [hshows]
    cases hiddenHost args nick with
    | none => rfl
    | some host => exact m.setHost_fst ..
  · rename_i hother hwelcome hhidden
    have hshows : shows message nick = showsSource message nick := by
      unfold shows
      split
      · exact absurd ‹_› (hother _ _)
      · exact absurd ‹_› (hwelcome _)
      · exact absurd ‹_› (hhidden _)
      · rfl
    rw [hshows]
    exact m.observeSource_fst ..

def maskAfter (lines : List (IrcMessage × String)) : OwnMask :=
  exec (fun m l => (OwnMask.observe m l.1 l.2).1) {} lines

theorem maskAfter_eq (lines : List (IrcMessage × String)) :
    maskAfter lines =
      ⟨(((shownBy lines).filter Showing.isBelieved).filterMap Showing.user).getLast?,
        (((shownBy lines).filter Showing.isBelieved).map Showing.host).getLast?⟩ := by
  induction lines using List.reverseRecOn with
  | nil => rfl
  | append_singleton lines l ih =>
    have hstep : maskAfter (lines ++ [l]) = (maskAfter lines).after (shows l.1 l.2) := by
      unfold maskAfter
      rw [exec_append]
      exact OwnMask.observe_fst ..
    have hshown : shownBy (lines ++ [l]) = shownBy lines ++ (shows l.1 l.2).toList := by
      unfold shownBy
      rw [List.filterMap_append]
      cases h : shows l.1 l.2 <;> simp [h]
    rw [hstep, hshown, List.filter_append, List.filterMap_append, List.map_append, ih]
    cases shows l.1 l.2 with
    | none => simp [OwnMask.after]
    | some s =>
      unfold OwnMask.after
      rw [Option.filter_some, Option.toList_some, List.filter_singleton]
      cases s.isBelieved with
      | false => simp
      | true =>
        cases hu : s.user <;> simp [OwnMask.follow, hu]

open OwnMask in
/-- The size of the prefix that showings make known, the usual sizes standing for what they do
not. -/
def shownPrefixBytes (c : Encoders ε) (name : ε → String) (shown : List Showing)
    (nick label : String) : ℕ :=
  4 + wireLen c name nick label +
    ((shown.filterMap Showing.user).getLast?.elim assumedUserBytes (wireLen c name · label)) +
    ((shown.map Showing.host).getLast?.elim assumedHostBytes (wireLen c name · label))

theorem prefixBytes_maskAfter (lines : List (IrcMessage × String)) (nick label : String) :
    (maskAfter lines).prefixBytes c name nick label =
      shownPrefixBytes c name ((shownBy lines).filter Showing.isBelieved) nick label := by
  rw [maskAfter_eq]
  unfold OwnMask.prefixBytes shownPrefixBytes
  cases (((shownBy lines).filter Showing.isBelieved).filterMap Showing.user).getLast? <;>
    cases (((shownBy lines).filter Showing.isBelieved).map Showing.host).getLast? <;> rfl

/-- A message that was accepted with the size of our prefix fits into the line a server relays, and
that size is the one of the mask our lines showed last, as far as it is believed. -/
theorem accepted_is_not_cut (c : Encoders ε) (name : ε → String) (hc : c.Documented) :
    (∀ (m : ChatMessage ε) (wire : Wire ε) (p : ℕ) (prefixLine : List UInt8) (connection : ε),
      IsWord m.target.toList → prefixLine.length = p → c.resolve wire.label = some connection →
      validateOutgoingRelayed c name (.message m) wire p = .ok () →
      (relayedLine c prefixLine m connection).length ≤ 512) ∧
    ∀ (lines : List (IrcMessage × String)) (nick label : String),
      (maskAfter lines).prefixBytes c name nick label =
        shownPrefixBytes c name ((shownBy lines).filter Showing.isBelieved) nick label :=
  ⟨fun _ _ _ _ _ ht hp hr hv => relayedLine_le hc ht hp hr hv, prefixBytes_maskAfter⟩

def utf8Encoders : Encoders Bool where
  utf8 := false
  iso2022jp := true
  resolve label := if label = "UTF-8" then some false else none
  encode _ cs := (cs.flatMap String.utf8EncodeChar, false)

theorem accepted_is_not_cut_utf8 :
    utf8Encoders.Documented ∧
      (relayedLine utf8Encoders (":alice!u@h ".toList.flatMap String.utf8EncodeChar)
        ⟨"#a", "hello", "hello", false, none⟩ false).length ≤ 512 ∧
      (maskAfter []).prefixBytes utf8Encoders toString "alice" "UTF-8" = 82 := by
  have hc : utf8Encoders.Documented :=
    ⟨fun _ => rfl, fun _ _ => rfl, fun _ _ _ _ => List.flatMap_append⟩
  have hall : "#a".toList.all (fun ch => ch ≠ ' ' ∧ ch ≠ '\r' ∧ ch ≠ '\n') = true := by decide
  have hword : IsWord "#a".toList :=
    ⟨by decide, fun ch hch => of_decide_eq_true (List.all_eq_true.mp hall ch hch)⟩
  obtain ⟨hlines, hmask⟩ := accepted_is_not_cut utf8Encoders toString hc
  refine ⟨hc, ?_, ?_⟩
  · exact hlines ⟨"#a", "hello", "hello", false, none⟩ ⟨"UTF-8", none⟩ 11 _ false
      hword (by decide +kernel) (by decide) (by decide +kernel)
  · rw [hmask]
    decide +kernel

def longHost : String := String.ofList (List.replicate 300 'h')

/-- A line of ours whose host is too long to be believed leaves the size as it was. -/
theorem prefix_of_long_host :
    ¬ ∀ (lines : List (IrcMessage × String)) (nick label : String),
      (maskAfter lines).prefixBytes utf8Encoders toString nick label =
        shownPrefixBytes utf8Encoders toString (shownBy lines) nick label := by
  intro h
  have hlong := h [(⟨none, some (.nickname "alice" "u" longHost), .join "#c" none none⟩, "alice")]
    "alice" "UTF-8"
  revert hlong
  decide +kernel

end CayenChat.Sending
