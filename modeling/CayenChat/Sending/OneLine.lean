import CayenChat.Sending.Connection
import CayenChat.Sending.Relayed
import CayenChat.Sending.Unbroken

/-! # One command, one line

What a call queues is written as one line. The check of a serialized command
drops the line endings at its end before it looks, so the last argument of a
command must not end in one; only the reason of a `PART` can.
-/

namespace CayenChat.Sending

open Charset Ctcp

/-! ## Checks that pass -/

theorem ok_of_bind_ok {α β : Type} {x : Except String α} {f : α → Except String β} {b : β}
    (h : x >>= f = .ok b) : ∃ a, x = .ok a ∧ f a = .ok b := by
  cases x with
  | error e => cases h
  | ok a => exact ⟨a, rfl, h⟩

theorem ok_of_map_ok {α β : Type} {x : Except String α} {f : α → β} {b : β}
    (h : x.map f = .ok b) : ∃ a, x = .ok a ∧ f a = b := by
  cases x with
  | error e => cases h
  | ok a => exact ⟨a, rfl, Except.ok.inj h⟩

theorem ok_of_guard_ok {β : Type} {p : Prop} [Decidable p] {e : String}
    {f : Unit → Except String β} {b : β} (h : (if p then throw e >>= f else f ()) = .ok b) :
    ¬p ∧ f () = .ok b := by
  by_cases hp : p
  · rw [if_pos hp] at h
    cases h
  · rw [if_neg hp] at h
    exact ⟨hp, h⟩

theorem ok_of_mapM_ok {α β : Type} {f : α → Except String β} {as : List α} {bs : List β}
    (h : as.mapM f = .ok bs) : ∀ b ∈ bs, ∃ a ∈ as, f a = .ok b := by
  induction as generalizing bs with
  | nil =>
    rw [List.mapM_nil] at h
    cases h
    rintro b ⟨⟩
  | cons a as ih =>
    rw [List.mapM_cons] at h
    obtain ⟨b, hb, h⟩ := ok_of_bind_ok h
    obtain ⟨bs, hbs, h⟩ := ok_of_bind_ok h
    cases h
    rw [List.forall_mem_cons]
    constructor
    · exact ⟨a, List.mem_cons_self, hb⟩
    · intro b' hb'
      obtain ⟨a', ha', hf⟩ := ih hbs b' hb'
      exact ⟨a', List.mem_cons_of_mem a ha', hf⟩

/-! ## Ends of texts -/

def endsInBreak (s : String) : Bool := s.toList.getLast?.any ['\r', '\n'].contains

theorem endsInBreak_of_hasBreak {s : String} (h : hasBreak s = false) : endsInBreak s = false := by
  unfold endsInBreak
  cases hl : s.toList.getLast? with
  | none => rfl
  | some ch =>
    have hch := hasBreak_eq_false.mp h ch (List.mem_of_getLast? hl)
    simp only [isBreak, Bool.or_eq_false_iff, beq_eq_false_iff_ne] at hch
    simp [hch.1]

theorem hasBreak_of_endsInBreak {s : String} (h : endsInBreak s = true) : hasBreak s = true := by
  rw [← Bool.not_eq_false] at h ⊢
  exact fun hb => h (endsInBreak_of_hasBreak hb)

theorem endsInBreak_of_suffix {s t : String} (hs : t.toList <:+ s.toList)
    (h : endsInBreak s = false) : endsInBreak t = false := by
  unfold endsInBreak at h ⊢
  cases hl : t.toList.getLast? with
  | none => rfl
  | some ch =>
    obtain ⟨init, hinit⟩ := hs
    rw [← hinit, List.getLast?_append, hl] at h
    exact h

theorem endsInBreak_of_last {s : String} {p : Char → Bool}
    (hp : p '\r' = true ∧ p '\n' = true) (h : ∀ ch ∈ s.toList.getLast?, p ch = false) :
    endsInBreak s = false := by
  unfold endsInBreak
  cases hl : s.toList.getLast? with
  | none => rfl
  | some ch =>
    have hch := h ch hl
    rw [Option.any_some, Bool.eq_false_iff]
    intro hb
    have hmem : ch = '\r' ∨ ch = '\n' := by simpa using hb
    rcases hmem with rfl | rfl
    · exact Bool.false_ne_true (hch.symm.trans hp.1)
    · exact Bool.false_ne_true (hch.symm.trans hp.2)

theorem endsInBreak_stringify (cmd : String) {args : List String} {suffix : String}
    (h : args.getLast? = some suffix) (hs : endsInBreak suffix = false) :
    endsInBreak (stringify cmd args) = false := by
  unfold stringify
  rw [h]
  dsimp only
  by_cases he : suffix = ""
  · subst he
    unfold endsInBreak
    simp
  · have hne : suffix.toList ≠ [] := fun hnil => he (String.toList_eq_nil_iff.mp hnil)
    unfold endsInBreak at hs ⊢
    rwa [String.toList_append, List.getLast?_append_of_ne_nil _ hne]

theorem toLine_command (command : IrcCommand) :
    IrcMessage.toLine { command } = command.toLine ++ "\r\n" :=
  congrArg (· ++ "\r\n") String.empty_append

theorem checkedCommand_ok {ε : Type} {command : IrcCommand} {o : Outgoing ε}
    (h : checkedCommand command = .ok o) : o = .raw { command } ∧
      (endsInBreak command.toLine = false → hasBreak command.toLine = false) := by
  unfold checkedCommand at h
  dsimp only at h
  split at h
  · cases h
  rename_i hb
  refine ⟨(Except.ok.inj h).symm, fun he => ?_⟩
  rw [toLine_command, Bool.not_eq_true] at hb
  obtain hnil | ⟨init, ch, hlast⟩ := List.eq_nil_or_concat command.toLine.toList
  · rw [String.toList_eq_nil_iff.mp hnil]
    rfl
  · rw [List.concat_eq_append] at hlast
    have hch : ['\r', '\n'].contains ch = false := by
      unfold endsInBreak at he
      rw [hlast, List.getLast?_concat] at he
      exact he
    unfold trimEndMatches at hb
    rw [String.toList_append, hlast, List.append_assoc, List.singleton_append, trimEnd_append hch,
      hasBreak_ofList] at hb
    unfold hasBreak
    rw [hlast]
    exact hb

/-! ## Parts of what was typed -/

theorem trim_endsInBreak (s : String) : endsInBreak (trim s) = false := by
  apply endsInBreak_of_last (p := isWhitespace) ⟨rfl, rfl⟩
  intro ch hch
  unfold trim at hch
  rw [String.toList_ofList, List.getLast?_reverse] at hch
  have hnot := List.head?_dropWhile_not isWhitespace (s.toList.dropWhile isWhitespace).reverse
  rw [hch] at hnot
  exact hnot

theorem splitWord_fst (s : String) : endsInBreak (splitWord s).1 = false := by
  apply endsInBreak_of_last (p := isWhitespace) ⟨rfl, rfl⟩
  intro ch hch
  unfold splitWord at hch
  rw [String.toList_ofList] at hch
  have hword := List.mem_takeWhile_imp (List.mem_of_getLast? hch)
  simpa using hword

theorem splitWord_snd (s : String) : (splitWord s).2.toList <:+ s.toList := by
  unfold splitWord
  rw [String.toList_ofList]
  exact (List.dropWhile_suffix _).trans (List.dropWhile_suffix _)

theorem trimStartMatches_suffix (cs : List Char) (s : String) :
    (trimStartMatches cs s).toList <:+ s.toList := by
  unfold trimStartMatches
  rw [String.toList_ofList]
  exact List.dropWhile_suffix _

theorem isBreak_of_class {p : Char → Bool} {ch : Char}
    (hp : p '\r' = false ∧ p '\n' = false ∧ p (Char.ofNat 0) = false) (h : p ch = true) :
    isBreak ch = false := by
  obtain ⟨hr, hn, h0⟩ := hp
  rw [Bool.eq_false_iff]
  intro hb
  simp only [isBreak, Bool.or_eq_true, beq_iff_eq] at hb
  rcases hb with (rfl | rfl) | hb
  · exact Bool.false_ne_true (hr.symm.trans h)
  · exact Bool.false_ne_true (hn.symm.trans h)
  · rw [← Char.ofNat_toNat ch, hb] at h
    exact Bool.false_ne_true (h0.symm.trans h)

theorem hasBreak_of_isPlainTag {tag : String} (h : isPlainTag tag = true) :
    hasBreak (toAsciiUppercase tag) = false := by
  unfold toAsciiUppercase
  rw [hasBreak_ofList, List.any_map, List.any_eq_false]
  intro ch hch
  have hplain := List.all_eq_true.mp ((Bool.and_eq_true _ _).mp h).2 ch hch
  rw [Bool.not_eq_true]
  exact isBreak_toUpper (isBreak_of_class
    (p := fun c => c.isAlphanum || ['-', '_', '.', '/'].contains c) (by decide) hplain)

theorem hasBreak_of_validChannelKey {key : String} (h : validChannelKey key = true) :
    hasBreak key = false := by
  simp only [validChannelKey, Bool.and_eq_true, Bool.not_eq_true', List.any_eq_false,
    Bool.or_eq_true, not_or, Bool.not_eq_true] at h
  exact hasBreak_of_isControl fun ch hch => (h.2 ch hch).1.2

theorem hasBreak_of_isTarget {target : String} (h : isTarget target = true) :
    hasBreak target = false := by
  simp only [isTarget, Bool.and_eq_true, Bool.not_eq_true', List.any_eq_false,
    Bool.or_eq_true, not_or, Bool.not_eq_true] at h
  exact hasBreak_of_isControl fun ch hch => (h.2 ch hch).1.2

theorem hasBreak_of_validateMessageText {text : String} (h : validateMessageText text = .ok ()) :
    hasBreak text = false := by
  unfold validateMessageText at h
  split at h
  · cases h
  · rename_i ht
    exact (Bool.or_eq_false_iff.mp (Bool.not_eq_true _ ▸ ht)).2

theorem selectedTarget_ok {selected : Option String} {target : String}
    (h : selectedTarget selected = .ok target) : hasBreak target = false := by
  unfold selectedTarget at h
  split at h
  · rename_i value hs
    cases h
    have hvalid := (Option.filter_eq_some_iff.mp hs).2
    rcases (Bool.or_eq_true _ _).mp hvalid with hv | hv
    · exact hasBreak_of_validChannel hv
    · exact hasBreak_of_validNickname hv
  · cases h

theorem selectedChannel_ok {selected : Option String} {channel : String}
    (h : selectedChannel selected = .ok channel) : hasBreak channel = false := by
  unfold selectedChannel at h
  split at h
  · rename_i value hs
    cases h
    exact hasBreak_of_validChannel (Option.filter_eq_some_iff.mp hs).2
  · cases h

theorem channelFirst_ok {rest channel body : String} {selected : Option String}
    (h : channelFirst rest selected = .ok (channel, body)) :
    hasBreak channel = false ∧ body.toList <:+ rest.toList := by
  unfold channelFirst at h
  dsimp only at h
  split at h
  · rename_i hv
    cases h
    exact ⟨hasBreak_of_validChannel hv, splitWord_snd rest⟩
  · cases hs : selectedChannel selected with
    | error e =>
      rw [hs] at h
      cases h
    | ok selectedName =>
      rw [hs] at h
      cases h
      exact ⟨selectedChannel_ok hs, List.suffix_rfl⟩

/-! ## What is queued -/

def ChatMessage.Whole {ε : Type} (m : ChatMessage ε) : Prop :=
  hasBreak m.target = false ∧ hasBreak m.text = false

/-- Something queued that holds no break. -/
def Outgoing.Whole {ε : Type} : Outgoing ε → Prop
  | message m => m.Whole
  | raw m => m.head = "" ∧ hasBreak m.command.toLine = false
  | lines ms => ∀ m ∈ ms, m.Whole
  | ctcp nick tag args => hasBreak nick = false ∧ hasBreak tag = false ∧ hasBreak args = false
  | quitWith reason | sleepQuit reason => hasBreak reason = false
  | _ => True

section Forms

variable {ε : Type} {upper : Char → List Char} {o : Outgoing ε} {rest : String}
  {selected : Option String}

theorem checkedCommand_whole {command : IrcCommand} (h : checkedCommand command = .ok o)
    (he : endsInBreak command.toLine = false) : o.Whole := by
  obtain ⟨rfl, hw⟩ := checkedCommand_ok h
  exact ⟨String.empty_append, hw he⟩

theorem checkedRaw_whole (hu : KeepsUnbroken upper) {line : String}
    (h : checkedRaw upper line = .ok o) : o.Whole := by
  unfold checkedRaw at h
  split at h
  · cases h
  rename_i hplain
  split at h
  · cases h
  split at h
  · cases h
  · rename_i hparse
    rw [← Except.ok.inj h]
    have hbreak : hasBreak line = false := (Bool.or_eq_false_iff.mp (Bool.not_eq_true _ ▸ hplain)).2
    exact parseMessage_unbroken hu hparse hbreak

theorem ctcpRequest_whole {nick tag args : String} (h : ctcpRequest nick tag args = .ok o) :
    o.Whole := by
  obtain ⟨⟨⟩, hcheck, h⟩ := ok_of_bind_ok h
  cases h
  unfold checkRequest at hcheck
  split at hcheck
  · cases hcheck
  rename_i hnick
  split at hcheck
  · cases hcheck
  rename_i htag
  split at hcheck
  · cases hcheck
  split at hcheck
  · cases hcheck
  split at hcheck
  · cases hcheck
  split at hcheck
  · cases hcheck
  split at hcheck
  · cases hcheck
  rename_i hargs
  have hcontrol : ∀ ch ∈ args.toList, isControl ch = false := by simpa using hargs
  exact ⟨hasBreak_of_validNickname (by simpa using hnick),
    hasBreak_of_isPlainTag (by simpa using htag), hasBreak_of_isControl hcontrol⟩

theorem parseMe_whole (h : parseMe rest selected = .ok o) : o.Whole := by
  obtain ⟨target, htarget, h⟩ := ok_of_bind_ok h
  obtain ⟨-, h⟩ := ok_of_guard_ok h
  obtain ⟨⟨⟩, htext, h⟩ := ok_of_bind_ok h
  cases h
  exact ⟨selectedTarget_ok htarget, hasBreak_of_validateMessageText htext⟩

theorem checkedMessage_whole {e target text : String} {notice : Bool} {f : Unit → Except String _}
    (hf : f = fun _ => validateMessageText text >>= fun _ =>
      pure (.message ⟨target, text, text, notice, none⟩))
    (h : (if (!isTarget target) = true then throw e >>= f else f ()) = .ok o) : o.Whole := by
  obtain ⟨htarget, h⟩ := ok_of_guard_ok h
  rw [hf] at h
  obtain ⟨⟨⟩, htext, h⟩ := ok_of_bind_ok h
  cases h
  exact ⟨hasBreak_of_isTarget (by simpa using htarget), hasBreak_of_validateMessageText htext⟩

theorem parseMsg_whole {notice : Bool} (h : parseMsg notice rest selected = .ok o) : o.Whole := by
  unfold parseMsg at h
  dsimp only at h
  split at h
  · obtain ⟨target, -, h⟩ := ok_of_bind_ok h
    exact checkedMessage_whole rfl h
  split at h
  · obtain ⟨target, -, h⟩ := ok_of_bind_ok h
    exact checkedMessage_whole rfl h
  · exact checkedMessage_whole rfl h

theorem channelText_whole {command : IrcCommand} {verb channel text : String}
    (h : checkedCommand command = .ok o)
    (hline : command.toLine = stringify verb (channel :: (optionalText text).toList))
    (hc : hasBreak channel = false) (ht : endsInBreak text = false) : o.Whole := by
  apply checkedCommand_whole h
  rw [hline]
  unfold optionalText
  split
  · exact endsInBreak_stringify verb rfl (endsInBreak_of_hasBreak hc)
  · exact endsInBreak_stringify verb rfl ht

theorem parseChannelText_whole {part : Bool} (h : parseChannelText part rest selected = .ok o)
    (hr : endsInBreak rest = false) : o.Whole := by
  obtain ⟨⟨channel, body⟩, hfirst, h⟩ := ok_of_bind_ok h
  obtain ⟨hc, hbody⟩ := channelFirst_ok hfirst
  have htext : endsInBreak (trimStartMatches [':'] body) = false :=
    endsInBreak_of_suffix ((trimStartMatches_suffix _ _).trans hbody) hr
  cases part with
  | true => exact channelText_whole h rfl hc htext
  | false => exact channelText_whole h rfl hc htext

theorem parseKick_whole (h : parseKick rest selected = .ok o) (hr : endsInBreak rest = false) :
    o.Whole := by
  obtain ⟨⟨channel, body⟩, hfirst, h⟩ := ok_of_bind_ok h
  obtain ⟨hc, hbody⟩ := channelFirst_ok hfirst
  have hnick := splitWord_fst body
  have hreason := endsInBreak_of_suffix ((splitWord_snd body).trans hbody) hr
  cases hw : splitWord body with | mk nick reason =>
  rw [hw] at hnick hreason
  dsimp only at h hnick hreason
  rw [hw] at h
  obtain ⟨-, h⟩ := ok_of_guard_ok h
  apply checkedCommand_whole h
  change endsInBreak (stringify "KICK" _) = false
  unfold optionalText
  split
  · exact endsInBreak_stringify "KICK" rfl hnick
  · exact endsInBreak_stringify "KICK" rfl
      (endsInBreak_of_suffix (trimStartMatches_suffix [':'] reason) hreason)

theorem parseMode_whole (hu : KeepsUnbroken upper) (h : parseMode upper rest selected = .ok o) :
    o.Whole := by
  unfold parseMode at h
  dsimp only at h
  split at h
  · exact checkedRaw_whole hu h
  · obtain ⟨channel, -, h⟩ := ok_of_bind_ok h
    obtain ⟨wire, -, h⟩ := ok_of_bind_ok h
    exact checkedRaw_whole hu h

theorem parseNames_whole (hu : KeepsUnbroken upper) (h : parseNames upper rest selected = .ok o) :
    o.Whole := by
  unfold parseNames at h
  dsimp only at h
  split at h
  · obtain ⟨channel, -, h⟩ := ok_of_bind_ok h
    obtain ⟨wire, -, h⟩ := ok_of_bind_ok h
    exact checkedRaw_whole hu h
  · exact checkedRaw_whole hu h

theorem invite_whole {nickname channel e : String} {f : Unit → Except String _}
    (hf : f = fun _ => checkedCommand (.other "INVITE" [nickname, channel]))
    (h : (if (!validChannel channel) = true then throw e >>= f else f ()) = .ok o) :
    o.Whole := by
  obtain ⟨hc, h⟩ := ok_of_guard_ok h
  rw [hf] at h
  have hchannel : hasBreak channel = false := hasBreak_of_validChannel (by simpa using hc)
  apply checkedCommand_whole h
  exact endsInBreak_stringify "INVITE" rfl (endsInBreak_of_hasBreak hchannel)

theorem parseInvite_whole (h : parseInvite rest selected = .ok o) : o.Whole := by
  unfold parseInvite at h
  cases hw : splitWord rest with | mk nickname channel =>
  rw [hw] at h
  obtain ⟨-, h⟩ := ok_of_guard_ok h
  dsimp only at h
  split at h
  · obtain ⟨selectedName, -, h⟩ := ok_of_bind_ok h
    exact invite_whole rfl h
  · exact invite_whole rfl h

theorem parseQuit_whole (h : parseQuit rest = .ok o) : o.Whole := by
  unfold parseQuit at h
  dsimp only at h
  split at h
  · cases h
    trivial
  · obtain ⟨queued, hc, rfl⟩ := ok_of_map_ok h
    have hline := (checkedCommand_ok hc).2
    change (_ → hasBreak (stringify "QUIT" [trim (trimStartMatches [':'] rest)]) = false) at hline
    rw [hasBreak_stringify] at hline
    have hreason := hline (endsInBreak_stringify "QUIT" rfl (trim_endsInBreak _))
    have hargs := (Bool.or_eq_false_iff.mp hreason).2
    rwa [List.any_cons, List.any_nil, Bool.or_false] at hargs

theorem parseCtcp_whole (h : parseCtcp rest = .ok o) : o.Whole := by
  unfold parseCtcp at h
  dsimp only at h
  split at h
  · cases h
  · exact ctcpRequest_whole h

theorem parsePing_whole (h : parsePing rest = .ok o) : o.Whole := by
  unfold parsePing at h
  dsimp only at h
  split at h
  · cases h
  · exact ctcpRequest_whole h

theorem parseSlashCommand_whole (hu : KeepsUnbroken upper) {line : String}
    (h : parseSlashCommand upper line selected = .ok o) : o.Whole := by
  unfold parseSlashCommand at h
  split at h
  · cases h
  rename_i body hbody
  dsimp only at h
  cases hw : splitWord (trim body) with | mk verb rest =>
  have hrest : endsInBreak rest = false := by
    apply endsInBreak_of_suffix _ (trim_endsInBreak body)
    have hsuffix := splitWord_snd (trim body)
    rwa [hw] at hsuffix
  rw [hw] at h
  dsimp only at h
  split at h
  · cases h
  split at h
  · exact parseMe_whole h
  · exact parseMsg_whole h
  · exact parseMsg_whole h
  · exact parseMsg_whole h
  · exact parseChannelText_whole h hrest
  · exact parseChannelText_whole h hrest
  · exact parseKick_whole h hrest
  · exact parseMode_whole hu h
  · exact parseNames_whole hu h
  · exact parseInvite_whole h
  · exact parseQuit_whole h
  · exact parseCtcp_whole h
  · exact parsePing_whole h
  · exact checkedRaw_whole hu h
  · exact checkedRaw_whole hu h
  · exact checkedRaw_whole hu h

theorem memberOutgoing_whole (hu : KeepsUnbroken upper) {nickname : String}
    {action : MemberCommand} (h : memberOutgoing upper nickname action = .ok o) : o.Whole := by
  unfold memberOutgoing at h
  split at h
  · cases h
  rename_i hnick
  have hwhole : hasBreak nickname = false := hasBreak_of_validNickname (by simpa using hnick)
  split at h
  · apply checkedCommand_whole h
    exact endsInBreak_stringify "WHOIS" rfl (endsInBreak_of_hasBreak hwhole)
  · split at h
    · cases h
    · rename_i channel hc
      have hchannel : hasBreak channel = false := hasBreak_of_validChannel (by simpa using hc)
      apply checkedCommand_whole h
      exact endsInBreak_stringify "INVITE" rfl (endsInBreak_of_hasBreak hchannel)
  · split at h
    · cases h
    · exact checkedRaw_whole hu h
  · split at h
    · cases h
    · exact checkedRaw_whole hu h
  · exact ctcpRequest_whole h

end Forms

/-! ## Pinning -/

section Pinning

variable {ε : Type} {c : Encoders ε}

theorem withDefaultPartReason_whole {o : Outgoing ε} {default : Option String} (ho : o.Whole)
    (hd : ∀ reason ∈ default, hasBreak reason = false) : (withDefaultPartReason o default).Whole := by
  unfold withDefaultPartReason
  split
  · rename_i tags source channel reason
    refine ⟨ho.1, ?_⟩
    have hline := ho.2
    change hasBreak (stringify "PART" [channel]) = false at hline
    change hasBreak (stringify "PART" [channel, reason]) = false
    rw [hasBreak_stringify] at hline ⊢
    simpa [hd reason rfl] using hline
  · exact ho

theorem toString_unbroken (n : ℕ) : ∀ ch ∈ (toString n).toList, isBreak ch = false := by
  intro ch hch
  rw [Nat.toString_eq_repr, Nat.toList_repr] at hch
  exact isBreak_of_class (p := Char.isDigit) (by decide)
    (Nat.isDigit_of_mem_toDigits (by decide) (by decide) hch)

theorem withCharRefs_unbroken {text converted : String} (h : withCharRefs c text = some converted)
    (ht : hasBreak text = false) : hasBreak converted = false := by
  unfold withCharRefs at h
  split at h
  · obtain rfl := Option.some.inj h
    rw [hasBreak_ofList, List.any_flatMap, List.any_eq_false]
    intro ch hch
    rw [Bool.not_eq_true]
    split
    · change hasBreak ("&#" ++ toString ch.toNat ++ ";") = false
      have hdigits : hasBreak (toString ch.toNat) = false :=
        hasBreak_eq_false.mpr (toString_unbroken ch.toNat)
      rw [hasBreak_append, hasBreak_append, hdigits]
      rfl
    · rw [List.any_cons, List.any_nil, Bool.or_false]
      exact hasBreak_eq_false.mp ht ch hch
  · cases h

theorem actionText_subset {text action : String} (h : actionText text = some action) :
    ∀ ch ∈ action.toList, ch ∈ text.toList := by
  obtain ⟨rest, hrest, rfl⟩ := Option.map_eq_some_iff.mp h
  have hsub : ∀ ch ∈ rest.toList, ch ∈ text.toList := by
    unfold stripStart at hrest
    split at hrest
    · obtain rfl := Option.some.inj hrest
      rw [String.toList_ofList]
      exact fun ch hch => List.mem_of_mem_drop hch
    · cases hrest
  intro ch hch
  unfold stripLast at hch
  split at hch
  · rw [Option.getD_some, String.toList_ofList] at hch
    exact hsub ch (List.dropLast_subset _ hch)
  · exact hsub ch hch

theorem applyCharRefs_whole {m : ChatMessage ε} (hm : m.Whole) : (applyCharRefs c m).Whole := by
  unfold applyCharRefs
  split
  · rename_i action ha
    have haction : hasBreak action = false := hasBreak_of_subset hm.2 (actionText_subset ha)
    have hconverted : hasBreak ((withCharRefs c action).getD action) = false := by
      cases hr : withCharRefs c action with
      | none => exact haction
      | some converted => exact withCharRefs_unbroken hr haction
    dsimp only
    split
    · exact hm
    · refine ⟨hm.1, ?_⟩
      have hclose : hasBreak (if m.text.toList.getLast? = some (Char.ofNat 1) then ctcpQuote
          else "") = false := by
        split <;> rfl
      have hopen : hasBreak (ctcpQuote ++ "ACTION ") = false := by decide
      rw [hasBreak_append, hasBreak_append, hopen, hconverted, hclose]
      rfl
  · split
    · exact hm
    split
    · exact hm
    · rename_i hr
      exact ⟨hm.1, withCharRefs_unbroken hr hm.2⟩

namespace Connection

variable [DecidableEq ε] {name : ε → String} {conn : Connection ε}

theorem pinnedMessage_whole {m : ChatMessage ε} (hm : m.Whole) :
    (conn.pinnedMessage c m).Whole := by
  unfold pinnedMessage
  dsimp only
  split
  · exact applyCharRefs_whole hm
  · exact hm

theorem pinned_whole {o : Outgoing ε} (ho : o.Whole) : (conn.pinned c o).Whole := by
  unfold pinned
  split
  · exact pinnedMessage_whole ho
  · exact ho

omit [DecidableEq ε] in
theorem trySend_ok {o : Outgoing ε} {what : String} {queued : List (Outgoing ε)}
    (h : conn.trySend o what = .ok queued) : queued = [o] := by
  unfold trySend at h
  split at h
  · cases h
  · exact (Except.ok.inj h).symm

theorem submit_ok {o : Outgoing ε} {what : String} {queued : List (Outgoing ε)}
    (h : conn.submit c name o what = .ok queued) : queued = [conn.pinned c o] := by
  obtain ⟨⟨⟩, -, h⟩ := ok_of_bind_ok h
  exact trySend_ok h

theorem submit_whole {o : Outgoing ε} {what : String} {queued : List (Outgoing ε)}
    (h : conn.submit c name o what = .ok queued) (ho : o.Whole) : ∀ q ∈ queued, q.Whole := by
  rw [submit_ok h]
  rintro q hq
  rw [List.mem_singleton.mp hq]
  exact pinned_whole ho

theorem sendTo_whole {target text what : String} {notice : Bool} {queued : List (Outgoing ε)}
    (h : conn.sendTo c name target text notice what = .ok queued)
    (ht : hasBreak target = false) : ∀ q ∈ queued, q.Whole := by
  obtain ⟨⟨⟩, htext, h⟩ := ok_of_bind_ok h
  exact submit_whole h ⟨ht, hasBreak_of_validateMessageText htext⟩

theorem sendLines_whole {target : String} {lines : List String} {notice : Bool}
    {queued : List (Outgoing ε)} (h : conn.sendLines c name target lines notice = .ok queued)
    (ht : hasBreak target = false) : ∀ q ∈ queued, q.Whole := by
  obtain ⟨outgoing, hlines, h⟩ := ok_of_bind_ok h
  rw [trySend_ok h]
  rintro q hq
  rw [List.mem_singleton.mp hq]
  intro m hm
  obtain ⟨text, -, h⟩ := ok_of_mapM_ok hlines m hm
  obtain ⟨⟨⟩, htext, h⟩ := ok_of_bind_ok h
  obtain ⟨⟨⟩, -, h⟩ := ok_of_bind_ok h
  cases h
  exact pinnedMessage_whole ⟨ht, hasBreak_of_validateMessageText htext⟩

end Connection

end Pinning

/-! ## Modes of members -/

theorem uniqueNicks_subset (nicknames : List String) : ∀ nick ∈ uniqueNicks nicknames,
    nick ∈ nicknames := by
  have hfold : ∀ nicks unique : List String, ∀ nick ∈ nicks.foldl (fun unique nick =>
      if unique.any fun seen => sameNickname seen nick then unique else unique ++ [nick]) unique,
      nick ∈ unique ∨ nick ∈ nicks := by
    intro nicks
    induction nicks with
    | nil => exact fun unique nick h => .inl h
    | cons first nicks ih =>
      intro unique nick h
      rw [List.foldl_cons] at h
      rcases ih _ nick h with h | h
      · split at h
        · exact .inl h
        · rcases List.mem_append.mp h with h | h
          · exact .inl h
          · exact .inr (List.mem_singleton.mp h ▸ List.mem_cons_self)
      · exact .inr (List.mem_cons_of_mem _ h)
  exact fun nick h => (hfold nicknames [] nick h).resolve_left (by simp)

theorem nickGroups_flatten (perLine : ℕ) (nicks group : List String) (bytes : ℕ) :
    (nickGroups perLine nicks group bytes).flatten = group ++ nicks := by
  induction nicks generalizing group bytes with
  | nil =>
    unfold nickGroups
    split
    · rename_i he
      rw [he]
      rfl
    · simp
  | cons nick nicks ih =>
    unfold nickGroups
    split
    · rw [List.flatten_append, ih]
      split
      · rename_i he
        rw [he]
        rfl
      · simp
    · rw [ih, List.append_assoc]
      rfl

theorem modeLines_unbroken {channel : String} {mode : MemberMode} {nicknames : List String}
    {perLine : ℕ} (hc : hasBreak channel = false)
    (hn : ∀ nick ∈ nicknames, hasBreak nick = false) :
    ∀ args ∈ modeLines channel mode nicknames perLine, args.any hasBreak = false := by
  intro args hargs
  obtain ⟨group, hgroup, rfl⟩ := List.mem_map.mp hargs
  have hflags : hasBreak (String.ofList (mode.sign :: List.replicate group.length mode.flag)) =
      false := by
    rw [hasBreak_ofList, List.any_cons, List.any_replicate]
    cases mode <;> split <;> rfl
  have hnicks : group.any hasBreak = false := by
    rw [List.any_eq_false]
    intro nick hnick
    have hmem : nick ∈ uniqueNicks nicknames := by
      have hflat := List.mem_flatten_of_mem hgroup hnick
      rwa [nickGroups_flatten] at hflat
    rw [Bool.not_eq_true]
    exact hn nick (uniqueNicks_subset nicknames nick hmem)
  rw [List.any_cons, List.any_cons, hc, hflags, hnicks]
  rfl

section Calls

variable {ε : Type} [DecidableEq ε] {c : Encoders ε} {name : ε → String} {conn : Connection ε}
  {upper : Char → List Char} {queued : List (Outgoing ε)}

theorem Connection.sendMemberModes_whole {channel : String} {mode : MemberMode}
    {nicknames : List String} (h : conn.sendMemberModes c name channel mode nicknames = .ok queued)
    (hc : hasBreak channel = false) (hn : ∀ nick ∈ nicknames, hasBreak nick = false) :
    ∀ q ∈ queued, q.Whole := by
  obtain ⟨outgoing, hargs, h⟩ := ok_of_bind_ok h
  obtain ⟨-, h⟩ := ok_of_guard_ok h
  cases h
  intro q hq
  obtain ⟨args, hmem, h⟩ := ok_of_mapM_ok hargs q hq
  obtain ⟨o, hchecked, h⟩ := ok_of_bind_ok h
  obtain ⟨⟨⟩, -, h⟩ := ok_of_bind_ok h
  cases h
  apply checkedCommand_whole hchecked
  apply endsInBreak_of_hasBreak
  change hasBreak (stringify "MODE" args) = false
  rw [hasBreak_stringify, modeLines_unbroken hc hn args hmem]
  rfl

/-- Whether a call gives a reason for a `PART` that ends a line. -/
def Call.breaksPart : Call → Bool
  | .partChannel _ (some reason) => endsInBreak reason
  | _ => false

theorem Connection.send_whole (hu : KeepsUnbroken upper) {call : Call}
    (h : conn.send c name upper call = .ok queued) (hp : call.breaksPart = false) :
    ∀ q ∈ queued, q.Whole := by
  unfold send at h
  cases call with
  | command line selected =>
    obtain ⟨o, ho, h⟩ := ok_of_bind_ok h
    exact submit_whole h (withDefaultPartReason_whole (parseSlashCommand_whole hu ho)
      conn.partMessage_whole)
  | partChannel channel reason =>
    obtain ⟨hc, h⟩ := ok_of_guard_ok h
    obtain ⟨o, ho, h⟩ := ok_of_bind_ok h
    have hchannel : hasBreak channel = false := hasBreak_of_validChannel (by simpa using hc)
    refine submit_whole h (withDefaultPartReason_whole ?_ conn.partMessage_whole)
    apply checkedCommand_whole ho
    change endsInBreak (stringify "PART" _) = false
    cases reason with
    | none => exact endsInBreak_stringify "PART" rfl (endsInBreak_of_hasBreak hchannel)
    | some reason =>
      rw [Option.filter_some]
      split
      · exact endsInBreak_stringify "PART" rfl hp
      · exact endsInBreak_stringify "PART" rfl (endsInBreak_of_hasBreak hchannel)
  | joinChannel channel key =>
    obtain ⟨hc, h⟩ := ok_of_guard_ok h
    obtain ⟨hkey, h⟩ := ok_of_guard_ok h
    obtain ⟨o, ho, h⟩ := ok_of_bind_ok h
    have hchannel : hasBreak channel = false := hasBreak_of_validChannel (by simpa using hc)
    refine submit_whole h (checkedCommand_whole ho ?_)
    change endsInBreak (stringify "JOIN" _) = false
    cases key with
    | none => exact endsInBreak_stringify "JOIN" rfl (endsInBreak_of_hasBreak hchannel)
    | some key =>
      have hvalid : hasBreak key = false := hasBreak_of_validChannelKey (by simpa using hkey)
      exact endsInBreak_stringify "JOIN" rfl (endsInBreak_of_hasBreak hvalid)
  | message channel text notice =>
    obtain ⟨hc, h⟩ := ok_of_guard_ok h
    exact sendTo_whole h (hasBreak_of_validChannel (by simpa using hc))
  | privateMessage nickname text notice =>
    obtain ⟨hn, h⟩ := ok_of_guard_ok h
    exact sendTo_whole h (hasBreak_of_validNickname (by simpa using hn))
  | lines target lines notice toUser =>
    obtain ⟨-, h⟩ := ok_of_guard_ok h
    obtain ⟨huser, h⟩ := ok_of_guard_ok h
    obtain ⟨hchannel, h⟩ := ok_of_guard_ok h
    apply sendLines_whole h
    cases toUser with
    | true => exact hasBreak_of_validNickname (by simpa using huser)
    | false => exact hasBreak_of_validChannel (by simpa using hchannel)
  | memberCommand nickname action =>
    obtain ⟨o, ho, h⟩ := ok_of_bind_ok h
    exact submit_whole h (memberOutgoing_whole hu ho)
  | memberModes channel mode nicknames =>
    obtain ⟨hc, h⟩ := ok_of_guard_ok h
    obtain ⟨-, h⟩ := ok_of_guard_ok h
    cases hbad : nicknames.find? fun nick => !validNickname nick with
    | some bad =>
      rw [hbad] at h
      cases h
    | none =>
      rw [hbad] at h
      rw [List.find?_eq_none] at hbad
      exact sendMemberModes_whole h (hasBreak_of_validChannel (by simpa using hc))
        fun nick hnick => hasBreak_of_validNickname (by simpa using hbad nick hnick)
  | changeNickname nickname =>
    obtain ⟨hn, h⟩ := ok_of_guard_ok h
    obtain ⟨o, ho, h⟩ := ok_of_bind_ok h
    have hnick : hasBreak nickname = false := hasBreak_of_validNickname (by simpa using hn)
    refine submit_whole h (checkedCommand_whole ho ?_)
    exact endsInBreak_stringify "NICK" rfl (endsInBreak_of_hasBreak hnick)

/-! ## One line -/

def IsOneLine (m : IrcMessage) : Prop := ∃ body, m.toLine = body ++ "\r\n" ∧ hasBreak body = false

theorem isOneLine_iff {m : IrcMessage} (h : m.head = "") :
    IsOneLine m ↔ hasBreak m.command.toLine = false := by
  have hline : m.toLine = m.command.toLine ++ "\r\n" := by
    rw [IrcMessage.toLine, h, String.empty_append]
  constructor
  · rintro ⟨body, heq, hb⟩
    rw [hline] at heq
    rwa [(String.append_left_inj "\r\n").mp heq]
  · exact fun hb => ⟨_, hline, hb⟩

omit [DecidableEq ε] in
theorem ChatMessage.isOneLine {m : ChatMessage ε} (h : m.Whole) :
    IsOneLine { command := m.command } := by
  rw [isOneLine_iff String.empty_append]
  unfold ChatMessage.command
  split
  · change hasBreak (stringify "NOTICE" [m.target, m.text]) = false
    rw [hasBreak_stringify, List.any_cons, List.any_cons, h.1, h.2]
    rfl
  · change hasBreak (stringify "PRIVMSG" [m.target, m.text]) = false
    rw [hasBreak_stringify, List.any_cons, List.any_cons, h.1, h.2]
    rfl

theorem quit_isOneLine {reason : String} (h : hasBreak reason = false) :
    IsOneLine { command := .quit (some reason) } := by
  rw [isOneLine_iff String.empty_append]
  change hasBreak (stringify "QUIT" [reason]) = false
  rw [hasBreak_stringify, List.any_cons, h]
  rfl

omit [DecidableEq ε] in
theorem standsFor_isOneLine {o : Outgoing ε} {quitMessage token : String} (ho : o.Whole)
    (hq : hasBreak quitMessage = false) (ht : hasBreak token = false) :
    ∀ m ∈ o.standsFor quitMessage token, IsOneLine m := by
  intro m hm
  cases o with
  | message message =>
    rw [List.mem_singleton.mp hm]
    exact ChatMessage.isOneLine ho
  | raw message =>
    rw [List.mem_singleton.mp hm]
    exact (isOneLine_iff ho.1).mpr ho.2
  | lines ms =>
    obtain ⟨message, hmessage, rfl⟩ := List.mem_map.mp hm
    exact ChatMessage.isOneLine (ho message hmessage)
  | ctcp nick tag args =>
    obtain ⟨hnick, htag, hargs⟩ := ho
    rw [List.mem_singleton.mp hm, isOneLine_iff String.empty_append]
    change hasBreak (stringify "PRIVMSG" [nick, ctcpQuote ++ _ ++ ctcpQuote]) = false
    have hquote : hasBreak ctcpQuote = false := rfl
    have hping : hasBreak "PING " = false := by decide
    have hspace : hasBreak " " = false := rfl
    have hverb : hasBreak "PRIVMSG" = false := by decide
    rw [hasBreak_stringify, List.any_cons, List.any_cons, hnick, hverb, hasBreak_append,
      hasBreak_append, hquote]
    split
    · simp [hping, ht]
    split
    · simp [htag]
    · simp [htag, hargs, hspace]
  | quit =>
    rw [List.mem_singleton.mp hm]
    exact quit_isOneLine hq
  | quitWith reason =>
    rw [List.mem_singleton.mp hm]
    exact quit_isOneLine ho
  | sleepQuit reason =>
    rw [List.mem_singleton.mp hm]
    exact quit_isOneLine ho
  | _ => cases hm

theorem partChannel_breaks {channel reason : String}
    (h : conn.send c name upper (.partChannel channel (some reason)) = .ok queued)
    (hr : endsInBreak reason = true) :
    queued = [.raw { command := .part channel (some reason) }] := by
  have hne : reason ≠ "" := by
    rintro rfl
    cases hr
  unfold Connection.send at h
  obtain ⟨-, h⟩ := ok_of_guard_ok h
  obtain ⟨o, ho, h⟩ := ok_of_bind_ok h
  obtain ⟨rfl, -⟩ := checkedCommand_ok ho
  rw [Option.filter_some, if_pos (by simpa using hne)] at h
  exact Connection.submit_ok h

/-- Every call queues messages of one line each, but for a `PART` whose reason ends a line. -/
theorem queued_is_one_line (c : Encoders ε) (name : ε → String) (upper : Char → List Char)
    (hu : KeepsUnbroken upper) (conn : Connection ε) (call : Call) (queued : List (Outgoing ε))
    (h : conn.send c name upper call = .ok queued) (token : String)
    (ht : token.toList.all Char.isAlphanum = true) :
    (∀ o ∈ queued, ∀ m ∈ o.standsFor conn.quitMessage token, IsOneLine m) ↔
      call.breaksPart = false := by
  have htoken : hasBreak token = false := hasBreak_eq_false.mpr fun ch hch =>
    isBreak_of_class (p := Char.isAlphanum) (by decide) (List.all_eq_true.mp ht ch hch)
  constructor
  · intro hlines
    cases call with
    | partChannel channel reason =>
      cases reason with
      | none => rfl
      | some reason =>
        by_contra hb
        rw [Bool.not_eq_false] at hb
        rw [partChannel_breaks h hb] at hlines
        have hline := hlines _ List.mem_cons_self _ List.mem_cons_self
        rw [isOneLine_iff String.empty_append] at hline
        change hasBreak (stringify "PART" [channel, reason]) = false at hline
        rw [hasBreak_stringify, List.any_cons, List.any_cons, hasBreak_of_endsInBreak hb] at hline
        simp at hline
    | _ => rfl
  · exact fun hp o ho => standsFor_isOneLine (Connection.send_whole hu h hp o ho)
      conn.quitMessage_whole htoken

end Calls

/-- A connection that sends UTF-8. -/
def utf8Connection : Connection Bool where
  encoding := "UTF-8"
  charsets := {}
  charRefs := .off
  partMessage := none
  quitMessage := "bye"
  relayPrefix := 82
  modesPerLine := 0
  room := 8
  partMessage_whole := by rintro reason ⟨⟩
  quitMessage_whole := rfl

theorem queued_is_one_line_part : IsOneLine { command := .part "#a" (some "bye") } :=
  (queued_is_one_line utf8Encoders toString (fun ch => [ch])
    (fun ch h d hd => List.mem_singleton.mp hd ▸ h) utf8Connection (.partChannel "#a" (some "bye"))
    [.raw { command := .part "#a" (some "bye") }] (by decide +kernel) "0" (by decide)).mpr rfl _
    List.mem_cons_self _ List.mem_cons_self

/-- A reason that ends a line is trimmed before the check looks, and sent with its end. -/
theorem part_reason_ends_line :
    ¬ ∀ (conn : Connection Bool) (call : Call) (queued : List (Outgoing Bool)),
      conn.send utf8Encoders toString (fun ch => [ch]) call = .ok queued →
      ∀ o ∈ queued, ∀ m ∈ o.standsFor conn.quitMessage "0", IsOneLine m := by
  intro h
  have hline := h utf8Connection (.partChannel "#a" (some "bye\n"))
    [.raw { command := .part "#a" (some "bye\n") }] (by decide +kernel) _ List.mem_cons_self _
    List.mem_cons_self
  rw [isOneLine_iff String.empty_append] at hline
  revert hline
  decide +kernel

end CayenChat.Sending
