import CayenChat.Sending.Outgoing
import CayenChat.Wire.Parse

/-! # Texts without line breaks

A serialized command holds a line break exactly when one of its fields does,
and reading a line puts no character into the fields that is not in the line.
-/

namespace CayenChat

variable {s t : String} {l : List Char} {args : List String} {upper : Char → List Char}

theorem hasBreak_eq_false : hasBreak s = false ↔ ∀ ch ∈ s.toList, isBreak ch = false :=
  List.any_eq_false.trans (by simp)

@[simp] theorem hasBreak_append : hasBreak (s ++ t) = (hasBreak s || hasBreak t) := by
  simp [hasBreak]

@[simp] theorem hasBreak_ofList : hasBreak (String.ofList l) = l.any isBreak := by
  simp [hasBreak]

theorem hasBreak_of_subset (h : hasBreak s = false) (hs : ∀ ch ∈ t.toList, ch ∈ s.toList) :
    hasBreak t = false :=
  hasBreak_eq_false.mpr fun ch hch => hasBreak_eq_false.mp h ch (hs ch hch)

theorem hasBreak_joinWith : hasBreak (joinWith " " args) = args.any hasBreak := by
  fun_induction joinWith " " args with
  | case1 => rfl
  | case2 a => simp
  | case3 a rest hne ih =>
    rw [hasBreak_append, hasBreak_append, ih, List.any_cons]
    exact congrArg (· || _) (Bool.or_false _)

theorem hasBreak_stringify (cmd : String) :
    hasBreak (stringify cmd args) = (hasBreak cmd || args.any hasBreak) := by
  obtain rfl | ⟨init, suffix, rfl⟩ := List.eq_nil_or_concat args
  · exact (Bool.or_false _).symm
  · unfold stringify
    rw [List.concat_eq_append, List.getLast?_concat, List.dropLast_concat]
    dsimp only
    have hsep : hasBreak (if joinWith " " init = "" then "" else " ") = false := by
      split <;> rfl
    have hcolon : hasBreak (if suffix = "" ∨ suffix.toList.contains ' ' ∨
        startsWithAny [':'] suffix then ":" else "") = false := by
      split <;> rfl
    simp only [hasBreak_append, hsep, hcolon, hasBreak_joinWith, List.any_append, List.any_cons,
      List.any_nil, Bool.or_false, Bool.or_assoc]
    rfl

theorem isControl_of_isBreak {c : Char} (h : isBreak c = true) : isControl c = true := by
  simp only [isBreak, Bool.or_eq_true, beq_iff_eq] at h
  rcases h with (rfl | rfl) | h
  · rfl
  · rfl
  · simp [isControl, h]

theorem hasBreak_of_isControl (h : ∀ ch ∈ s.toList, isControl ch = false) : hasBreak s = false :=
  hasBreak_eq_false.mpr fun ch hch => Bool.eq_false_iff.mpr fun hb =>
    Bool.false_ne_true ((h ch hch).symm.trans (isControl_of_isBreak hb))

theorem hasBreak_of_validChannel (h : validChannel s = true) : hasBreak s = false := by
  simp only [validChannel, Bool.and_eq_true, Bool.not_eq_true', List.any_eq_false,
    Bool.or_eq_true, not_or, Bool.not_eq_true] at h
  exact hasBreak_of_isControl fun ch hch => (h.2 ch hch).1.2

theorem hasBreak_of_validNickname (h : validNickname s = true) : hasBreak s = false := by
  simp only [validNickname, Bool.and_eq_true, Bool.not_eq_true', List.any_eq_false,
    Bool.or_eq_true, not_or, Bool.not_eq_true] at h
  exact hasBreak_of_isControl fun ch hch => (h.2 ch hch).1.1.2

/-! ## Reading -/

theorem hasBreak_capToStr (sub : CapSubCommand) : hasBreak sub.toStr = false := by
  cases sub <;> rfl

def KeepsUnbroken (upper : Char → List Char) : Prop :=
  ∀ ch, isBreak ch = false → ∀ d ∈ upper ch, isBreak d = false

theorem hasBreak_batchKind (hu : KeepsUnbroken upper) (hs : hasBreak s = false) :
    hasBreak (BatchSubCommand.parse upper s).toStr = false := by
  unfold BatchSubCommand.parse
  split
  · rfl
  split
  · rfl
  · change hasBreak (String.ofList _) = false
    rw [hasBreak_ofList, List.any_eq_false]
    intro d hd
    obtain ⟨ch, hch, hd⟩ := List.mem_flatMap.mp hd
    exact Bool.not_eq_true _ ▸ hu ch (hasBreak_eq_false.mp hs ch hch) d hd

theorem hasBreak_foldl_flag (modes : List Mode) (line : String) :
    hasBreak (modes.foldl (fun line mode => line ++ mode.flag) line) =
      (hasBreak line || modes.any fun mode => hasBreak mode.flag) := by
  induction modes generalizing line with
  | nil => exact (Bool.or_false _).symm
  | cons mode modes ih => rw [List.foldl_cons, ih, hasBreak_append, List.any_cons, Bool.or_assoc]

theorem hasBreak_foldl_arg (args : List String) (line : String) :
    hasBreak (args.foldl (fun line arg => line ++ " " ++ arg) line) =
      (hasBreak line || args.any hasBreak) := by
  induction args generalizing line with
  | nil => exact (Bool.or_false _).symm
  | cons arg args ih =>
    have hspace : hasBreak " " = false := rfl
    rw [List.foldl_cons, ih, hasBreak_append, hasBreak_append, List.any_cons, hspace,
      Bool.or_false, Bool.or_assoc]

def Mode.Unbroken (mode : Mode) : Prop :=
  hasBreak mode.flag = false ∧ ∀ arg ∈ mode.arg, hasBreak arg = false

theorem hasBreak_channelMode {channel : String} {modes : List Mode} (hc : hasBreak channel = false)
    (hm : ∀ mode ∈ modes, mode.Unbroken) :
    hasBreak (IrcCommand.channelMode channel modes).toLine = false := by
  have hflags : (modes.any fun mode => hasBreak mode.flag) = false :=
    List.any_eq_false.mpr fun mode h => Bool.not_eq_true _ ▸ (hm mode h).1
  have hargs : (modes.filterMap Mode.arg).any hasBreak = false := by
    rw [List.any_eq_false]
    intro arg h
    obtain ⟨mode, hmode, harg⟩ := List.mem_filterMap.mp h
    exact Bool.not_eq_true _ ▸ (hm mode hmode).2 arg harg
  have hverb : hasBreak "MODE " = false := rfl
  have hspace : hasBreak " " = false := rfl
  rw [IrcCommand.toLine, hasBreak_foldl_arg, hasBreak_foldl_flag, hargs, hflags, hasBreak_append,
    hasBreak_append, hc, hverb, hspace]
  rfl

theorem PlusMinus.mode_unbroken (sign : PlusMinus) {mode : ChannelMode} {arg : Option String}
    (hl : isBreak mode.letter = false) (ha : ∀ a ∈ arg, hasBreak a = false) :
    (sign.mode mode arg).Unbroken := by
  have hletter : hasBreak mode.letter.toString = false := by
    simp [hasBreak, hl]
  cases sign with
  | plus => exact ⟨by rw [PlusMinus.mode, Mode.flag, hasBreak_append, hletter]; rfl, ha⟩
  | minus => exact ⟨by rw [PlusMinus.mode, Mode.flag, hasBreak_append, hletter]; rfl, ha⟩
  | noPrefix => exact ⟨hletter, by rintro a ⟨⟩⟩

theorem modesOf_unbroken {ofChar : Char → ChannelMode} {takesArg : ChannelMode → Bool}
    (hof : ∀ c, (ofChar c).letter = c) {sign : PlusMinus} {cs : List Char} {args : List String}
    (hc : ∀ c ∈ cs, isBreak c = false) (ha : ∀ a ∈ args, hasBreak a = false) :
    ∀ mode ∈ modesOf ofChar takesArg sign cs args, mode.Unbroken := by
  fun_induction modesOf ofChar takesArg sign cs args with
  | case1 => simp
  | case2 _ cs _ ih => exact ih (fun c h => hc c (List.mem_cons_of_mem _ h)) ha
  | case3 _ cs _ _ ih => exact ih (fun c h => hc c (List.mem_cons_of_mem _ h)) ha
  | case4 sign c cs args _ _ _ ih =>
    have hletter : isBreak (ofChar c).letter = false := by
      rw [hof]
      exact hc c List.mem_cons_self
    rw [List.forall_mem_cons]
    exact ⟨sign.mode_unbroken hletter fun a h => ha a (List.mem_of_mem_head? h),
      ih (fun c h => hc c (List.mem_cons_of_mem _ h)) fun a h => ha a (List.mem_of_mem_tail h)⟩
  | case5 sign c cs args _ _ _ ih =>
    have hletter : isBreak (ofChar c).letter = false := by
      rw [hof]
      exact hc c List.mem_cons_self
    rw [List.forall_mem_cons]
    exact ⟨sign.mode_unbroken hletter (by rintro a ⟨⟩),
      ih (fun c h => hc c (List.mem_cons_of_mem _ h)) ha⟩

theorem letter_ofChar (c : Char) : (ChannelMode.ofChar c).letter = c := by
  unfold ChannelMode.ofChar
  split <;> rfl

theorem parseModes_unbroken {ofChar : Char → ChannelMode} {takesArg : ChannelMode → Bool}
    (hof : ∀ c, (ofChar c).letter = c) {pieces : List String}
    (ha : ∀ a ∈ pieces, hasBreak a = false) :
    ∀ mode ∈ parseModes ofChar takesArg pieces, mode.Unbroken := by
  obtain _ | ⟨first, rest⟩ := pieces
  · rintro mode ⟨⟩
  · exact modesOf_unbroken hof (hasBreak_eq_false.mp (ha first List.mem_cons_self))
      fun a h => ha a (List.mem_cons_of_mem _ h)

theorem capCommand_unbroken {m : IrcCommand} (h : capCommand args = some m)
    (ha : ∀ a ∈ args, hasBreak a = false) : hasBreak m.toLine = false := by
  have hcap : hasBreak "CAP" = false := rfl
  unfold capCommand at h
  split at h
  · obtain ⟨sub, -, rfl⟩ := Option.map_eq_some_iff.mp h
    simp [IrcCommand.toLine, hasBreak_stringify, hasBreak_capToStr, hcap]
  · split at h
    · cases h
      simp_all [IrcCommand.toLine, hasBreak_stringify, hasBreak_capToStr]
    · obtain ⟨sub, -, rfl⟩ := Option.map_eq_some_iff.mp h
      simp_all [IrcCommand.toLine, hasBreak_stringify, hasBreak_capToStr]
  · split at h
    · cases h
      simp_all [IrcCommand.toLine, hasBreak_stringify, hasBreak_capToStr]
    · obtain ⟨sub, -, rfl⟩ := Option.map_eq_some_iff.mp h
      simp_all [IrcCommand.toLine, hasBreak_stringify, hasBreak_capToStr]
  · obtain ⟨sub, -, rfl⟩ := Option.map_eq_some_iff.mp h
    simp_all [IrcCommand.toLine, hasBreak_stringify, hasBreak_capToStr]
  · cases h

theorem hasBreak_metadataSubCommand (h : metadataSubCommand s = some t) : hasBreak t = false := by
  have hm := List.mem_of_find?_eq_some h
  simp only [List.mem_cons, List.not_mem_nil, or_false] at hm
  obtain rfl | rfl | rfl | rfl := hm <;> rfl

theorem metadataCommand_unbroken {m : IrcCommand} (h : metadataCommand args = some m)
    (ha : ∀ a ∈ args, hasBreak a = false) : hasBreak m.toLine = false := by
  have hverb : hasBreak "METADATA" = false := rfl
  unfold metadataCommand at h
  split at h
  · obtain ⟨sub, hs, rfl⟩ := Option.map_eq_some_iff.mp h
    have := hasBreak_metadataSubCommand hs
    simp_all [IrcCommand.toLine, hasBreak_stringify]
  · split at h
    · rename_i hs
      have := hasBreak_metadataSubCommand hs
      cases h
      simp_all [IrcCommand.toLine, hasBreak_stringify]
    · split at h
      · cases h
        simp_all [IrcCommand.toLine, hasBreak_stringify]
      · cases h
  · cases h

theorem readCommand_unbroken (hu : KeepsUnbroken upper) {verb : String} {m : IrcCommand}
    (h : readCommand upper verb args = some m) (hv : hasBreak verb = false)
    (ha : ∀ a ∈ args, hasBreak a = false) : hasBreak m.toLine = false := by
  have hstar : hasBreak "*" = false := rfl
  have hoper : hasBreak "o" = false := rfl
  have hhost : hasBreak "USERHOST" = false := rfl
  have hkind : ∀ k, hasBreak k = false → hasBreak (BatchSubCommand.parse upper k).toStr = false :=
    fun k => hasBreak_batchKind hu
  unfold readCommand at h
  split at h
  case h_5 target pieces =>
    obtain rfl := Option.some.inj h
    rw [List.forall_mem_cons] at ha
    apply hasBreak_channelMode ha.1
    split
    · exact parseModes_unbroken letter_ofChar ha.2
    · exact parseModes_unbroken (fun _ => rfl) ha.2
  case h_22 target o =>
    obtain rfl := Option.some.inj h
    split <;> simp_all [IrcCommand.toLine, hasBreak_stringify]
  case h_30 => exact capCommand_unbroken h ha
  case h_33 => exact metadataCommand_unbroken h ha
  case h_37 =>
    split at h
    · obtain rfl := Option.some.inj h
      rw [IrcCommand.toLine, hasBreak_stringify, hv, Bool.false_or, List.any_eq_false]
      exact fun a h => Bool.not_eq_true _ ▸ ha a h
    · cases h
  -- What is written is the name and arguments that were read.
  all_goals
    obtain rfl := Option.some.inj h
    simp_all [IrcCommand.toLine, hasBreak_stringify]

theorem isBreak_of_le {c : Char} (h : 32 ≤ c.toNat) : isBreak c = false := by
  rw [Bool.eq_false_iff]
  intro hb
  simp only [isBreak, Bool.or_eq_true, beq_iff_eq] at hb
  rcases hb with (rfl | rfl) | hb
  · exact absurd h (by decide)
  · exact absurd h (by decide)
  · omega

theorem isBreak_toUpper {c : Char} (h : isBreak c = false) : isBreak c.toUpper = false := by
  unfold Char.toUpper
  split
  · rename_i hlower
    have hle : 97 ≤ c.val.toNat := UInt32.le_iff_toNat_le.mp hlower.1
    have hlt : c.val.toNat ≤ 122 := UInt32.le_iff_toNat_le.mp hlower.2
    have hshift : ('A'.val - 'a'.val).toNat = 2 ^ 32 - 32 := rfl
    apply isBreak_of_le
    change 32 ≤ (c.val + ('A'.val - 'a'.val)).toNat
    rw [UInt32.toNat_add, hshift]
    omega
  · exact h

theorem newCommand_unbroken (hu : KeepsUnbroken upper) {cmd : String}
    (hc : hasBreak cmd = false) (ha : ∀ a ∈ args, hasBreak a = false) :
    hasBreak (newCommand upper cmd args).toLine = false := by
  unfold newCommand
  cases h : readCommand upper (toAsciiUppercase cmd) args with
  | some m =>
    refine readCommand_unbroken hu h ?_ ha
    unfold toAsciiUppercase
    rw [hasBreak_ofList, List.any_map, List.any_eq_false]
    exact fun ch hch => Bool.not_eq_true _ ▸ isBreak_toUpper (hasBreak_eq_false.mp hc ch hch)
  | none =>
    change hasBreak (stringify cmd args) = false
    rw [hasBreak_stringify, hc, Bool.false_or, List.any_eq_false]
    exact fun a h => Bool.not_eq_true _ ▸ ha a h

/-! ## Lines -/

theorem splitSuffix_subset {cs before after : List Char} (h : splitSuffix cs = some (before, after)) :
    (∀ ch ∈ before, ch ∈ cs) ∧ ∀ ch ∈ after, ch ∈ cs := by
  induction cs generalizing before after with
  | nil => cases h
  | cons c cs ih =>
    rw [splitSuffix] at h
    split at h
    · rename_i hc
      cases h
      constructor
      · intro ch hch
        rw [List.mem_singleton.mp hch, hc.1]
        exact List.mem_cons_self
      · exact fun ch hch => List.mem_cons_of_mem _ (List.mem_of_mem_tail hch)
    · obtain ⟨⟨before', after'⟩, hs, he⟩ := Option.map_eq_some_iff.mp h
      cases he
      obtain ⟨hb, ha⟩ := ih hs
      constructor
      · exact fun ch hch => List.mem_cons.mpr ((List.mem_cons.mp hch).imp_right (hb ch))
      · exact fun ch hch => List.mem_cons_of_mem _ (ha ch hch)

theorem splitN_subset {c : Char} {n : ℕ} {cs : List Char} :
    ∀ part ∈ splitN c n cs, ∀ ch ∈ part, ch ∈ cs := by
  fun_induction splitN c n cs with
  | case1 => rintro part ⟨⟩
  | case2 cs =>
    intro part hp ch hch
    rwa [List.mem_singleton.mp hp] at hch
  | case3 n cs _ =>
    intro part hp ch hch
    rwa [List.mem_singleton.mp hp] at hch
  | case4 n cs d rest hrest ih =>
    have hsub : ∀ ch ∈ rest, ch ∈ cs := fun ch hch =>
      (List.dropWhile_sublist _).mem (hrest ▸ List.mem_cons_of_mem d hch)
    intro part hp ch hch
    rcases List.mem_cons.mp hp with rfl | hp
    · exact (List.takeWhile_sublist _).mem hch
    · exact hsub ch (ih part hp ch hch)

theorem withoutLineEnd_subset {cs : List Char} : ∀ ch ∈ withoutLineEnd cs, ch ∈ cs := by
  intro ch hch
  unfold withoutLineEnd at hch
  split at hch
  · exact List.dropLast_subset _ (List.dropLast_subset _ hch)
  split at hch
  · exact List.dropLast_subset _ hch
  · exact hch

theorem splitTrailing_subset {cs : List Char} : (∀ ch ∈ (splitTrailing cs).1, ch ∈ cs) ∧
    ∀ suffix ∈ (splitTrailing cs).2, ∀ ch ∈ suffix, ch ∈ cs := by
  unfold splitTrailing
  split
  · rename_i before after hs
    obtain ⟨hb, ha⟩ := splitSuffix_subset hs
    refine ⟨hb, ?_⟩
    rintro suffix ⟨⟩ ch hch
    exact ha ch (withoutLineEnd_subset ch hch)
  · exact ⟨withoutLineEnd_subset, by rintro suffix ⟨⟩⟩

theorem parseMessage_unbroken (hu : KeepsUnbroken upper) {line : String} {m : IrcMessage}
    (h : parseMessage upper line = .ok m) (hl : hasBreak line = false) :
    m.head = "" ∧ hasBreak m.command.toLine = false := by
  have hpart : ∀ part : List Char, (∀ ch ∈ part, ch ∈ line.toList) →
      hasBreak (String.ofList part) = false := fun part hp =>
    hasBreak_of_subset hl (by simpa using hp)
  obtain ⟨hstate, hsuffix⟩ : (∀ ch ∈ (splitTrailing line.toList).1, ch ∈ line.toList) ∧ _ :=
    splitTrailing_subset
  unfold parseMessage at h
  dsimp only at h
  split at h
  · cases h
  split at h
  · cases h
  · rw [← Except.ok.inj h]
    refine ⟨String.empty_append, ?_⟩
    dsimp only
    refine newCommand_unbroken hu (hpart _ fun ch hch => ?_) fun a ha => ?_
    · exact hstate ch ((List.takeWhile_sublist _).mem hch)
    · obtain ⟨part, hpart', rfl⟩ := List.mem_map.mp ha
      apply hpart
      intro ch hch
      rcases List.mem_append.mp hpart' with hp | hp
      · have hrest := splitN_subset part (List.mem_of_mem_filter hp) ch hch
        exact hstate ch ((List.dropWhile_sublist _).mem (List.mem_of_mem_tail hrest))
      · exact hsuffix part (Option.mem_toList.mp hp) ch hch

end CayenChat
