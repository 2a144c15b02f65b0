import CayenChat.Modes.Queues

/-! # The flags follow what the server says

After a channel's modes are known, a letter is among its flags exactly when it
was last set, until the stay ends, other letters count as flags, or the names
of two channels become one.
-/

namespace CayenChat.Modes

open Machine ChannelModes

abbrev Mention := Bool × Char

def signed : Bool → List Char → List Mention
  | _, [] => []
  | plus, letter :: letters =>
    if letter = '+' then signed true letters
    else if letter = '-' then signed false letters
    else (plus, letter) :: signed plus letters

/-- The letters of a `MODE` that have signs. -/
def signedModes (changes : List Mode) : List Mention :=
  changes.filterMap fun change =>
    match change with
    | .plus mode _ => some (true, mode.letter)
    | .minus mode _ => some (false, mode.letter)
    | .noPrefix _ => none

def lastSet (mentions : List Mention) (letter : Char) : Bool :=
  ((mentions.filter fun mention => mention.2 = letter).getLast?.map Prod.fst).getD false

/-- The letters of a reply about a channel, from the server itself. -/
def answer (name : String) (mapping : CaseMapping) (message : IrcMessage) (replayed : Bool) :
    Option (List Char) :=
  if replayed then none
  else
    match message.command with
    | .response .rplChannelModeIs args =>
      (args[1]?.filter validChannel).bind fun channel =>
        if mapping.fold channel = mapping.fold name then some (args[2]?.getD "").toList else none
    | _ => none

/-- What a call mentions of the modes of a channel. -/
def mentions (name : String) (t : Tracker) : ModesCall → List Mention
  | .observe message replayed =>
    if replayed then []
    else
      match message.command with
      | .channelMode channel changes =>
        if t.mapping.fold channel = t.mapping.fold name then signedModes changes else []
      | _ => []
  | _ => []

/-- A call after which a channel is in the same stay, with the same letters as flags and no new
reply. -/
def Stays (name : String) (t : Tracker) : ModesCall → Prop
  | .joined channel | .left channel => t.mapping.fold channel ≠ t.mapping.fold name
  | .isupport message => ∀ letter,
    letter ∈ (t.modes.isupport message).notFlags ↔ letter ∈ t.modes.notFlags
  | .observe message replayed => answer name t.mapping message replayed = none
  | .takeQueries _ | .setCasemapping .. => True

def Apart (name : String) (t : Tracker) : ModesCall → Prop
  | .setCasemapping mapping _ => ∀ key entry, t.modes.channels.lookup key = some entry →
    mapping.fold entry.1 = mapping.fold name → entry.1 = name
  | _ => True

/-- The flags of a channel that is tracked under a name follow the mentions since its reply, while
the calls since then meet a condition. -/
def FlagsFollow (C : String → Tracker → ModesCall → Prop) : Prop :=
  ∀ (mapping : CaseMapping) (past since : List ModesCall) (name : String) (message : IrcMessage)
    (letters : List Char),
    Along Tracker.Walks Tracker.call { mapping } (past ++ .observe message false :: since) →
    ((exec Tracker.call { mapping } past).modes.channels.lookup
      ((exec Tracker.call { mapping } past).mapping.fold name)).map Prod.fst = some name →
    answer name (exec Tracker.call { mapping } past).mapping message false = some letters →
    Along (C name) Tracker.call (exec Tracker.call { mapping } (past ++ [.observe message false]))
      since →
    ∃ flags, (exec Tracker.call { mapping } (past ++ .observe message false :: since)).modes.flags
        name (exec Tracker.call { mapping } (past ++ .observe message false :: since)).mapping =
        some (String.ofList flags) ∧
      ∀ letter, letter ∈ flags ↔ letter.isAlpha = true ∧
        letter ∉ (exec Tracker.call { mapping }
          (past ++ .observe message false :: since)).modes.notFlags ∧
        lastSet (signed true letters ++ collect (mentions name) Tracker.call
          (exec Tracker.call { mapping } (past ++ [.observe message false])) since) letter = true

variable {modes : ChannelModes} {flags : List Char} {heard : List Mention} {letter : Char}

/-! ## One mention -/

/-- Flags as the mentions so far leave them. -/
structure Reads (notFlags flags : List Char) (heard : List Mention) : Prop where
  nodup : flags.Nodup
  mem : ∀ letter, letter ∈ flags ↔
    letter.isAlpha = true ∧ letter ∉ notFlags ∧ lastSet heard letter = true

theorem lastSet_concat (heard : List Mention) (plus : Bool) (letter other : Char) :
    lastSet (heard ++ [(plus, letter)]) other = if letter = other then plus else lastSet heard other := by
  unfold lastSet
  rw [List.filter_append]
  split_ifs with h
  · rw [List.filter_cons_of_pos (by simpa using h), List.filter_nil, List.getLast?_concat]
    rfl
  · rw [List.filter_cons_of_neg (by simpa using h), List.filter_nil, List.append_nil]

def alphabet : List Char := (List.range 26).flatMap fun n => [Char.ofNat (n + 65), Char.ofNat (n + 97)]

theorem mem_alphabet (h : letter.isAlpha = true) : letter ∈ alphabet := by
  have hlt : letter.toNat < 123 := by
    unfold Char.isAlpha Char.isUpper Char.isLower at h
    simp only [Bool.or_eq_true, Bool.and_eq_true, decide_eq_true_eq, ge_iff_le,
      UInt32.le_iff_toNat_le] at h
    have h1 : 'Z'.val.toNat = 90 := rfl
    have h2 : 'z'.val.toNat = 122 := rfl
    unfold Char.toNat
    omega
  have hall : ∀ n < 123, (Char.ofNat n).isAlpha = true → Char.ofNat n ∈ alphabet := by
    decide +kernel
  have := hall letter.toNat hlt (by rwa [Char.ofNat_toNat])
  rwa [Char.ofNat_toNat] at this

theorem Reads.length_lt {notFlags : List Char} (h : Reads notFlags flags heard) :
    flags.length < MAX_FLAGS := by
  have hsub : flags ⊆ alphabet := fun letter hl => mem_alphabet ((h.mem letter).mp hl).1
  exact (h.nodup.subperm hsub).length_le.trans_lt (by decide)

theorem Reads.nil {notFlags : List Char} : Reads notFlags [] [] where
  nodup := List.nodup_nil
  mem letter := by simp [lastSet]

theorem Reads.set (h : Reads modes.notFlags flags heard) (plus : Bool) (letter : Char) :
    Reads modes.notFlags (modes.set flags plus letter) (heard ++ [(plus, letter)]) := by
  have hlen := h.length_lt
  unfold ChannelModes.set
  by_cases hno : (!letter.isAlpha || modes.notFlags.contains letter) = true
  · rw [if_pos hno]
    rw [Bool.or_eq_true, Bool.not_eq_true', List.contains_iff_mem] at hno
    have hout : ¬ (letter.isAlpha = true ∧ letter ∉ modes.notFlags) := by
      rintro ⟨ha, hn⟩
      rcases hno with hno | hno
      · rw [hno] at ha
        cases ha
      · exact hn hno
    refine ⟨h.nodup, fun other => ?_⟩
    rw [h.mem, lastSet_concat]
    split_ifs with ho
    · subst ho
      constructor
      · exact fun hr => absurd ⟨hr.1, hr.2.1⟩ hout
      · exact fun hr => absurd ⟨hr.1, hr.2.1⟩ hout
    · rfl
  · rw [if_neg hno]
    rw [Bool.or_eq_true, Bool.not_eq_true', List.contains_iff_mem, not_or,
      Bool.not_eq_false] at hno
    cases plus with
    | true =>
      rw [if_pos rfl]
      by_cases hnew : letter ∈ flags
      · rw [if_neg (by simp [hnew])]
        refine ⟨h.nodup, fun other => ?_⟩
        rw [h.mem, lastSet_concat]
        split_ifs with ho
        · subst ho
          have := (h.mem letter).mp hnew
          simp [this]
        · rfl
      · rw [if_pos (by simp [hnew, hlen])]
        refine ⟨?_, fun other => ?_⟩
        · rw [List.nodup_append]
          refine ⟨h.nodup, List.nodup_singleton _, fun a ha b hb => ?_⟩
          rintro rfl
          exact hnew (List.mem_singleton.mp hb ▸ ha)
        · rw [List.mem_append, List.mem_singleton, h.mem, lastSet_concat]
          split_ifs with ho
          · subst ho
            simp [hno]
          · simp [Ne.symm ho]
    | false =>
      rw [if_neg Bool.false_ne_true]
      refine ⟨h.nodup.filter _, fun other => ?_⟩
      rw [List.mem_filter, bne_iff_ne, h.mem, lastSet_concat]
      split_ifs with ho
      · subst ho
        simp
      · simp [Ne.symm ho]

theorem Reads.apply (h : Reads modes.notFlags flags heard) (plus : Bool) (letters : List Char) :
    Reads modes.notFlags (modes.apply flags plus letters) (heard ++ signed plus letters) := by
  induction letters generalizing flags heard plus with
  | nil =>
    rw [ChannelModes.apply, signed, List.append_nil]
    exact h
  | cons letter letters ih =>
    unfold ChannelModes.apply signed
    split_ifs
    · exact ih h true
    · exact ih h false
    · have hset := ih (h.set plus letter) plus
      rwa [List.append_assoc] at hset

theorem Reads.answered (letters : List Char) :
    Reads modes.notFlags (modes.apply [] true letters) (signed true letters) :=
  Reads.nil.apply true letters

theorem Reads.applyModes (h : Reads modes.notFlags flags heard) (changes : List Mode) :
    Reads modes.notFlags (modes.applyModes flags changes) (heard ++ signedModes changes) := by
  induction changes generalizing flags heard with
  | nil => simpa [ChannelModes.applyModes, signedModes] using h
  | cons change changes ih =>
    cases change with
    | plus mode arg =>
      have hset := ih (h.set true mode.letter)
      rwa [List.append_assoc] at hset
    | minus mode arg =>
      have hset := ih (h.set false mode.letter)
      rwa [List.append_assoc] at hset
    | noPrefix mode => exact ih h

/-! ## The run of a stay -/

def Followed (name : String) (t : Tracker) (heard : List Mention) : Prop :=
  ∃ flags, t.modes.channels.lookup (t.mapping.fold name) = some (name, some flags) ∧
    Reads t.modes.notFlags flags heard

variable {t : Tracker} {name : String} {c : ModesCall}

theorem answer_eq_some {mapping : CaseMapping} {message : IrcMessage} {letters : List Char}
    (h : answer name mapping message false = some letters) :
    ∃ args channel, message.command = .response .rplChannelModeIs args ∧
      args[1]?.filter validChannel = some channel ∧ mapping.fold channel = mapping.fold name ∧
      letters = (args[2]?.getD "").toList := by
  unfold answer at h
  rw [if_neg Bool.false_ne_true] at h
  split at h
  · rename_i args hm
    obtain ⟨channel, hc, h⟩ := Option.bind_eq_some_iff.mp h
    split_ifs at h with hf
    cases h
    exact ⟨args, channel, hm, hc, hf, rfl⟩
  · cases h

theorem followed_answer {message : IrcMessage} {letters : List Char}
    (hl : (t.modes.channels.lookup (t.mapping.fold name)).map Prod.fst = some name)
    (ha : answer name t.mapping message false = some letters) :
    Followed name (t.call (.observe message false)) (signed true letters) := by
  obtain ⟨⟨own, old⟩, hown, rfl⟩ := Option.map_eq_some_iff.mp hl
  obtain ⟨args, channel, hm, hc, hf, rfl⟩ := answer_eq_some ha
  dsimp only at hown hf ⊢
  have hobserve : t.call (.observe message false) =
      { t with modes := (t.modes.observeReply args t.mapping).1 } := by
    unfold Tracker.call
    dsimp only
    rw [ChannelModes.observe, if_neg Bool.false_ne_true, hm]
    rfl
  rw [hobserve]
  unfold observeReply
  rw [hc]
  dsimp only
  rw [hf, hown]
  have hreads := @Reads.answered { t.modes with
    inFlight := t.modes.inFlight.filter fun query => t.mapping.fold query.1 != t.mapping.fold own }
    (args[2]?.getD "").toList
  exact ⟨_, AList.lookup_insert _, hreads⟩

namespace Followed

variable {heard : List Mention}

theorem of_lookup (h : Followed name t heard) {modes : ChannelModes}
    (hl : modes.channels.lookup (t.mapping.fold name) =
      t.modes.channels.lookup (t.mapping.fold name))
    (hn : ∀ letter, letter ∈ modes.notFlags ↔ letter ∈ t.modes.notFlags) :
    Followed name { t with modes := modes } heard := by
  obtain ⟨flags, hf, hr⟩ := h
  refine ⟨flags, hl.trans hf, hr.nodup, fun letter => ?_⟩
  rw [hr.mem, hn]

theorem joined (h : Followed name t heard) {channel : String}
    (hs : t.mapping.fold channel ≠ t.mapping.fold name) :
    Followed name (t.call (.joined channel)) heard := by
  unfold Tracker.call ChannelModes.joined
  dsimp only
  split
  · exact h.of_lookup rfl fun _ => Iff.rfl
  · exact h.of_lookup (AList.lookup_insert_ne (Ne.symm hs)) fun _ => Iff.rfl

theorem left (h : Followed name t heard) {channel : String}
    (hs : t.mapping.fold channel ≠ t.mapping.fold name) :
    Followed name (t.call (.left channel)) heard :=
  h.of_lookup (AList.lookup_erase_ne (Ne.symm hs)) fun _ => Iff.rfl

theorem isupport (h : Followed name t heard) {message : IrcMessage}
    (hs : ∀ letter, letter ∈ (t.modes.isupport message).notFlags ↔ letter ∈ t.modes.notFlags) :
    Followed name (t.call (.isupport message)) heard := by
  refine h.of_lookup ?_ hs
  obtain ⟨list, letters, notFlags, he⟩ := Kept.isupport_eq t.modes message
  rw [he]

theorem reply (h : Followed name t heard) {args : List String}
    (hs : ∀ channel, args[1]?.filter validChannel = some channel →
      t.mapping.fold channel ≠ t.mapping.fold name) :
    Followed name { t with modes := (t.modes.observeReply args t.mapping).1 } heard := by
  unfold observeReply
  split
  · exact h.of_lookup rfl fun _ => Iff.rfl
  · rename_i channel hc
    dsimp only
    split
    · exact h.of_lookup rfl fun _ => Iff.rfl
    · exact h.of_lookup (AList.lookup_insert_ne (Ne.symm (hs channel hc))) fun _ => Iff.rfl

theorem change (h : Followed name t heard) (channel : String) (changes : List Mode) :
    Followed name { t with modes := (t.modes.observeMode channel changes t.mapping).1 }
      (heard ++ if t.mapping.fold channel = t.mapping.fold name then signedModes changes else []) := by
  by_cases hf : t.mapping.fold channel = t.mapping.fold name
  · obtain ⟨flags, hl, hr⟩ := h
    rw [if_pos hf]
    unfold observeMode
    dsimp only
    rw [hf, hl]
    exact ⟨_, AList.lookup_insert _, hr.applyModes changes⟩
  · rw [if_neg hf, List.append_nil]
    unfold observeMode
    dsimp only
    split
    · exact h.of_lookup (AList.lookup_insert_ne (Ne.symm hf)) fun _ => Iff.rfl
    · exact h.of_lookup rfl fun _ => Iff.rfl

theorem observe (h : Followed name t heard) {message : IrcMessage} {replayed : Bool}
    (hs : answer name t.mapping message replayed = none) :
    Followed name (t.call (.observe message replayed))
      (heard ++ mentions name t (.observe message replayed)) := by
  unfold Tracker.call mentions
  dsimp only
  unfold ChannelModes.observe
  unfold answer at hs
  cases replayed with
  | true =>
    rw [if_pos rfl, if_pos rfl, List.append_nil]
    exact h
  | false =>
    rw [if_neg Bool.false_ne_true] at hs ⊢
    rw [if_neg Bool.false_ne_true]
    split
    · rename_i args hm
      have hanswer : (args[1]?.filter validChannel).bind (fun channel =>
          if t.mapping.fold channel = t.mapping.fold name then some (args[2]?.getD "").toList
          else none) = none := by
        rw [hm] at hs
        exact hs
      rw [hm, List.append_nil]
      refine h.reply fun channel hc hf => ?_
      rw [hc, Option.bind_some, if_pos hf] at hanswer
      cases hanswer
    · rename_i channel changes hm
      rw [hm]
      exact h.change channel changes
    · rename_i hno hno'
      split
      · rename_i channel changes hm
        exact absurd hm (hno' channel changes)
      · rw [List.append_nil]
        exact h

/-- The names of different channels differ, so the entry of a name is the only one of its key
under a mapping that keeps the other names apart. -/
theorem shared (hk : Kept t) {mapping : CaseMapping} {order : List Entry} {entry : Entry}
    (hl : t.modes.channels.lookup (t.mapping.fold entry.1) = some entry)
    (hw : order.Perm (Map.values t.modes.channels))
    (ha : Apart entry.1 t (.setCasemapping mapping order)) :
    (refold mapping order).lookup (mapping.fold entry.1) = some entry := by
  rw [lookup_refold]
  have hmem : ∀ other ∈ order.filter (fun other => mapping.fold other.1 = mapping.fold entry.1),
      other = entry := by
    intro other ho
    obtain ⟨ho, hf⟩ := List.mem_filter.mp ho
    obtain ⟨key, hkey⟩ := Map.mem_values.mp (hw.mem_iff.mp ho)
    have hname := ha key other hkey (by simpa using hf)
    have hkey' := hk.own key other hkey
    rw [hname] at hkey'
    rw [← hkey', hl] at hkey
    exact (Option.some.inj hkey).symm
  have hin : entry ∈ order.filter (fun other => mapping.fold other.1 = mapping.fold entry.1) :=
    List.mem_filter.mpr ⟨hw.mem_iff.mpr (Map.mem_values.mpr ⟨_, hl⟩), by simp⟩
  have hnodup : order.Nodup := by
    rw [hw.nodup_iff]
    refine Map.pairwise_values fun {a b v w} ha hb hab => ?_
    rintro rfl
    exact hab ((hk.own a v ha).symm.trans (hk.own b v hb))
  have hone : order.filter (fun other => mapping.fold other.1 = mapping.fold entry.1) =
      [entry] := by
    apply List.perm_singleton.mp
    rw [List.perm_ext_iff_of_nodup (hnodup.filter _) (List.nodup_singleton _)]
    intro other
    rw [List.mem_singleton]
    constructor
    · exact hmem other
    · rintro rfl
      exact hin
  rw [hone]
  rfl

theorem setCasemapping (h : Followed name t heard) (hk : Kept t) {mapping : CaseMapping}
    {order : List Entry} (hw : order.Perm (Map.values t.modes.channels))
    (ha : Apart name t (.setCasemapping mapping order)) :
    Followed name (t.call (.setCasemapping mapping order)) heard := by
  obtain ⟨flags, hl, hr⟩ := h
  have hlook := @shared t hk mapping order (name, some flags) hl hw ha
  exact ⟨flags, hlook, hr⟩

theorem call (h : Followed name t heard) (hk : Kept t) (hw : t.Walks c) (hs : Stays name t c)
    (ha : Apart name t c) : Followed name (t.call c) (heard ++ mentions name t c) := by
  cases c with
  | joined channel => exact (List.append_nil heard).symm ▸ h.joined hs
  | left channel => exact (List.append_nil heard).symm ▸ h.left hs
  | isupport message => exact (List.append_nil heard).symm ▸ h.isupport hs
  | observe message replayed => exact h.observe hs
  | takeQueries now =>
    exact (List.append_nil heard).symm ▸ h.of_lookup rfl fun _ => Iff.rfl
  | setCasemapping mapping order =>
    exact (List.append_nil heard).symm ▸ h.setCasemapping hk hw ha

theorem exec {calls : List ModesCall} (h : Followed name t heard) (hk : Kept t)
    (hw : Along Tracker.Walks Tracker.call t calls)
    (hs : Along (fun t c => Stays name t c ∧ Apart name t c) Tracker.call t calls) :
    Followed name (Machine.exec Tracker.call t calls)
      (heard ++ collect (mentions name) Tracker.call t calls) := by
  induction calls generalizing t heard with
  | nil =>
    rw [collect_nil, List.append_nil]
    exact h
  | cons c calls ih =>
    obtain ⟨hc, hs⟩ := hs
    obtain ⟨hwc, hw⟩ := hw
    rw [collect_cons, ← List.append_assoc]
    exact ih (h.call hk hwc hc.1 hc.2) (hk.call hwc) hw hs

theorem flags_eq (h : Followed name t heard) : ∃ flags,
    t.modes.flags name t.mapping = some (String.ofList flags) ∧ ∀ letter, letter ∈ flags ↔
      letter.isAlpha = true ∧ letter ∉ t.modes.notFlags ∧ lastSet heard letter = true := by
  obtain ⟨flags, hl, hr⟩ := h
  refine ⟨flags, ?_, hr.mem⟩
  unfold ChannelModes.flags
  rw [hl]
  rfl

end Followed

/-! ## The results -/

/-- In every run the tables of the modes are bounded and within each other, and the flags of a
channel follow its mentions while the names of the channels stay apart. -/
theorem modes_bounded_and_followed :
    (∀ (mapping : CaseMapping) (calls : List ModesCall),
      Along Tracker.Walks Tracker.call { mapping } calls →
      ∃ t, exec Tracker.call { mapping } calls = t ∧
        t.modes.channels.entries.length ≤ MAX_TRACKED ∧
        (∀ name ∈ t.modes.pending,
          (t.modes.channels.lookup (t.mapping.fold name)).map Prod.fst = some name) ∧
        (t.modes.pending.map t.mapping.fold).Nodup ∧
        t.modes.inFlight.length ≤ MAX_IN_FLIGHT ∧
        ∀ now, (t.modes.takeQueries now).1.pending ≠ [] →
          (t.modes.takeQueries now).1.nextDeadline.isSome = true) ∧
    FlagsFollow fun name t c => Stays name t c ∧ Apart name t c := by
  constructor
  · intro mapping calls hw
    have hk := (Kept.default mapping).exec hw
    refine ⟨_, rfl, hk.tracked, fun name hn => ?_, hk.once, hk.unanswered,
      fun now hp => nextDeadline_isSome _ now hp⟩
    obtain ⟨flags, hl⟩ := hk.queued name hn
    rw [hl]
    rfl
  · intro mapping past since name message letters hw hl ha hs
    rw [along_append, along_cons] at hw
    obtain ⟨hpast, hobserve, hsince⟩ := hw
    have hk := (Kept.default mapping).exec hpast
    have hfirst := followed_answer hl ha
    rw [exec_append, exec_append, exec_cons, exec_cons, exec_nil]
    rw [exec_append, exec_cons, exec_nil] at hs
    exact (hfirst.exec (hk.call hobserve) hsince hs).flags_eq

def locking : List ModesCall × IrcMessage × List ModesCall :=
  ([.joined "#x"], { command := .response .rplChannelModeIs ["me", "#x", "+n"] },
    [.observe { command := .channelMode "#X" [.plus .protectedTopic none] } false])

theorem topic_lock_followed : ∃ flags,
    (exec Tracker.call {} (locking.1 ++ .observe locking.2.1 false :: locking.2.2)).modes.flags
      "#x" (exec Tracker.call {}
        (locking.1 ++ .observe locking.2.1 false :: locking.2.2)).mapping =
      some (String.ofList flags) ∧ ∀ letter, letter ∈ flags ↔ letter.isAlpha = true ∧
        letter ∉ (exec Tracker.call {}
          (locking.1 ++ .observe locking.2.1 false :: locking.2.2)).modes.notFlags ∧
        lastSet (signed true ['+', 'n'] ++ collect (mentions "#x") Tracker.call
          (exec Tracker.call {} (locking.1 ++ [.observe locking.2.1 false])) locking.2.2)
          letter = true :=
  modes_bounded_and_followed.2 default locking.1 locking.2.2 "#x" locking.2.1 ['+', 'n']
    ⟨trivial, trivial, trivial, trivial⟩ (by decide +kernel) (by decide +kernel)
    ⟨⟨rfl, trivial⟩, trivial⟩

/-- Two channels are joined, the modes of the first are told, and their names become one. -/
def merging : List ModesCall × IrcMessage × List ModesCall :=
  ([.joined "#x[", .joined "#x\x7b"],
    { command := .response .rplChannelModeIs ["me", "#x[", "+n"] },
    [.setCasemapping .rfc1459 [("#x[", some ['n']), ("#x\x7b", none)]])

/-- The modes of a channel that is merged with another become unknown. -/
theorem merged_modes_unknown : ¬ FlagsFollow Stays := by
  intro h
  have hwalks : [("#x[", some ['n']), ("#x\x7b", none)].Perm (Map.values
      (exec Tracker.call { mapping := .ascii }
        (merging.1 ++ [.observe merging.2.1 false])).modes.channels) := by
    decide +kernel
  obtain ⟨flags, hf, -⟩ := h .ascii merging.1 merging.2.2 "#x[" merging.2.1 ['+', 'n']
    ⟨trivial, trivial, trivial, hwalks, trivial⟩ (by decide +kernel) (by decide +kernel)
    ⟨trivial, trivial⟩
  have hnone : (exec Tracker.call { mapping := .ascii }
      (merging.1 ++ .observe merging.2.1 false :: merging.2.2)).modes.flags "#x["
        (exec Tracker.call { mapping := .ascii }
          (merging.1 ++ .observe merging.2.1 false :: merging.2.2)).mapping = none := by
    decide +kernel
  rw [hnone] at hf
  cases hf

end CayenChat.Modes
