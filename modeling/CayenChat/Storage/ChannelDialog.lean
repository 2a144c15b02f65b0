import CayenChat.Storage.AutoJoin
import CayenChat.Storage.Looks
import CayenChat.Wire.Names

/-! # The settings of one channel

What the dialog of a channel shows of the settings, and what saving it writes: the encodings, the
look of the log and whether the channel is joined when connecting.
-/

namespace CayenChat.Storage
open Appearance (isLookOf)

/-! ## The dialog -/

namespace ServerProfile

def channelCharset (profile : ServerProfile) (channel : String) (same : String → String → Bool) :
    Option ChannelCharset :=
  profile.channelCharsets.find? fun entry => same entry.channel channel

/-- Replaces the override of a channel; nothing that differs removes it. -/
def setChannelCharset (profile : ServerProfile) (channel : String)
    (decode encode : Option TextEncoding) (charRefs : Option CharRefMode)
    (same : String → String → Bool) : ServerProfile × Except String Unit :=
  if !validCharsetChannel channel then (profile, .error "Invalid channel name.")
  else
    let charsets := profile.channelCharsets
    match charsets.findIdx? fun entry => same entry.channel channel,
      decode.isNone && encode.isNone && charRefs.isNone with
    | some row, true => ({ profile with channelCharsets := charsets.eraseIdx row }, .ok ())
    | none, true => (profile, .ok ())
    | some row, false =>
      ({ profile with
          channelCharsets := charsets.modify row fun entry =>
            { entry with decode, encode, charRefs } },
        .ok ())
    | none, false =>
      if maxChannelCharsets ≤ charsets.length then
        (profile, .error "At most 256 channels can have their own character encoding.")
      else
        ({ profile with channelCharsets := charsets ++ [{ channel, decode, encode, charRefs }] },
          .ok ())

end ServerProfile

def Appearance.channelLook (self : Appearance) (server channel : String)
    (same : String → String → Bool) : Option ChannelLook :=
  self.channelLooks.find? (isLookOf same server channel)

/-- What the dialog holds for a channel. -/
@[ext]
structure Choices where
  enabled : Bool
  decode : Option TextEncoding
  encode : Option TextEncoding
  charRefs : Option CharRefMode
  deriving DecidableEq

def Choices.unset (choices : Choices) : Bool :=
  choices.decode.isNone && choices.encode.isNone && choices.charRefs.isNone

/-- What a profile holds for a channel now. -/
def Choices.of (profile : ServerProfile) (channel : String) (mapping : CaseMapping) : Choices :=
  let saved := profile.channelCharset channel mapping.same
  { enabled := profile.autoJoinEntries.any fun entry =>
      entry.enabled && mapping.same entry.name channel
    decode := saved.bind (·.decode)
    encode := saved.bind (·.encode)
    charRefs := saved.bind (·.charRefs) }

def channelEncodingsAllowed (utf8Only : Bool) (decode encode : Option TextEncoding) : Bool :=
  !utf8Only || (decode.toList ++ encode.toList).all (· = .utf8)

/-- Writes the encodings of a channel; `refusal` is the text for a server that takes only UTF-8. -/
def applyCharsets (profile : ServerProfile) (channel : String) (mapping : CaseMapping)
    (choices : Choices) (utf8Only : Bool) (refusal : String) : ServerProfile × Except String Unit :=
  if !channelEncodingsAllowed utf8Only choices.decode choices.encode then (profile, .error refusal)
  else
    profile.setChannelCharset channel choices.decode choices.encode choices.charRefs mapping.same

def markedEntries (entries : List AutoJoinEntry) (channel : String) (mapping : CaseMapping)
    (enabled : Bool) : List AutoJoinEntry :=
  let marked := entries.map fun entry =>
    if mapping.same entry.name channel then { entry with enabled } else entry
  if entries.any (fun entry => mapping.same entry.name channel) || !enabled then marked
  else marked ++ [⟨channel, true⟩]

def applyAutoJoin (profile : ServerProfile) (channel : String) (mapping : CaseMapping)
    (enabled : Bool) : ServerProfile × String :=
  let text := formatAutoJoin (markedEntries profile.autoJoinEntries channel mapping enabled)
  ({ profile with channels := trim text }, text)

/-- The settings the dialog writes to. -/
structure DialogSettings where
  appearance : Appearance
  servers : List ServerProfile

def DialogSettings.profileAt (s : DialogSettings) (id : String) : Option (ℕ × ServerProfile) :=
  (s.servers.findIdx? (·.id = id)).bind fun row => s.servers[row]?.map (row, ·)

/-- Saves what the dialog holds. -/
def saveChannelChoices (s : DialogSettings) (profileId channel : String) (mapping : CaseMapping)
    (choices : Choices) (look : ChannelLook) (utf8Only : Bool) (refusal : String) :
    DialogSettings × Except String ServerProfile :=
  let look := { look with server := profileId, channel }
  let oldLooks := s.appearance.channelLooks
  match s.appearance.setChannelLook look mapping.same with
  | (appearance, .error e) => ({ s with appearance }, .error e)
  | (appearance, .ok ()) =>
    match s.profileAt profileId with
    | none =>
      ({ s with appearance := { appearance with channelLooks := oldLooks } },
        .error ("unknown server profile: " ++ profileId))
    | some (row, profile) =>
      match applyCharsets profile channel mapping choices utf8Only refusal with
      | (profile, .error e) =>
        ({ appearance := { appearance with channelLooks := oldLooks }
           servers := s.servers.set row profile }, .error e)
      | (profile, .ok ()) =>
        let profile := (applyAutoJoin profile channel mapping choices.enabled).1
        ({ appearance, servers := s.servers.set row profile }, .ok profile)

variable {profile profile' : ServerProfile} {channel other server refusal : String}
  {decode encode : Option TextEncoding} {charRefs : Option CharRefMode}
  {same : String → String → Bool} {mapping : CaseMapping} {a : Appearance} {look : ChannelLook}
  {entries : List AutoJoinEntry} {entry : AutoJoinEntry} {enabled utf8Only : Bool}
  {choices : Choices} {s : DialogSettings} {profileId : String} {row i : ℕ}

/-! ## The lists by channel -/

theorem setChannelCharset_spec :
    (∃ e, profile.setChannelCharset channel decode encode charRefs same = (profile, .error e)) ∨
      ∃ charsets, First.Put (fun entry => same entry.channel channel)
          (!(decode.isNone && encode.isNone && charRefs.isNone))
          (fun entry => { entry with decode, encode, charRefs })
          { channel, decode, encode, charRefs } profile.channelCharsets charsets ∧
        profile.setChannelCharset channel decode encode charRefs same =
          ({ profile with channelCharsets := charsets }, .ok ()) := by
  unfold ServerProfile.setChannelCharset
  split_ifs with hvalid
  · exact .inl ⟨_, rfl⟩
  · dsimp only
    split
    · rename_i hrow hunset
      exact .inr ⟨_, .removed hrow (by simp [hunset]), rfl⟩
    · rename_i hrow hunset
      exact .inr ⟨_, .nothing hrow (by simp [hunset]), rfl⟩
    · rename_i hrow hunset
      exact .inr ⟨_, .replaced hrow (by simp [hunset]), rfl⟩
    · rename_i hrow hunset
      split_ifs
      · exact .inl ⟨_, rfl⟩
      · exact .inr ⟨_, .added hrow (by simp [hunset]), rfl⟩

theorem setChannelLook_spec :
    (∃ e, a.setChannelLook look same = (a, .error e)) ∨
      ∃ looks, validCharsetChannel look.channel = true ∧
        First.Put (isLookOf same look.server look.channel) look.clean.isSet (fun _ => look.clean)
          look.clean a.channelLooks looks ∧
        a.setChannelLook look same = ({ a with channelLooks := looks }, .ok ()) := by
  unfold Appearance.setChannelLook
  cases hvalid : validCharsetChannel look.channel with
  | false => exact .inl ⟨_, rfl⟩
  | true =>
    rw [if_neg (by simp)]
    dsimp only
    split
    · rename_i hrow hset
      rw [List.set_eq_modify]
      exact .inr ⟨_, rfl, .replaced hrow hset, rfl⟩
    · rename_i hrow hset
      exact .inr ⟨_, rfl, .removed hrow hset, rfl⟩
    · rename_i hrow hset
      split_ifs
      · exact .inl ⟨_, rfl⟩
      · exact .inr ⟨_, rfl, .added hrow hset, rfl⟩
    · rename_i hrow hset
      exact .inr ⟨_, rfl, .nothing hrow hset, rfl⟩

def PutCharset (channel : String) (mapping : CaseMapping) (choices : Choices) :
    List ChannelCharset → List ChannelCharset → Prop :=
  First.Put (fun entry => mapping.same entry.channel channel) (!choices.unset)
    (fun entry => { entry with
      decode := choices.decode, encode := choices.encode, charRefs := choices.charRefs })
    { channel, decode := choices.decode, encode := choices.encode, charRefs := choices.charRefs }

def PutLook (mapping : CaseMapping) (look : ChannelLook) :
    List ChannelLook → List ChannelLook → Prop :=
  First.Put (isLookOf mapping.same look.server look.channel) look.clean.isSet (fun _ => look.clean)
    look.clean

theorem applyCharsets_spec :
    (∃ e, applyCharsets profile channel mapping choices utf8Only refusal = (profile, .error e)) ∨
      ∃ charsets, PutCharset channel mapping choices profile.channelCharsets charsets ∧
        applyCharsets profile channel mapping choices utf8Only refusal =
          ({ profile with channelCharsets := charsets }, .ok ()) := by
  unfold applyCharsets
  split_ifs
  · exact .inl ⟨_, rfl⟩
  · exact setChannelCharset_spec

/-! ## The list of channels to join -/

theorem validCharsetChannel_clean (h : validCharsetChannel channel = true) : CleanName channel := by
  simp only [validCharsetChannel, plainName, Bool.and_eq_true, Bool.not_eq_true'] at h
  obtain ⟨⟨-, hstart⟩, hplain⟩ := h
  have hhead : ∃ c cs, channel.toList = c :: cs ∧ c ∈ ['#', '&', '!'] := by
    unfold startsWithAny at hstart
    split at hstart
    · cases hstart
    · exact ⟨_, _, ‹_›, by simpa using hstart⟩
  obtain ⟨c, cs, hlist, hc⟩ := hhead
  refine ⟨?_, fun d hd => ?_, ?_⟩
  · rintro rfl
    simp at hlist
  · have := List.any_eq_false.mp hplain d hd
    simp only [Bool.or_eq_true, not_or, beq_iff_eq] at this
    exact ⟨by simpa using this.1.2, this.2⟩
  · rw [hlist]
    rintro h
    cases h
    simp [disabledPrefix] at hc

theorem cleaned_eq_self (h : ∀ entry ∈ entries, CleanName entry.name) :
    cleaned entries = entries := by
  induction entries with
  | nil => rfl
  | cons entry entries ih =>
    obtain ⟨hentry, hentries⟩ := List.forall_mem_cons.mp h
    rw [cleaned, List.filter_cons_of_pos (by simp [hentry.cleanName_eq, hentry.nonempty]),
      List.map_cons, hentry.cleanName_eq, ← cleaned, ih hentries]

theorem trim_formatAutoJoin (entries : List AutoJoinEntry) :
    trim (formatAutoJoin entries) = formatAutoJoin entries := by
  refine trim_eq_self fun c hc => ?_
  have hlisted : ∀ entry ∈ cleaned entries, CleanName entry.name := fun _ => cleaned_listed
  rw [formatAutoJoin, filterMap_writeItem, toList_joinWith] at hc
  generalize cleaned entries = list at hlisted hc
  induction list with
  | nil => simp at hc
  | cons entry list ih =>
    obtain ⟨hentry, hlist⟩ := List.forall_mem_cons.mp hlisted
    cases list with
    | nil => exact (hentry.itemText_chars (by simpa using hc)).1
    | cons next list =>
      simp only [List.map_cons, List.intercalate_cons_cons, List.mem_append] at hc ih
      obtain (hc | hc) | hc := hc
      · exact (hentry.itemText_chars hc).1
      · rw [List.mem_singleton.mp hc]
        decide
      · exact ih hlist hc

theorem markedEntries_eq (entries : List AutoJoinEntry) (channel : String) (mapping : CaseMapping)
    (enabled : Bool) : ∃ added, markedEntries entries channel mapping enabled =
      (entries.map fun entry =>
        if mapping.same entry.name channel then { entry with enabled } else entry) ++ added ∧
      ∀ entry ∈ added, entry = ⟨channel, true⟩ := by
  unfold markedEntries
  dsimp only
  split_ifs
  · exact ⟨[], (List.append_nil _).symm, by simp⟩
  · exact ⟨_, rfl, by simp⟩

@[simp] theorem applyAutoJoin_id :
    (applyAutoJoin profile channel mapping enabled).1.id = profile.id := by
  rw [applyAutoJoin]

@[simp] theorem applyAutoJoin_channelCharsets :
    (applyAutoJoin profile channel mapping enabled).1.channelCharsets = profile.channelCharsets := by
  rw [applyAutoJoin]

theorem autoJoinEntries_applyAutoJoin (hchannel : CleanName channel)
    (hlisted : ∀ entry ∈ profile.autoJoinEntries, CleanName entry.name) :
    (applyAutoJoin profile channel mapping enabled).1.autoJoinEntries =
      markedEntries profile.autoJoinEntries channel mapping enabled := by
  rw [ServerProfile.autoJoinEntries, applyAutoJoin, trim_formatAutoJoin, parse_format]
  apply cleaned_eq_self
  obtain ⟨added, heq, hadded⟩ := markedEntries_eq profile.autoJoinEntries channel mapping enabled
  rw [heq]
  intro entry hentry
  obtain hentry | hentry := List.mem_append.mp hentry
  · obtain ⟨old, hold, rfl⟩ := List.mem_map.mp hentry
    split_ifs <;> exact hlisted old hold
  · rw [hadded entry hentry]
    exact hchannel

theorem markedEntries_any_self :
    (markedEntries entries channel mapping enabled).any
      (fun entry => entry.enabled && mapping.same entry.name channel) = enabled := by
  have hmap : (entries.map fun entry =>
      if mapping.same entry.name channel then { entry with enabled } else entry).any
        (fun entry => entry.enabled && mapping.same entry.name channel) =
      (enabled && entries.any fun entry => mapping.same entry.name channel) := by
    rw [List.any_map, List.and_any_distrib_left]
    congr 1
    funext entry
    cases h : mapping.same entry.name channel <;> simp [h]
  unfold markedEntries
  dsimp only
  split_ifs with h
  · rw [hmap]
    cases enabled <;> simp_all
  · rw [List.any_append, hmap]
    cases enabled <;> simp_all

theorem markedEntries_getElem? (hother : mapping.same entry.name channel = false) :
    (markedEntries entries channel mapping enabled)[i]? = some entry ↔
      entries[i]? = some entry := by
  obtain ⟨added, heq, hadded⟩ := markedEntries_eq entries channel mapping enabled
  rw [heq, List.getElem?_append, List.length_map]
  split_ifs with hi
  · rw [List.getElem?_map, Option.map_eq_some_iff]
    constructor
    · rintro ⟨old, hold, hnew⟩
      split_ifs at hnew with hsame
      · rw [← hnew] at hother
        exact absurd hsame (by simpa using hother)
      · rw [hold, hnew]
    · intro hold
      exact ⟨entry, hold, by rw [hother]; rfl⟩
  · rw [List.getElem?_eq_none (by omega : entries.length ≤ i)]
    refine iff_of_false (fun h => ?_) (by simp)
    rw [hadded entry (List.mem_of_getElem? h)] at hother
    simp at hother

/-! ## Saving -/

theorem profileAt_eq_some (h : s.profileAt profileId = some (row, profile)) :
    s.servers.findIdx? (·.id = profileId) = some row ∧ s.servers[row]? = some profile := by
  obtain ⟨place, hplace, hprofile⟩ := Option.bind_eq_some_iff.mp h
  obtain ⟨found, hfound, heq⟩ := Option.map_eq_some_iff.mp hprofile
  obtain ⟨rfl, rfl⟩ := Prod.mk.inj heq
  exact ⟨hplace, hfound⟩

theorem profileAt_set (h : s.profileAt profileId = some (row, profile))
    (hid : profile'.id = profile.id) :
    DialogSettings.profileAt ⟨a, s.servers.set row profile'⟩ profileId = some (row, profile') := by
  obtain ⟨hrow, hprofile⟩ := profileAt_eq_some h
  obtain ⟨hlt, hmatch, hbefore⟩ := List.findIdx?_eq_some_iff_getElem.mp hrow
  have hfound : profile = s.servers[row] := by simpa [hlt] using hprofile.symm
  have hset : (s.servers.set row profile').findIdx? (·.id = profileId) = some row := by
    refine List.findIdx?_eq_some_iff_getElem.mpr ⟨by simpa using hlt, ?_, fun j hj => ?_⟩
    · simpa [hid, hfound] using hmatch
    · rw [List.getElem_set_of_ne (by omega)]
      exact hbefore j hj
  simp [DialogSettings.profileAt, hset, hlt]

theorem saveChannelChoices_spec :
    (∃ e, saveChannelChoices s profileId channel mapping choices look utf8Only refusal =
        (s, .error e)) ∨
      ∃ looks row profile profile', s.profileAt profileId = some (row, profile) ∧
        profile'.id = profile.id ∧
        PutLook mapping { look with server := profileId, channel } s.appearance.channelLooks looks ∧
        PutCharset channel mapping choices profile.channelCharsets profile'.channelCharsets ∧
        ((∀ entry ∈ profile.autoJoinEntries, CleanName entry.name) → profile'.autoJoinEntries =
          markedEntries profile.autoJoinEntries channel mapping choices.enabled) ∧
        saveChannelChoices s profileId channel mapping choices look utf8Only refusal =
          (⟨{ s.appearance with channelLooks := looks }, s.servers.set row profile'⟩,
            .ok profile') := by
  unfold saveChannelChoices
  dsimp only
  obtain ⟨e, he⟩ | ⟨looks, hvalid, hlooks, hok⟩ := @setChannelLook_spec mapping.same s.appearance
    { look with server := profileId, channel }
  · rw [he]
    exact .inl ⟨e, rfl⟩
  · rw [hok]
    dsimp only
    cases hprofile : s.profileAt profileId with
    | none => exact .inl ⟨_, rfl⟩
    | some found =>
      obtain ⟨row, profile⟩ := found
      dsimp only
      obtain ⟨e, he⟩ | ⟨charsets, hcharsets, hok⟩ :=
        @applyCharsets_spec profile channel refusal mapping utf8Only choices
      · obtain ⟨hlt, hget⟩ := List.getElem?_eq_some_iff.mp (profileAt_eq_some hprofile).2
        have hservers : s.servers.set row profile = s.servers := by
          rw [← hget, List.set_getElem_self]
        rw [he]
        dsimp only
        rw [hservers]
        exact .inl ⟨e, rfl⟩
      · rw [hok]
        have hentries := @autoJoinEntries_applyAutoJoin { profile with channelCharsets := charsets }
          channel mapping choices.enabled (validCharsetChannel_clean hvalid)
        have hsame : ({ profile with channelCharsets := charsets } : ServerProfile).autoJoinEntries =
            profile.autoJoinEntries := rfl
        rw [hsame] at hentries
        refine .inr ⟨looks, row, profile, (applyAutoJoin { profile with channelCharsets := charsets }
          channel mapping choices.enabled).1, rfl, ?_, hlooks, ?_, hentries, rfl⟩
        · rw [applyAutoJoin_id]
        · rw [applyAutoJoin_channelCharsets]
          exact hcharsets

/-! ## What is read back -/

theorem same_other (hother : mapping.same other channel = false) {name : String}
    (h : mapping.same name channel = true) : mapping.same name other = false := by
  rw [Bool.eq_false_iff, ne_eq, CaseMapping.same_iff] at hother ⊢
  intro hname
  exact hother (hname.symm.trans (CaseMapping.same_iff.mp h))

theorem Choices.of_enabled_congr {before after : List AutoJoinEntry}
    (h : ∀ (i : ℕ) (entry : AutoJoinEntry), mapping.same entry.name other = true →
      (after[i]? = some entry ↔ before[i]? = some entry)) :
    (after.any fun entry => entry.enabled && mapping.same entry.name other) =
      before.any fun entry => entry.enabled && mapping.same entry.name other := by
  rw [Bool.eq_iff_iff, List.any_eq_true, List.any_eq_true]
  simp only [Bool.and_eq_true, List.mem_iff_getElem?]
  constructor
  · rintro ⟨entry, ⟨i, hi⟩, hon, hsame⟩
    exact ⟨entry, ⟨i, (h i entry hsame).mp hi⟩, hon, hsame⟩
  · rintro ⟨entry, ⟨i, hi⟩, hon, hsame⟩
    exact ⟨entry, ⟨i, (h i entry hsame).mpr hi⟩, hon, hsame⟩

theorem PutCharset.read_back {before after : List ChannelCharset}
    (h : PutCharset channel mapping choices before after) (hone : choices.unset = true →
      (before.filter fun entry => mapping.same entry.channel channel).length ≤ 1) :
    let saved := after.find? fun entry => mapping.same entry.channel channel
    saved.bind (·.decode) = choices.decode ∧ saved.bind (·.encode) = choices.encode ∧
      saved.bind (·.charRefs) = choices.charRefs := by
  rw [First.Put.find?_self h (fun _ => id) (CaseMapping.same_self ..)
    (fun hput => hone (by simpa using hput))]
  cases hunset : choices.unset with
  | true =>
    simp only [Choices.unset, Bool.and_eq_true, Option.isNone_iff_eq_none] at hunset
    obtain ⟨⟨hdecode, hencode⟩, hrefs⟩ := hunset
    rw [hdecode, hencode, hrefs]
    exact ⟨rfl, rfl, rfl⟩
  | false =>
    cases before.find? fun entry => mapping.same entry.channel channel <;> exact ⟨rfl, rfl, rfl⟩

/-- What the dialog saves is what is read back, and the other channels keep what they have; an
error writes nothing. -/
theorem dialog_writes_what_it_shows (s : DialogSettings) (profileId channel : String)
    (mapping : CaseMapping) (choices : Choices) (look : ChannelLook) (utf8Only : Bool)
    (refusal : String) :
    let saved := saveChannelChoices s profileId channel mapping choices look utf8Only refusal
    let kept := ({ look with server := profileId, channel } : ChannelLook).clean
    let of := isLookOf mapping.same profileId channel
    (∀ e, saved.2 = .error e → saved.1 = s) ∧
    ∀ profile', saved.2 = .ok profile' → ∃ (row : ℕ) (profile : ServerProfile),
      s.profileAt profileId = some (row, profile) ∧
      saved.1.profileAt profileId = some (row, profile') ∧
      saved.1.servers = s.servers.set row profile' ∧
      ((∀ entry ∈ profile.autoJoinEntries, CleanName entry.name) →
        (choices.unset = true →
          (profile.channelCharsets.filter fun entry =>
            mapping.same entry.channel channel).length ≤ 1) →
        (kept.isSet = false → (s.appearance.channelLooks.filter of).length ≤ 1) →
        Choices.of profile' channel mapping = choices ∧
        saved.1.appearance.channelLook profileId channel mapping.same =
          (if kept.isSet = true then some kept else none)) ∧
      ∀ other, mapping.same other channel = false →
        (∀ server, saved.1.appearance.channelLook server other mapping.same =
          s.appearance.channelLook server other mapping.same) ∧
        profile'.channelCharset other mapping.same = profile.channelCharset other mapping.same ∧
        ((∀ entry ∈ profile.autoJoinEntries, CleanName entry.name) →
          Choices.of profile' other mapping = Choices.of profile other mapping ∧
          ∀ (i : ℕ) (entry : AutoJoinEntry), mapping.same entry.name other = true →
            (profile'.autoJoinEntries[i]? = some entry ↔
              profile.autoJoinEntries[i]? = some entry)) := by
  intro saved kept of
  obtain ⟨e, he⟩ | ⟨looks, row, profile, profile', hprofile, hid, hlooks, hcharsets, hentries,
    hok⟩ := @saveChannelChoices_spec channel refusal mapping look utf8Only choices s profileId
  · have hsaved : saved = (s, .error e) := he
    refine ⟨fun _ _ => by rw [hsaved], fun profile' h => ?_⟩
    rw [hsaved] at h
    cases h
  · have hsaved : saved = _ := hok
    refine ⟨fun e h => ?_, fun given h => ?_⟩
    · rw [hsaved] at h
      cases h
    rw [hsaved] at h ⊢
    cases h
    have hself : isLookOf mapping.same profileId channel kept = true := by
      simp [kept, isLookOf, ChannelLook.clean]
    have hcharset : ∀ other, mapping.same other channel = false →
        profile'.channelCharset other mapping.same = profile.channelCharset other mapping.same :=
      fun other hother => First.Put.find?_other hcharsets (fun _ => id) (CaseMapping.same_self ..)
        fun entry => same_other hother
    refine ⟨row, profile, hprofile, profileAt_set hprofile hid, rfl,
      fun hlisted hone hlook => ⟨?_, ?_⟩,
      fun other hother => ⟨fun server => ?_, hcharset other hother, fun hlisted => ?_⟩⟩
    · obtain ⟨hdecode, hencode, hrefs⟩ := hcharsets.read_back hone
      refine Choices.ext ?_ hdecode hencode hrefs
      rw [Choices.of, hentries hlisted]
      exact markedEntries_any_self
    · refine (First.Put.find?_self hlooks (fun _ _ => hself) hself hlook).trans ?_
      cases s.appearance.channelLooks.find? of <;> rfl
    · refine First.Put.find?_other hlooks (fun _ _ => hself) hself fun look hl => ?_
      have hsame : mapping.same look.channel channel = true := by
        simp only [isLookOf, Bool.and_eq_true] at hl
        exact hl.2
      rw [isLookOf, same_other hother hsame, Bool.and_false]
    · have hplace : ∀ (i : ℕ) (entry : AutoJoinEntry), mapping.same entry.name other = true →
          (profile'.autoJoinEntries[i]? = some entry ↔
            profile.autoJoinEntries[i]? = some entry) := by
        intro i entry hentry
        rw [hentries hlisted]
        refine markedEntries_getElem? ?_
        rw [CaseMapping.same_comm] at hother
        exact same_other hother hentry
      refine ⟨?_, hplace⟩
      rw [Choices.of, Choices.of, hcharset other hother, Choices.of_enabled_congr hplace]

/-- A look is kept within its bounds, and a name that cannot be written leaves the list, so the
channels after it move up. -/
theorem saving_cleans :
    let server := { ServerProfile.new "p" "irc" with channels := "--,#b" }
    let look : ChannelLook := { server := "p", channel := "#a", wallpaperOpacity := some 150 }
    let saved := saveChannelChoices ⟨{}, [server]⟩ "p" "#a" .rfc1459 ⟨false, none, none, none⟩ look
      false ""
    Appearance.normalize {} = {} ∧ server.cleanChannelCharsets = server ∧
      saved.1.appearance.channelLook "p" "#a" CaseMapping.rfc1459.same ≠ some look ∧
      server.autoJoinEntries[1]? = some ⟨"#b", true⟩ ∧
      saved.2.toOption.map (·.autoJoinEntries) = some [⟨"#b", true⟩] := by
  decide +kernel

end CayenChat.Storage
