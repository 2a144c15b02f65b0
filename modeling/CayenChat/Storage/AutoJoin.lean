import CayenChat.Storage.Profile

/-! # The channels to join

The list of a server's channels as it is kept in the settings: one text, where a leading hyphen
marks a channel that is not joined. Writing and reading it keeps every entry that has a name.
-/

namespace CayenChat.Storage

/-- A channel of the list, and whether it is joined when connecting. -/
structure AutoJoinEntry where
  name : String
  enabled : Bool
  deriving DecidableEq, Repr

def disabledPrefix : Char := '-'

def readItem (item : String) : Option AutoJoinEntry :=
  let (name, enabled) := match stripFirst disabledPrefix item with
    | some name => (trim name, false)
    | none => (item, true)
  if name ≠ "" then some ⟨name, enabled⟩ else none

def parseAutoJoin (text : String) : List AutoJoinEntry :=
  ((splitChar ',' text).map trim).filterMap readItem

def cleanName (name : String) : String :=
  trimStartMatches [disabledPrefix]
    (String.ofList (name.toList.filter fun c => !isWhitespace c && c != ','))

def writeItem (entry : AutoJoinEntry) : Option String :=
  let name := cleanName entry.name
  if name ≠ "" then
    some (if entry.enabled then name else String.ofList [disabledPrefix] ++ name)
  else none

def formatAutoJoin (entries : List AutoJoinEntry) : String :=
  joinWith "," (entries.filterMap writeItem)

namespace ServerProfile

def autoJoinEntries (profile : ServerProfile) : List AutoJoinEntry := parseAutoJoin profile.channels

def setAutoJoinEntries (profile : ServerProfile) (entries : List AutoJoinEntry) : ServerProfile :=
  { profile with channels := formatAutoJoin entries }

end ServerProfile

variable {entries : List AutoJoinEntry} {entry : AutoJoinEntry} {name : String} {c : Char}

/-! ## Cleaned names -/

/-- A name the list keeps as it is. -/
structure CleanName (name : String) : Prop where
  nonempty : name ≠ ""
  shown : ∀ c ∈ name.toList, isWhitespace c = false ∧ c ≠ ','
  unmarked : name.toList.head? ≠ some disabledPrefix

theorem cleanName_chars (h : c ∈ (cleanName name).toList) : isWhitespace c = false ∧ c ≠ ',' := by
  rw [cleanName, trimStartMatches, String.toList_ofList, String.toList_ofList] at h
  simpa using (List.mem_filter.mp ((List.dropWhile_sublist _).mem h)).2

theorem cleanName_head (name : String) : (cleanName name).toList.head? ≠ some disabledPrefix := by
  intro h
  rw [cleanName, trimStartMatches, String.toList_ofList, String.toList_ofList] at h
  have := List.head?_dropWhile_not [disabledPrefix].contains
    (name.toList.filter fun c => !isWhitespace c && c != ',')
  rw [h] at this
  simp at this

theorem cleanName_listed (h : cleanName name ≠ "") : CleanName (cleanName name) where
  nonempty := h
  shown _ := cleanName_chars
  unmarked := cleanName_head name

theorem CleanName.cleanName_eq (h : CleanName name) : cleanName name = name := by
  have hfilter : name.toList.filter (fun c => !isWhitespace c && c != ',') = name.toList := by
    apply List.filter_eq_self.mpr
    intro c hc
    simpa using h.shown c hc
  have hdrop : name.toList.dropWhile [disabledPrefix].contains = name.toList := by
    cases hname : name.toList with
    | nil => rfl
    | cons c cs =>
      apply List.dropWhile_cons_of_neg
      have := h.unmarked
      rw [hname] at this
      simpa using this
  rw [cleanName, hfilter, String.ofList_toList, trimStartMatches, hdrop, String.ofList_toList]

theorem cleanName_idem (name : String) : cleanName (cleanName name) = cleanName name := by
  by_cases h : cleanName name = ""
  · rw [h]
    rfl
  · exact (cleanName_listed h).cleanName_eq

/-! ## Reading what was written -/

def itemText (entry : AutoJoinEntry) : String :=
  if entry.enabled then entry.name else String.ofList [disabledPrefix] ++ entry.name

def cleaned (entries : List AutoJoinEntry) : List AutoJoinEntry :=
  (entries.filter fun entry => cleanName entry.name ≠ "").map fun entry =>
    ⟨cleanName entry.name, entry.enabled⟩

theorem filterMap_writeItem (entries : List AutoJoinEntry) :
    entries.filterMap writeItem = (cleaned entries).map itemText := by
  induction entries with
  | nil => rfl
  | cons entry entries ih =>
    by_cases h : cleanName entry.name = ""
    · simpa [cleaned, writeItem, h] using ih
    · simpa [cleaned, writeItem, itemText, h] using ih

theorem cleaned_listed (h : entry ∈ cleaned entries) : CleanName entry.name := by
  obtain ⟨source, hsource, rfl⟩ := List.mem_map.mp h
  apply cleanName_listed
  simpa using (List.mem_filter.mp hsource).2

theorem CleanName.itemText_chars (h : CleanName entry.name) (hc : c ∈ (itemText entry).toList) :
    isWhitespace c = false ∧ c ≠ ',' := by
  unfold itemText at hc
  split_ifs at hc
  · exact h.shown c hc
  · rw [String.toList_append, String.toList_ofList, List.singleton_append] at hc
    rcases List.mem_cons.mp hc with rfl | hc
    · decide
    · exact h.shown c hc

theorem CleanName.readItem_itemText (h : CleanName entry.name) :
    readItem (trim (itemText entry)) = some entry := by
  rw [trim_eq_self fun c hc => (h.itemText_chars hc).1]
  have htrim : trim entry.name = entry.name := trim_eq_self fun c hc => (h.shown c hc).1
  cases entry with
  | mk name enabled =>
    cases enabled
    · have hstrip := stripFirst_append disabledPrefix name
      have hname : itemText ⟨name, false⟩ = String.ofList [disabledPrefix] ++ name := rfl
      rw [hname, readItem, hstrip]
      exact (if_pos (by rw [htrim]; exact h.nonempty)).trans (by rw [htrim])
    · have hmark : stripFirst disabledPrefix name = none := by
        apply Option.eq_none_iff_forall_ne_some.mpr
        intro rest hrest
        rw [stripFirst_eq_some] at hrest
        apply h.unmarked
        simp [hrest]
      simp [itemText, readItem, hmark, h.nonempty]

theorem toList_joinWith (sep : String) (items : List String) :
    (joinWith sep items).toList = sep.toList.intercalate (items.map String.toList) := by
  induction items with
  | nil => rfl
  | cons item items ih =>
    cases items with
    | nil => simp [joinWith]
    | cons next items => simp_all [joinWith, List.intercalate, List.append_assoc]

theorem splitChar_joinWith {items : List String} (hne : items ≠ [])
    (h : ∀ item ∈ items, ∀ c ∈ item.toList, c ≠ ',') : splitChar ',' (joinWith "," items) = items := by
  have hitems : ∀ l ∈ items.map String.toList, ',' ∉ l := by
    simpa using fun item hitem hc => h item hitem ',' hc rfl
  have hsplit := List.splitOn_intercalate ',' hitems (by simpa using hne)
  rw [List.splitOn_eq_splitOnP] at hsplit
  have hcomma : ",".toList = [','] := rfl
  rw [splitChar, toList_joinWith, hcomma, hsplit, List.map_map]
  simp [Function.comp_def]

theorem parse_format (entries : List AutoJoinEntry) :
    parseAutoJoin (formatAutoJoin entries) = cleaned entries := by
  have hlisted : ∀ entry ∈ cleaned entries, CleanName entry.name := fun _ => cleaned_listed
  rw [parseAutoJoin, formatAutoJoin, filterMap_writeItem]
  by_cases hne : cleaned entries = []
  · rw [hne]
    decide
  · have hchars : ∀ item ∈ (cleaned entries).map itemText, ∀ c ∈ item.toList, c ≠ ',' := by
      rintro item hitem c hc
      obtain ⟨entry, hentry, rfl⟩ := List.mem_map.mp hitem
      exact ((hlisted entry hentry).itemText_chars hc).2
    rw [splitChar_joinWith (by simpa using hne) hchars, List.map_map, List.filterMap_map]
    generalize cleaned entries = list at hlisted ⊢
    induction list with
    | nil => rfl
    | cons entry list ih =>
      obtain ⟨hentry, hlist⟩ := List.forall_mem_cons.mp hlisted
      have hread : (readItem ∘ trim ∘ itemText) entry = some entry := by
        simpa only [Function.comp_apply] using hentry.readItem_itemText
      rw [List.filterMap_cons_some hread, ih hlist]

/-! ## Writing what was read -/

def rewritten (text : String) : String := formatAutoJoin (parseAutoJoin text)

theorem cleaned_idem (entries : List AutoJoinEntry) : cleaned (cleaned entries) = cleaned entries := by
  induction entries with
  | nil => rfl
  | cons entry entries ih =>
    by_cases h : cleanName entry.name = ""
    · simpa [cleaned, h] using ih
    · simpa [cleaned, h, cleanName_idem] using ih

theorem format_cleaned (entries : List AutoJoinEntry) :
    formatAutoJoin (cleaned entries) = formatAutoJoin entries := by
  rw [formatAutoJoin, filterMap_writeItem, cleaned_idem, ← filterMap_writeItem, formatAutoJoin]

theorem rewritten_idem (text : String) : rewritten (rewritten text) = rewritten text := by
  rw [rewritten, rewritten, parse_format, format_cleaned]

def SameChoice (before after : AutoJoinEntry) : Prop :=
  after.name = cleanName before.name ∧ after.enabled = before.enabled

theorem sameChoice_cleaned (entries : List AutoJoinEntry) :
    List.Forall₂ SameChoice (entries.filter fun entry => cleanName entry.name ≠ "")
      (cleaned entries) := by
  rw [cleaned, List.forall₂_map_right_iff, List.forall₂_same]
  intro entry _
  exact ⟨rfl, rfl⟩

example : rewritten " #a ,, - #b,--#c , -, # d" = "#a,-#b,-#c,#d" := by decide +kernel

end CayenChat.Storage
