import CayenChat.Members.Participants

/-! # Chosen members

Members of one conversation are chosen by clicks on rows and kept by folded nickname. With every
roster those who are not in it are forgotten.
-/

namespace CayenChat.Members

/-- What a click on a row asks for. -/
inductive Click where
  | only
  | toggle
  | range
  deriving DecidableEq

structure MemberSelection where
  conversation : Option ℕ := none
  chosen : List String := []
  anchor : Option String := none

namespace MemberSelection

def entered (self : MemberSelection) (conversation : ℕ) : MemberSelection :=
  if self.conversation ≠ some conversation then { conversation := some conversation } else self

def rowOf (entries : List String) (key : String) : Option ℕ :=
  entries.findIdx? fun member => keyOf member = key

def keysBetween (entries : List String) (one other : ℕ) : List String :=
  ((entries.drop (min one other)).take (max one other - min one other + 1)).map keyOf

def click (self : MemberSelection) (conversation : ℕ) (entries : List String) (index : ℕ)
    (click : Click) : MemberSelection :=
  match entries[index]? with
  | none => self
  | some entry =>
    let self := self.entered conversation
    let key := keyOf entry
    match click with
    | .only => { self with chosen := [key], anchor := some key }
    | .toggle =>
      { self with
        chosen :=
          match self.chosen.idxOf? key with
          | some position => self.chosen.eraseIdx position
          | none => self.chosen ++ [key]
        anchor := some key }
    | .range =>
      let row := (self.anchor.bind (rowOf entries)).getD index
      { self with chosen := keysBetween entries row index }

def anchorIndex (self : MemberSelection) (conversation : ℕ) (entries : List String) : Option ℕ :=
  if self.conversation ≠ some conversation then none else self.anchor.bind (rowOf entries)

def clear (_ : MemberSelection) : MemberSelection := {}

def contains (self : MemberSelection) (conversation : ℕ) (entry : String) : Bool :=
  self.conversation = some conversation && self.chosen.contains (keyOf entry)

/-- Forgets chosen members who are not in a roster. -/
def retainPresent (self : MemberSelection) (conversation : ℕ) (members : List String) :
    MemberSelection :=
  if self.conversation ≠ some conversation ∨ (self.chosen.isEmpty ∧ self.anchor.isNone) then self
  else
    let present := members.map keyOf
    { self with
      chosen := self.chosen.filter present.contains
      anchor := self.anchor.filter present.contains }

def count (self : MemberSelection) (conversation : ℕ) : ℕ :=
  if self.conversation = some conversation then self.chosen.length else 0

def nicknames (self : MemberSelection) (conversation : ℕ) (entries : List String) : List String :=
  if self.conversation ≠ some conversation then []
  else (entries.map nickname).filter fun name => self.chosen.contains (nicknameKey name)

variable {self : MemberSelection} {conversation index row : ℕ} {entries members : List String}
  {entry key : String} {kind : Click}

/-! ## What is chosen -/

/-- What a click on a row chooses. -/
inductive Chosen (self : MemberSelection) (entries : List String) (index : ℕ) (entry : String) :
    Click → List String → Option String → Prop
  | only : Chosen self entries index entry .only [keyOf entry] (some (keyOf entry))
  | removed (h : keyOf entry ∈ self.chosen) :
      Chosen self entries index entry .toggle (self.chosen.erase (keyOf entry))
        (some (keyOf entry))
  | added (h : keyOf entry ∉ self.chosen) :
      Chosen self entries index entry .toggle (self.chosen ++ [keyOf entry]) (some (keyOf entry))
  | range : Chosen self entries index entry .range
      (keysBetween entries ((self.anchor.bind (rowOf entries)).getD index) index) self.anchor

@[simp] theorem entered_conversation (self : MemberSelection) (conversation : ℕ) :
    (self.entered conversation).conversation = some conversation := by
  unfold entered
  split_ifs with h
  · rfl
  · simpa using h

theorem entered_of_eq (h : self.conversation = some conversation) :
    self.entered conversation = self := if_neg (by simp [h])

theorem entered_of_ne (h : self.conversation ≠ some conversation) :
    self.entered conversation = { conversation := some conversation } := if_pos h

theorem click_of_none (h : entries[index]? = none) :
    self.click conversation entries index kind = self := by
  simp [click, h]

theorem click_of_some (self : MemberSelection) (conversation : ℕ) (kind : Click)
    (h : entries[index]? = some entry) :
    ∃ chosen anchor,
      self.click conversation entries index kind = ⟨some conversation, chosen, anchor⟩ ∧
      Chosen (self.entered conversation) entries index entry kind chosen anchor := by
  have hconv := entered_conversation self conversation
  unfold click
  simp only [h]
  generalize self.entered conversation = start at hconv ⊢
  obtain ⟨conv, chosen, anchor⟩ := start
  obtain rfl : conv = some conversation := hconv
  cases kind with
  | only => exact ⟨_, _, rfl, .only⟩
  | range => exact ⟨_, _, rfl, .range⟩
  | toggle =>
    by_cases hmem : keyOf entry ∈ chosen
    · obtain ⟨position, hposition⟩ := Option.isSome_iff_exists.mp (List.isSome_idxOf?.mpr hmem)
      have herase : chosen.erase (keyOf entry) = chosen.eraseIdx position := by
        rw [List.erase_eq_eraseIdx, hposition]
      simp only [hposition, ← herase]
      exact ⟨_, _, rfl, .removed hmem⟩
    · have hnone : chosen.idxOf? (keyOf entry) = none := List.idxOf?_eq_none_iff.mpr hmem
      simp only [hnone]
      exact ⟨_, _, rfl, .added hmem⟩

theorem retainPresent_of_eq (h : self.conversation = some conversation) :
    self.retainPresent conversation members =
      { self with
        chosen := self.chosen.filter (members.map keyOf).contains
        anchor := self.anchor.filter (members.map keyOf).contains } := by
  unfold retainPresent
  split_ifs with hnone
  · obtain hne | ⟨hchosen, hanchor⟩ := hnone
    · exact absurd h hne
    · obtain ⟨conv, chosen, anchor⟩ := self
      simp_all
  · rfl

theorem retainPresent_of_ne (h : self.conversation ≠ some conversation) :
    self.retainPresent conversation members = self := if_pos (.inl h)

/-! ## Rows and keys -/

theorem rowOf_eq_some (h : rowOf entries key = some row) :
    ∃ entry, entries[row]? = some entry ∧ keyOf entry = key := by
  obtain ⟨hlt, heq, -⟩ := List.findIdx?_eq_some_iff_getElem.mp h
  exact ⟨entries[row], List.getElem?_eq_getElem hlt, by simpa using heq⟩

theorem rowOf_isSome (h : key ∈ entries.map keyOf) : ∃ row, rowOf entries key = some row := by
  obtain ⟨entry, hmem, heq⟩ := List.mem_map.mp h
  refine Option.isSome_iff_exists.mp (List.findIdx?_isSome.trans ?_)
  rw [List.any_eq_true]
  exact ⟨entry, hmem, by simpa using heq⟩

theorem keysBetween_sublist (entries : List String) (one other : ℕ) :
    (keysBetween entries one other).Sublist (entries.map keyOf) :=
  ((List.take_sublist ..).trans (List.drop_sublist ..)).map keyOf

theorem filter_part {part : List String} (hpart : part.Sublist entries)
    (hdistinct : (entries.map keyOf).Nodup) :
    entries.filter (fun entry => (part.map keyOf).contains (keyOf entry)) = part := by
  induction hpart with
  | slnil => rfl
  | @cons part entries entry hpart ih =>
    obtain ⟨hnot, hdistinct⟩ := List.nodup_cons.mp hdistinct
    rw [List.filter_cons_of_neg, ih hdistinct]
    intro hmem
    exact hnot ((hpart.map keyOf).mem (by simpa using hmem))
  | @cons_cons part entries entry hpart ih =>
    obtain ⟨hnot, hdistinct⟩ := List.nodup_cons.mp hdistinct
    rw [List.filter_cons_of_pos (by simp)]
    congr 1
    conv_rhs => rw [← ih hdistinct]
    refine List.filter_congr fun other hmem => ?_
    have hne : keyOf other ≠ keyOf entry := by
      intro heq
      exact hnot (heq ▸ List.mem_map_of_mem hmem)
    simp [hne]

/-! ## What is asked of a selection -/

theorem nicknames_eq (h : self.conversation = some conversation) :
    self.nicknames conversation entries =
      (entries.filter fun entry => self.chosen.contains (keyOf entry)).map nickname := by
  rw [nicknames, if_neg (by simp [h]), List.filter_map]
  rfl

theorem nicknames_of_ne (h : self.conversation ≠ some conversation) :
    self.nicknames conversation entries = [] := if_pos h

theorem nicknames_sublist (self : MemberSelection) (conversation : ℕ) (entries : List String) :
    (self.nicknames conversation entries).Sublist (entries.map nickname) := by
  by_cases h : self.conversation = some conversation
  · rw [nicknames_eq h]
    exact List.filter_sublist.map nickname
  · rw [nicknames_of_ne h]
    exact List.nil_sublist _

theorem contains_iff (h : entry ∈ entries) : self.contains conversation entry = true ↔
    nickname entry ∈ self.nicknames conversation entries := by
  by_cases hc : self.conversation = some conversation
  · rw [contains, nicknames, if_neg (by simp [hc])]
    simp only [hc, decide_true, Bool.true_and, List.mem_filter]
    constructor
    · intro hk
      exact ⟨List.mem_map_of_mem h, hk⟩
    · rintro ⟨-, hk⟩
      exact hk
  · rw [nicknames_of_ne hc, contains]
    simp [hc]

theorem exists_entry {name : String} (h : name ∈ self.nicknames conversation entries) :
    ∃ entry ∈ entries, nickname entry = name ∧ self.contains conversation entry = true := by
  obtain ⟨entry, hmem, rfl⟩ := List.mem_map.mp ((nicknames_sublist ..).mem h)
  exact ⟨entry, hmem, rfl, (contains_iff hmem).mpr h⟩

/-- As many nicknames are listed as are chosen, where all are present and no two rows have one
key. -/
theorem length_nicknames (hnodup : self.chosen.Nodup)
    (hpresent : self.conversation = some conversation →
      ∀ key ∈ self.chosen, key ∈ entries.map keyOf)
    (hdistinct : (entries.map keyOf).Nodup) :
    (self.nicknames conversation entries).length = self.count conversation := by
  by_cases hc : self.conversation = some conversation
  · rw [nicknames_eq hc, List.length_map, count, if_pos hc]
    have hperm : ((entries.filter fun entry => self.chosen.contains (keyOf entry)).map keyOf).Perm
        self.chosen := by
      refine (List.perm_ext_iff_of_nodup (hdistinct.sublist (List.filter_sublist.map keyOf))
        hnodup).mpr ?_
      intro key
      constructor
      · intro hk
        obtain ⟨entry, hentry, rfl⟩ := List.mem_map.mp hk
        simpa using (List.mem_filter.mp hentry).2
      · intro hk
        obtain ⟨entry, hentry, rfl⟩ := List.mem_map.mp (hpresent hc key hk)
        exact List.mem_map_of_mem (List.mem_filter.mpr ⟨hentry, by simpa using hk⟩)
    rw [← hperm.length_eq, List.length_map]
  · rw [nicknames_of_ne hc, count, if_neg hc]
    rfl

theorem nodup_nicknames (hdistinct : (entries.map keyOf).Nodup) :
    ((self.nicknames conversation entries).map nicknameKey).Nodup := by
  refine hdistinct.sublist ?_
  have := (nicknames_sublist self conversation entries).map nicknameKey
  rwa [List.map_map] at this

theorem nicknames_range (h : index < entries.length) (hdistinct : (entries.map keyOf).Nodup) :
    let row := (self.anchorIndex conversation entries).getD index
    (self.click conversation entries index .range).nicknames conversation entries =
      ((entries.drop (min row index)).take (max row index - min row index + 1)).map nickname := by
  obtain ⟨chosen, anchor, hclick, hchosen⟩ :=
    click_of_some self conversation .range (List.getElem?_eq_getElem h)
  have hrow : ((self.entered conversation).anchor.bind (rowOf entries)) =
      self.anchorIndex conversation entries := by
    unfold anchorIndex
    by_cases hc : self.conversation = some conversation
    · rw [entered_of_eq hc, if_neg (by simp [hc])]
    · rw [entered_of_ne hc, if_pos hc]
      rfl
  cases hchosen
  rw [hclick, nicknames_eq rfl, hrow]
  dsimp only
  rw [keysBetween, filter_part ((List.take_sublist ..).trans (List.drop_sublist ..)) hdistinct]

end MemberSelection

end CayenChat.Members
