import CayenChat.Lib.Machine
import CayenChat.Members.Selection

/-! # Choices over time

Rosters arrive and rows are clicked, in any order and in any conversation. Whoever is chosen has
been in every roster since the click that chose them.
-/

namespace CayenChat.Members
open MemberSelection

/-- The rows on display: a roster as it is, or with our own entry first. -/
inductive Display where
  | plain
  | ownFirst (own : Option String)

def Display.participants (display : Display) (members : List String) : Participants :=
  match display with
  | .plain => .plain members
  | .ownFirst own => .ownFirst members own

def Display.rows (display : Display) (members : List String) : List String :=
  (display.participants members).entries

/-- The selection and the roster of every conversation. -/
structure View where
  selection : MemberSelection
  rosters : ℕ → List String

inductive Event where
  | click (conversation : ℕ) (display : Display) (index : ℕ) (kind : Click)
  | roster (conversation : ℕ) (members : List String)
  | clear

def View.step (v : View) : Event → View
  | .click conversation display index kind =>
    { v with
      selection :=
        v.selection.click conversation (display.rows (v.rosters conversation)) index kind }
  | .roster conversation members =>
    ⟨v.selection.retainPresent conversation members,
      Function.update v.rosters conversation members⟩
  | .clear => { v with selection := v.selection.clear }

def Distinct (members : List String) : Prop := (members.map keyOf).Nodup

instance (members : List String) : Decidable (Distinct members) :=
  inferInstanceAs (Decidable (members.map keyOf).Nodup)

def Clickable (v : View) : Event → Prop
  | .click conversation _ _ _ => Distinct (v.rosters conversation)
  | _ => True

def View.start (rosters : ℕ → List String) : View := ⟨{}, rosters⟩

variable {v : View} {e : Event} {events : List Event} {conversation index : ℕ} {kind : Click}
  {members : List String} {display : Display} {key name : String} {rosters : ℕ → List String}

theorem rows_perm (display : Display) (members : List String) :
    (display.rows members).Perm members := by
  cases display with
  | plain => exact (Participants.plain members).entries_perm
  | ownFirst own => exact (Participants.ownFirst members own).entries_perm

theorem distinct_rows (display : Display) :
    Distinct (display.rows members) ↔ Distinct members :=
  ((rows_perm display members).map keyOf).nodup_iff

theorem mem_rows_keys (display : Display) :
    key ∈ (display.rows members).map keyOf ↔ key ∈ members.map keyOf :=
  ((rows_perm display members).map keyOf).mem_iff

/-- Chosen members and the anchor are in the roster, and no one is chosen twice. -/
structure Sound (v : View) : Prop where
  nodup : v.selection.chosen.Nodup
  present : ∀ conversation, v.selection.conversation = some conversation →
    ∀ key ∈ v.selection.chosen, key ∈ (v.rosters conversation).map keyOf
  anchored : ∀ conversation, v.selection.conversation = some conversation →
    ∀ key ∈ v.selection.anchor, key ∈ (v.rosters conversation).map keyOf

theorem sound_start (rosters : ℕ → List String) : Sound (.start rosters) :=
  ⟨.nil, by simp [View.start], by simp [View.start]⟩

theorem Sound.entered (h : Sound v) (conversation : ℕ) :
    (v.selection.entered conversation).chosen.Nodup ∧
      (∀ key ∈ (v.selection.entered conversation).chosen,
        key ∈ (v.rosters conversation).map keyOf) ∧
      ∀ key ∈ (v.selection.entered conversation).anchor,
        key ∈ (v.rosters conversation).map keyOf := by
  by_cases hc : v.selection.conversation = some conversation
  · rw [entered_of_eq hc]
    exact ⟨h.nodup, h.present conversation hc, h.anchored conversation hc⟩
  · rw [entered_of_ne hc]
    simp

theorem Sound.click (h : Sound v) (hd : Distinct (v.rosters conversation)) :
    Sound (v.step (.click conversation display index kind)) := by
  rw [View.step]
  cases hentry : (display.rows (v.rosters conversation))[index]? with
  | none =>
    rw [click_of_none hentry]
    exact h
  | some entry =>
    obtain ⟨chosen, anchor, hclick, hchosen⟩ := click_of_some v.selection conversation kind hentry
    obtain ⟨hnodup, hpresent, hanchored⟩ := h.entered conversation
    have hmem : keyOf entry ∈ (v.rosters conversation).map keyOf :=
      (mem_rows_keys display).mp (List.mem_map_of_mem (List.mem_of_getElem? hentry))
    rw [hclick]
    suffices hall : chosen.Nodup ∧ (∀ key ∈ chosen, key ∈ (v.rosters conversation).map keyOf) ∧
        ∀ key ∈ anchor, key ∈ (v.rosters conversation).map keyOf by
      refine ⟨hall.1, ?_, ?_⟩
      · rintro _ ⟨⟩
        exact hall.2.1
      · rintro _ ⟨⟩
        exact hall.2.2
    cases hchosen with
    | only => simpa using hmem
    | removed _ =>
      exact ⟨hnodup.erase _, fun key hk => hpresent key (List.mem_of_mem_erase hk),
        by simpa using hmem⟩
    | added hnot =>
      refine ⟨List.nodup_append.mpr ⟨hnodup, by simp, ?_⟩, ?_, by simpa using hmem⟩
      · rintro key hk other ho rfl
        rw [List.mem_singleton] at ho
        exact hnot (ho ▸ hk)
      · intro key hk
        obtain hk | hk := List.mem_append.mp hk
        · exact hpresent key hk
        · rw [List.mem_singleton.mp hk]
          exact hmem
    | range =>
      have hsub := keysBetween_sublist (display.rows (v.rosters conversation))
        (((v.selection.entered conversation).anchor.bind
          (rowOf (display.rows (v.rosters conversation)))).getD index) index
      exact ⟨((distinct_rows display).mpr hd).sublist hsub,
        fun key hk => (mem_rows_keys display).mp (hsub.mem hk), hanchored⟩

theorem Sound.roster (h : Sound v) : Sound (v.step (.roster conversation members)) := by
  rw [View.step]
  by_cases hc : v.selection.conversation = some conversation
  · rw [retainPresent_of_eq hc]
    refine ⟨h.nodup.filter _, ?_, ?_⟩
    · intro other ho key hk
      obtain rfl : conversation = other := Option.some.inj (hc.symm.trans ho)
      simpa using (List.mem_filter.mp hk).2
    · intro other ho key hk
      obtain rfl : conversation = other := Option.some.inj (hc.symm.trans ho)
      simpa using (Option.filter_eq_some_iff.mp hk).2
  · rw [retainPresent_of_ne hc]
    refine ⟨h.nodup, ?_, ?_⟩
    · intro other ho key hk
      have hne : other ≠ conversation := by
        rintro rfl
        exact hc ho
      dsimp only
      rw [Function.update_of_ne hne]
      exact h.present other ho key hk
    · intro other ho key hk
      have hne : other ≠ conversation := by
        rintro rfl
        exact hc ho
      dsimp only
      rw [Function.update_of_ne hne]
      exact h.anchored other ho key hk

theorem Sound.step (h : Sound v) (hd : Clickable v e) : Sound (v.step e) := by
  cases e with
  | click conversation display index kind => exact h.click hd
  | roster conversation members => exact h.roster
  | clear => exact ⟨.nil, by simp [View.step, MemberSelection.clear],
      by simp [View.step, MemberSelection.clear]⟩

theorem Sound.run (h : Sound v) (hd : Machine.Along Clickable View.step v events) :
    Sound (Machine.exec View.step v events) := by
  induction events generalizing v with
  | nil => exact h
  | cons e events ih => exact ih (h.step hd.1) hd.2

/-! ## Since the click -/

def View.Chosen (v : View) (conversation : ℕ) (key : String) : Prop :=
  v.selection.conversation = some conversation ∧ key ∈ v.selection.chosen

theorem click_of_chosen (hnot : ¬v.Chosen conversation key)
    (h : (v.step e).Chosen conversation key) :
    ∃ display index kind, e = .click conversation display index kind := by
  obtain ⟨hc, hk⟩ := h
  cases e with
  | click other display index kind =>
    rw [View.step] at hc hk
    cases hentry : (display.rows (v.rosters other))[index]? with
    | none =>
      rw [click_of_none hentry] at hc hk
      exact absurd ⟨hc, hk⟩ hnot
    | some entry =>
      obtain ⟨chosen, anchor, hclick, -⟩ := click_of_some v.selection other kind hentry
      rw [hclick] at hc
      obtain rfl := Option.some.inj hc
      exact ⟨display, index, kind, rfl⟩
  | roster other members =>
    rw [View.step] at hc hk
    by_cases ho : v.selection.conversation = some other
    · rw [retainPresent_of_eq ho] at hc hk
      exact absurd ⟨hc, (List.mem_filter.mp hk).1⟩ hnot
    · rw [retainPresent_of_ne ho] at hc hk
      exact absurd ⟨hc, hk⟩ hnot
  | clear => cases hc

/-- The click that chose a key: before it the key was not chosen, and since then it has always been
chosen and in the roster. -/
def ChosenSince (v : View) (events : List Event) (conversation : ℕ) (key : String) : Prop :=
  ∃ before display index kind after,
    events = before ++ .click conversation display index kind :: after ∧
      ¬(Machine.exec View.step v before).Chosen conversation key ∧
      ∀ mid, mid <+: after →
        (Machine.exec View.step v
          (before ++ .click conversation display index kind :: mid)).Chosen conversation key ∧
        key ∈ ((Machine.exec View.step v
          (before ++ .click conversation display index kind :: mid)).rosters conversation).map keyOf

theorem Sound.chosen_present (h : Sound v) (hk : v.Chosen conversation key) :
    key ∈ (v.rosters conversation).map keyOf := h.present conversation hk.1 key hk.2

theorem Sound.chosen_since (h : Sound v) (hd : Machine.Along Clickable View.step v events)
    (hnot : ¬v.Chosen conversation key)
    (hk : (Machine.exec View.step v events).Chosen conversation key) :
    ChosenSince v events conversation key := by
  induction events using List.reverseRecOn with
  | nil => exact absurd hk hnot
  | append_singleton events e ih =>
    obtain ⟨hbefore, hlast⟩ := Machine.along_append.mp hd
    have hsound := h.run hd
    by_cases hk' : (Machine.exec View.step v events).Chosen conversation key
    · obtain ⟨before, display, index, kind, after, rfl, hfirst, hall⟩ := ih hbefore hk'
      refine ⟨before, display, index, kind, after ++ [e], by simp, hfirst, ?_⟩
      intro mid hmid
      obtain heq | hmid := List.prefix_concat_iff.mp hmid
      · subst heq
        rw [List.append_assoc, List.cons_append] at hk hsound
        exact ⟨hk, hsound.chosen_present hk⟩
      · exact hall mid hmid
    · have hstep : ((Machine.exec View.step v events).step e).Chosen conversation key := by
        rwa [Machine.exec_append] at hk
      obtain ⟨display, index, kind, rfl⟩ := click_of_chosen hk' hstep
      refine ⟨events, display, index, kind, [], rfl, hk', ?_⟩
      intro mid hmid
      obtain rfl := List.prefix_nil.mp hmid
      exact ⟨hk, hsound.chosen_present hk⟩

/-! ## What the member list shows -/

theorem nicknameKey_chosen (h : name ∈ v.selection.nicknames conversation members) :
    v.Chosen conversation (nicknameKey name) := by
  obtain ⟨entry, -, rfl, hc⟩ := exists_entry h
  simpa [contains, View.Chosen, keyOf] using hc

theorem Sound.anchor_shown (h : Sound v) (hc : v.selection.conversation = some conversation)
    (hk : key ∈ v.selection.anchor) (display : Display) :
    ∃ row entry,
      v.selection.anchorIndex conversation (display.rows (v.rosters conversation)) = some row ∧
      (display.rows (v.rosters conversation))[row]? = some entry ∧ keyOf entry = key := by
  obtain ⟨row, hrow⟩ :=
    rowOf_isSome ((mem_rows_keys display).mpr (h.anchored conversation hc key hk))
  obtain ⟨entry, hentry, hkey⟩ := rowOf_eq_some hrow
  refine ⟨row, entry, ?_, hentry, hkey⟩
  rw [anchorIndex, if_neg (by simp [hc]), hk, Option.bind_some, hrow]

theorem rows_ownFirst (members : List String) (own : Option String) :
    (∃ row entry, Participants.ownRow members own = some row ∧ members[row]? = some entry ∧
      (∃ name ∈ own, sameNickname (nickname entry) name = true) ∧
      (Display.ownFirst own).rows members = entry :: members.eraseIdx row) ∨
    Participants.ownRow members own = none ∧ (Display.ownFirst own).rows members = members := by
  cases hrow : Participants.ownRow members own with
  | none => exact .inr ⟨rfl, Participants.entries_ownFirst_none hrow⟩
  | some row =>
    obtain ⟨entry, hentry, heq⟩ := Participants.entries_ownFirst hrow
    obtain ⟨name, hname, hfound⟩ := Option.bind_eq_some_iff.mp hrow
    obtain ⟨hlt, hsame, -⟩ := List.findIdx?_eq_some_iff_getElem.mp hfound
    rw [List.getElem?_eq_getElem hlt] at hentry
    obtain rfl := Option.some.inj hentry
    exact .inl ⟨row, _, rfl, List.getElem?_eq_getElem hlt, ⟨name, hname, hsame⟩, heq⟩

/-- After any clicks and rosters, only members who were in every roster since the click that chose
them are listed, each once and in order, and everything asked of the selection agrees with that. -/
theorem chosen_members (rosters : ℕ → List String) (events : List Event)
    (hd : Machine.Along Clickable View.step (.start rosters) events) (conversation : ℕ)
    (display : Display) :
    let v := Machine.exec View.step (.start rosters) events
    let rows := display.rows (v.rosters conversation)
    let names := v.selection.nicknames conversation rows
    (∀ name ∈ names, ChosenSince (.start rosters) events conversation (nicknameKey name)) ∧
      names.Sublist (rows.map nickname) ∧
      (∀ entry ∈ rows, v.selection.contains conversation entry = true ↔ nickname entry ∈ names) ∧
      (Distinct (v.rosters conversation) → (names.map nicknameKey).Nodup ∧
        v.selection.count conversation = names.length ∧
        ∀ index < rows.length,
          let row := (v.selection.anchorIndex conversation rows).getD index
          (v.step (.click conversation display index .range)).selection.nicknames conversation
              rows =
            ((rows.drop (min row index)).take (max row index - min row index + 1)).map nickname) ∧
      (v.selection.conversation = some conversation → ∀ key ∈ v.selection.anchor,
        ∃ row entry, v.selection.anchorIndex conversation rows = some row ∧
          rows[row]? = some entry ∧ keyOf entry = key) ∧
      (∀ index, (display.participants (v.rosters conversation)).get index = rows[index]?) ∧
      rows.Perm (v.rosters conversation) ∧
      ∀ own, display = .ownFirst own →
        (∃ row entry, Participants.ownRow (v.rosters conversation) own = some row ∧
          (v.rosters conversation)[row]? = some entry ∧
          (∃ name ∈ own, sameNickname (nickname entry) name = true) ∧
          rows = entry :: (v.rosters conversation).eraseIdx row) ∨
        Participants.ownRow (v.rosters conversation) own = none ∧
          rows = v.rosters conversation := by
  intro v rows names
  have hsound : Sound v := (sound_start rosters).run hd
  refine ⟨?_, nicknames_sublist .., fun entry => contains_iff, ?_,
    fun hc key hk => hsound.anchor_shown hc hk display,
    (display.participants (v.rosters conversation)).get_eq, rows_perm .., ?_⟩
  · intro name hname
    refine (sound_start rosters).chosen_since hd ?_ (nicknameKey_chosen hname)
    simp [View.start, View.Chosen]
  · intro hdistinct
    have hrows := (distinct_rows display).mpr hdistinct
    refine ⟨nodup_nicknames hrows, ?_, ?_⟩
    · refine (length_nicknames hsound.nodup ?_ hrows).symm
      intro hc key hk
      exact (mem_rows_keys display).mpr (hsound.present conversation hc key hk)
    · intro index hindex
      exact nicknames_range hindex hrows
  · rintro own rfl
    exact rows_ownFirst (v.rosters conversation) own

/-- Two members are chosen, and one of them leaves. -/
theorem chosen_members_left :
    let events : List Event := [.click 0 (.ownFirst (some "carol")) 1 .only,
      .click 0 .plain 0 .toggle, .roster 0 ["@alice", "carol"]]
    let v := Machine.exec View.step (.start fun _ => ["@alice", "bob", "+carol"]) events
    (v.selection.nicknames 0 (v.rosters 0)).Sublist ((v.rosters 0).map nickname) :=
  have hd : Distinct ["@alice", "bob", "+carol"] := by decide
  (chosen_members (fun _ => ["@alice", "bob", "+carol"])
    [.click 0 (.ownFirst (some "carol")) 1 .only, .click 0 .plain 0 .toggle,
      .roster 0 ["@alice", "carol"]] ⟨hd, hd, trivial, trivial⟩ 0 .plain).2.1

end CayenChat.Members
