import CayenChat.Avatars.Directory

/-! # Occupancies of a nickname

All occupancies of the nicknames of a network as they begin and end, none
forgotten. The tables of the directory hold the current ones and the latest of
the ended ones, as far as no eviction dropped it, and a line shows the avatar
of the occupancy it belongs to.
-/

namespace CayenChat.Avatars

open Machine NetworkAvatars

/-- An occupancy of a nickname with its last avatar. -/
structure Stay where
  avatar : String
  since : ℕ
  ended : Option ℕ
  deriving DecidableEq

namespace Stay

def Covers (stay : Stay) (sequence : ℕ) : Prop :=
  stay.since ≤ sequence ∧ ∀ e ∈ stay.ended, sequence < e

def retired (stay : Stay) : Option Retired :=
  (stay.ended.filter (stay.since < ·)).map fun e => ⟨stay.avatar, stay.since, e⟩

end Stay

def present : List Stay → Option Occupancy
  | ⟨avatar, since, none⟩ :: _ => some ⟨avatar, since⟩
  | _ => none

def close (next : ℕ) : List Stay → List Stay
  | ⟨avatar, since, none⟩ :: stays => ⟨avatar, since, some next⟩ :: stays
  | stays => stays

def recolour (avatar : String) : List Stay → List Stay
  | ⟨_, since, none⟩ :: stays => ⟨avatar, since, none⟩ :: stays
  | stays => stays

def latest (stays : List Stay) : Option Retired := stays.findSome? Stay.retired

abbrev Stays := String → List Stay

namespace Stays

def present (stays : Stays) : Set String := { key | (Avatars.present (stays key)).isSome }

def close (stays : Stays) (key : String) (next : ℕ) : Stays :=
  Function.update stays key (Avatars.close next (stays key))

def start (stays : Stays) (key : String) (avatar : String) (next : ℕ) : Stays :=
  Function.update stays key (⟨avatar, next, none⟩ :: stays key)

open Classical in
/-- What a call does to the stays of its network. More than the greatest number of nicknames with
an avatar at a time are ignored. -/
noncomputable def call (stays : Stays) : DirectoryCall → Stays
  | .set _ key (some avatar) next =>
    if key ∈ stays.present then Function.update stays key (recolour avatar (stays key))
    else if stays.present.ncard < MAX_CURRENT_AVATARS then stays.start key avatar next
    else stays
  | .set _ key none next => stays.close key next
  | .rename _ «from» «to» next =>
    match Avatars.present (stays «from») with
    | some occupancy =>
      ((stays.close «from» next).close «to» next).start «to» occupancy.avatar next
    | none => (stays.close «from» next).close «to» next
  | .endAll _ _ next => fun key => Avatars.close next (stays key)
  | .setPeer .. => stays

end Stays

abbrev Chronicle := ℕ → Stays

noncomputable def Chronicle.call (chronicle : Chronicle) (c : DirectoryCall) : Chronicle :=
  Function.update chronicle c.network ((chronicle c.network).call c)

/-- A table of retired occupancies that was too long: the key that was just ended, and the table
before and after the eviction. -/
structure Eviction where
  key : String
  before : Map String Retired
  after : Map String Retired

namespace Eviction

def Drops (e : Eviction) (key : String) (retired : Retired) : Prop :=
  e.before.lookup key = some retired ∧ e.after.lookup key = none

/-- Only the earliest-ended quarter is dropped, at least half of the table remains, and what was
just ended is kept. -/
structure Fair (e : Eviction) : Prop where
  earliest : ∀ key gone, e.Drops key gone → ∀ other kept, e.after.lookup other = some kept →
    gone.«until» < kept.«until»
  quarter : e.before.entries.length ≤ e.after.entries.length + (MAX_RETIRED_AVATARS / 4 + 1)
  half : MAX_RETIRED_AVATARS / 2 ≤ e.after.entries.length
  last : ∃ retired, e.before.lookup e.key = some retired ∧ e.after.lookup e.key = some retired

def Untied (e : Eviction) : Prop :=
  Cutoff.rank (MAX_RETIRED_AVATARS / 4) (ends e.before) <
    Cutoff.rank (MAX_RETIRED_AVATARS / 4 + 1) (ends e.before)

end Eviction

/-- The eviction that comes with an end of an occupancy. -/
def NetworkAvatars.evictions (avatars : NetworkAvatars) (key : String) (next : ℕ) :
    List Eviction :=
  match avatars.current.lookup key with
  | none => []
  | some occupancy =>
    if next ≤ occupancy.since then []
    else if MAX_RETIRED_AVATARS < (avatars.ended key occupancy next).entries.length then
      [⟨key, avatars.ended key occupancy next, evict (avatars.ended key occupancy next)⟩]
    else []

/-- The evictions of a call. -/
def NetworkAvatars.evicted (avatars : NetworkAvatars) : DirectoryCall → List Eviction
  | .set _ key none next => avatars.evictions key next
  | .set _ _ (some _) _ => []
  | .rename _ «from» «to» next =>
    avatars.evictions «from» next ++ (avatars.retire «from» next).evictions «to» next
  | .endAll _ keys next =>
    collect (fun avatars key => avatars.evictions key next)
      (fun avatars key => avatars.retire key next) avatars keys
  | .setPeer .. => []

def evictions (network : ℕ) (calls : List DirectoryCall) : List Eviction :=
  collect (fun directory c =>
    if c.network = network then (directory.avatars network).evicted c else [])
    AvatarDirectory.call {} calls

noncomputable def chronicle (calls : List DirectoryCall) : Chronicle :=
  exec Chronicle.call (fun _ _ => []) calls

def directory (calls : List DirectoryCall) : AvatarDirectory :=
  exec AvatarDirectory.call {} calls

/-! ## Stays of one nickname -/

variable {stays : List Stay} {stay : Stay} {occupancy : Occupancy} {avatar : String}
  {next clock sequence : ℕ}

theorem present_eq_some (h : present stays = some occupancy) :
    ∃ rest, stays = ⟨occupancy.avatar, occupancy.since, none⟩ :: rest := by
  unfold present at h
  split at h
  · cases h
    exact ⟨_, rfl⟩
  · cases h

theorem close_of_present (h : present stays = none) : close next stays = stays := by
  unfold close
  split
  · cases h
  · rfl

theorem recolour_of_present (h : present stays = none) : recolour avatar stays = stays := by
  unfold recolour
  split
  · cases h
  · rfl

@[simp] theorem present_close : present (close next stays) = none := by
  unfold close
  split
  · rfl
  · rename_i h
    unfold present
    split
    · rename_i avatar since rest
      exact absurd rfl (h avatar since rest)
    · rfl

@[simp] theorem present_start {since : ℕ} :
    present (⟨avatar, since, none⟩ :: stays) = some ⟨avatar, since⟩ := rfl

theorem present_recolour : present (recolour avatar stays) =
    (present stays).map fun occupancy => { occupancy with avatar } := by
  unfold recolour
  split
  · rfl
  · rename_i h
    unfold present
    split
    · rename_i other since rest
      exact absurd rfl (h other since rest)
    · rfl

@[simp] theorem latest_open {since : ℕ} :
    latest (⟨avatar, since, none⟩ :: stays) = latest stays := rfl

@[simp] theorem latest_recolour : latest (recolour avatar stays) = latest stays := by
  unfold recolour
  split <;> rfl

theorem latest_ended {since e : ℕ} : latest (⟨avatar, since, some e⟩ :: stays) =
    if since < e then some ⟨avatar, since, e⟩ else latest stays := by
  by_cases h : since < e <;> simp [latest, Stay.retired, Option.filter, h]

/-- Stays that follow each other and have begun and ended by a sequence. -/
structure Ordered (clock : ℕ) (stays : List Stay) : Prop where
  apart : stays.Pairwise fun newer older => ∃ e ∈ older.ended, e ≤ newer.since
  since_le : ∀ stay ∈ stays, stay.since ≤ clock
  ended_le : ∀ stay ∈ stays, ∀ e ∈ stay.ended, stay.since ≤ e ∧ e ≤ clock

namespace Ordered

theorem nil : Ordered clock [] :=
  ⟨.nil, fun _ h => absurd h List.not_mem_nil, fun _ h => absurd h List.not_mem_nil⟩

theorem mono (h : Ordered clock stays) (hle : clock ≤ next) : Ordered next stays :=
  ⟨h.apart, fun stay hm => (h.since_le stay hm).trans hle,
    fun stay hm e he => ⟨(h.ended_le stay hm e he).1, (h.ended_le stay hm e he).2.trans hle⟩⟩

theorem close (h : Ordered clock stays) (hle : clock ≤ next) :
    Ordered next (close next stays) := by
  cases hp : present stays with
  | none =>
    rw [close_of_present hp]
    exact h.mono hle
  | some occupancy =>
    obtain ⟨rest, rfl⟩ := present_eq_some hp
    have hs := h.since_le _ List.mem_cons_self
    have ha := List.pairwise_cons.mp h.apart
    refine ⟨List.pairwise_cons.mpr ha, ?_, ?_⟩
    · intro stay hm
      rcases List.mem_cons.mp hm with rfl | hm
      · exact hs.trans hle
      · exact (h.since_le stay (List.mem_cons_of_mem _ hm)).trans hle
    · intro stay hm e he
      rcases List.mem_cons.mp hm with rfl | hm
      · cases he
        exact ⟨hs.trans hle, Nat.le_refl _⟩
      · obtain ⟨h1, h2⟩ := h.ended_le stay (List.mem_cons_of_mem _ hm) e he
        exact ⟨h1, h2.trans hle⟩

theorem recolour (h : Ordered clock stays) : Ordered clock (recolour avatar stays) := by
  cases hp : present stays with
  | none =>
    rw [recolour_of_present hp]
    exact h
  | some occupancy =>
    obtain ⟨rest, rfl⟩ := present_eq_some hp
    refine ⟨List.pairwise_cons.mpr (List.pairwise_cons.mp h.apart), ?_, ?_⟩
    · intro stay hm
      rcases List.mem_cons.mp hm with rfl | hm
      · exact h.since_le ⟨occupancy.avatar, occupancy.since, none⟩ List.mem_cons_self
      · exact h.since_le stay (List.mem_cons_of_mem _ hm)
    · intro stay hm e he
      rcases List.mem_cons.mp hm with rfl | hm
      · cases he
      · exact h.ended_le stay (List.mem_cons_of_mem _ hm) e he

theorem ended_of_not_present (h : Ordered clock stays) (hp : present stays = none)
    (hm : stay ∈ stays) : ∃ e ∈ stay.ended, e ≤ clock := by
  cases stays with
  | nil => exact absurd hm List.not_mem_nil
  | cons newest rest =>
    rcases List.mem_cons.mp hm with rfl | hr
    · obtain ⟨avatar, since, ended⟩ := stay
      cases ended with
      | none => cases hp
      | some e => exact ⟨e, rfl, (h.ended_le _ hm e rfl).2⟩
    · obtain ⟨e, he, -⟩ := (List.pairwise_cons.mp h.apart).1 stay hr
      exact ⟨e, he, (h.ended_le stay hm e he).2⟩

theorem start (h : Ordered clock stays) (hp : present stays = none) :
    Ordered clock (⟨avatar, clock, none⟩ :: stays) := by
  refine ⟨List.pairwise_cons.mpr ⟨fun older hm => h.ended_of_not_present hp hm, h.apart⟩, ?_, ?_⟩
  · intro stay hm
    rcases List.mem_cons.mp hm with rfl | hm
    · exact Nat.le_refl _
    · exact h.since_le stay hm
  · intro stay hm e he
    rcases List.mem_cons.mp hm with rfl | hm
    · cases he
    · exact h.ended_le stay hm e he

theorem disjoint (h : Ordered clock stays) :
    stays.Pairwise fun newer older => ∀ sequence, ¬ (newer.Covers sequence ∧ older.Covers sequence)
    := by
  refine h.apart.imp ?_
  rintro newer older ⟨e, he, hle⟩ sequence ⟨hn, ho⟩
  have h1 := hn.1
  have h2 := ho.2 e he
  omega

end Ordered

theorem latest_eq_some {r : Retired} (h : latest stays = some r) :
    ∃ stay ∈ stays, stay.avatar = r.avatar ∧ stay.since = r.since ∧ stay.ended = some r.«until» ∧
      r.since < r.«until» := by
  obtain ⟨stay, hm, hr⟩ := List.exists_of_findSome?_eq_some h
  refine ⟨stay, hm, ?_⟩
  unfold Stay.retired at hr
  obtain ⟨e, he, rfl⟩ := Option.map_eq_some_iff.mp hr
  obtain ⟨he, hlt⟩ := Option.filter_eq_some_iff.mp he
  exact ⟨rfl, rfl, he, by simpa using hlt⟩

theorem present_mem (h : present stays = some occupancy) :
    ⟨occupancy.avatar, occupancy.since, none⟩ ∈ stays := by
  obtain ⟨rest, rfl⟩ := present_eq_some h
  exact List.mem_cons_self

end CayenChat.Avatars
