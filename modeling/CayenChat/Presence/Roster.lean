import Mathlib
import CayenChat.Presence.Index

/-! # Memberships with identities

What the index is for: a plain set of memberships, a channel key with a
nickname key, and a number for every nickname that is in a channel. A
nickname keeps its number while it is present, also under another name, and
gets a number nobody had otherwise.
-/

namespace CayenChat

def listed (members : List String) : List String :=
  (members.map (trimStartMatches ['~', '&', '@', '%', '+'])).filter (· != "")

/-- Who is in which channel, under which number. -/
structure Roster where
  casemapping : CaseMapping
  spelled : String → Option String
  members : Set (String × String)
  nick : String → Option String
  ident : String → Option UserId
  given : Set UserId
  fold_spelled : ∀ {c name}, spelled c = some name → casemapping.fold name = c
  held : ∀ {c n}, (c, n) ∈ members → (spelled c).isSome
  ident_isSome : ∀ {n}, (ident n).isSome ↔ ∃ c, (c, n) ∈ members
  ident_inj : ∀ {n n' id}, ident n = some id → ident n' = some id → n = n'
  ident_given : ∀ {n id}, ident n = some id → id ∈ given
  key_nick : ∀ {n x}, nick n = some x → nicknameKey x = n
  nick_isSome : ∀ {n}, (nick n).isSome ↔ ∃ c, (c, n) ∈ members

namespace Roster

/-- Nobody is anywhere. -/
def empty : Roster where
  casemapping := .rfc1459
  spelled _ := none
  members := ∅
  nick _ := none
  ident _ := none
  given := ∅
  fold_spelled h := by cases h
  held h := h.elim
  ident_isSome := by simp
  ident_inj h := by cases h
  ident_given h := by cases h
  key_nick h := by cases h
  nick_isSome := by simp

def present (r : Roster) : Set String := {n | ∃ c, (c, n) ∈ r.members}

variable {r r' : Roster} {call : PresenceCall} {n n' m : String}

/-- The presence under the first key goes by the second one after the call. -/
def Carries (r : Roster) : PresenceCall → String → String → Prop
  | .rename old new, n, n' =>
    n = nicknameKey old ∧ n' = nicknameKey new ∨
      n ≠ nicknameKey old ∧ n' = n ∧ (n = nicknameKey new → nicknameKey old ∉ r.present)
  | _, n, n' => n' = n

def casemappingAfter (r : Roster) : PresenceCall → CaseMapping
  | .setCasemapping casemapping => casemapping
  | _ => r.casemapping

/-- How the channel of a key may be spelled after the call: channels that became one keep one of
their names. -/
def SpelledAfter (r : Roster) : PresenceCall → String → Option String → Prop
  | .setCasemapping casemapping, c, x =>
    if r.casemapping = casemapping then x = r.spelled c
    else match x with
      | some name => casemapping.fold name = c ∧ ∃ c', r.spelled c' = some name
      | none => ∀ c' name, r.spelled c' = some name → casemapping.fold name ≠ c
  | .replaceChannel channel _, c, x =>
    x = if c = r.casemapping.fold channel then some channel else r.spelled c
  | .removeChannel channel, c, x =>
    x = if c = r.casemapping.fold channel then none else r.spelled c
  | _, c, x => x = r.spelled c

/-- The memberships after the call. -/
def membersAfter (r : Roster) : PresenceCall → Set (String × String)
  | .setCasemapping casemapping =>
    {x | ∃ c name, r.spelled c = some name ∧ casemapping.fold name = x.1 ∧ (c, x.2) ∈ r.members}
  | .replaceChannel channel members =>
    {x | if x.1 = r.casemapping.fold channel then x.2 ∈ (listed members).map nicknameKey
      else x ∈ r.members}
  | .removeChannel channel => {x ∈ r.members | x.1 ≠ r.casemapping.fold channel}
  | .rename old new => {x | ∃ n, (x.1, n) ∈ r.members ∧ r.Carries (.rename old new) n x.2}
  | .quit nickname => {x ∈ r.members | x.2 ≠ nicknameKey nickname}

open scoped Classical in
noncomputable def nickAfter (r : Roster) : PresenceCall → String → Option String
  | .replaceChannel _ members, n =>
    ((listed members).reverse.find? (nicknameKey · == n)).or (r.nick n)
  | .rename old new, n =>
    if nicknameKey old ∈ r.present ∧ n = nicknameKey new then some new else r.nick n
  | _, n => r.nick n

/-- One call. Whose presence goes on keeps the number, everyone else gets one never given before. -/
structure Step (r : Roster) (call : PresenceCall) (r' : Roster) : Prop where
  casemapping : r'.casemapping = r.casemappingAfter call
  spelled : ∀ c, r.SpelledAfter call c (r'.spelled c)
  members : r'.members = r.membersAfter call
  nick : ∀ n ∈ r'.present, r'.nick n = r.nickAfter call n
  kept : ∀ {n n'}, n ∈ r.present → n' ∈ r'.present → r.Carries call n n' → r'.ident n' = r.ident n
  started : ∀ {n' id}, (∀ n ∈ r.present, ¬r.Carries call n n') → r'.ident n' = some id →
    id ∉ r.given
  given : r.given ⊆ r'.given

def Runs : Roster → List (PresenceCall × Roster) → Prop
  | _, [] => True
  | r, (call, r') :: run => r.Step call r' ∧ Runs r' run

def final (r : Roster) (run : List (PresenceCall × Roster)) : Roster :=
  run.foldl (fun _ x => x.2) r

/-- The presence under the first key goes on through the whole run and ends under the second. -/
def Stays : Roster → List (PresenceCall × Roster) → String → String → Prop
  | r, [], n, n' => n ∈ r.present ∧ n' = n
  | r, (call, r') :: run, n, n' => n ∈ r.present ∧ ∃ m, r.Carries call n m ∧ Stays r' run m n'

variable {run : List (PresenceCall × Roster)} {id : UserId}

theorem present_iff : n ∈ r.present ↔ ∃ id, r.ident n = some id := by
  rw [← Option.isSome_iff_exists, r.ident_isSome]
  rfl

theorem Carries.unique (h : r.Carries call n m) (h' : r.Carries call n' m) (hn : n ∈ r.present)
    (hn' : n' ∈ r.present) : n = n' := by
  cases call with
  | rename old new =>
    rcases h with ⟨rfl, rfl⟩ | ⟨_, rfl, ho⟩ <;> rcases h' with ⟨rfl, hm⟩ | ⟨_, hm, ho'⟩
    · rfl
    · exact absurd hn (ho' hm.symm)
    · exact absurd hn' (ho hm)
    · exact hm
  | _ => exact (Eq.symm h).trans h'

theorem Stays.present (h : Stays r run n n') : n ∈ r.present := by
  cases run with
  | nil => exact h.1
  | cons x run => exact h.1

theorem Runs.retired (h : Runs r run) (hid : id ∈ r.given) (hn : ∀ n, r.ident n ≠ some id) :
    ∀ n, (final r run).ident n ≠ some id := by
  induction run generalizing r with
  | nil => exact hn
  | cons x run ih =>
    obtain ⟨call, r'⟩ := x
    refine ih h.2 (h.1.given hid) fun m hm => ?_
    by_cases hc : ∃ n ∈ r.present, r.Carries call n m
    · obtain ⟨n, hp, hc⟩ := hc
      exact hn n ((h.1.kept hp (present_iff.mpr ⟨id, hm⟩) hc).symm.trans hm)
    · push Not at hc
      exact h.1.started hc hm hid

/-- A number is held at the end of a run exactly by the presence that held it at the start, if that
went on all the while. -/
theorem Runs.ident_iff_stays (h : Runs r run) (hn : r.ident n = some id) :
    (final r run).ident n' = some id ↔ Stays r run n n' := by
  induction run generalizing r n with
  | nil =>
    constructor
    · exact fun hn' => ⟨present_iff.mpr ⟨id, hn⟩, r.ident_inj hn' hn⟩
    · rintro ⟨_, rfl⟩
      exact hn
  | cons x run ih =>
    obtain ⟨call, r'⟩ := x
    have hp : n ∈ r.present := present_iff.mpr ⟨id, hn⟩
    have hkept {m : String} (hm : m ∈ r'.present) (hc : r.Carries call n m) :
        r'.ident m = some id := (h.1.kept hp hm hc).trans hn
    constructor
    · intro hf
      by_cases hg : ∃ m, r'.ident m = some id
      · obtain ⟨m, hm⟩ := hg
        refine ⟨hp, m, ?_, (ih h.2 hm).mp hf⟩
        -- the holder after the call was carried over from the holder before it
        by_contra hc
        refine h.1.started (fun n₀ hp₀ hc₀ => ?_) hm (r.ident_given hn)
        have hn₀ : r.ident n₀ = some id :=
          (h.1.kept hp₀ (present_iff.mpr ⟨id, hm⟩) hc₀).symm.trans hm
        exact hc (r.ident_inj hn hn₀ ▸ hc₀)
      · push Not at hg
        exact absurd hf (h.2.retired (h.1.given (r.ident_given hn)) hg n')
    · rintro ⟨_, m, hc, hs⟩
      exact (ih h.2 (hkept hs.present hc)).mpr hs

end Roster

end CayenChat
