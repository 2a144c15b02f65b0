import Mathlib

/-! # JSON values and what is read from them

A value is what a parser makes of a text; its objects have each key once. A
struct is read from an object by the names of its fields, or from an array by
their order; an enumeration from the name of a variant.
-/

inductive JsonNumber
  | posInt (n : ℕ)
  /-- A negative integer, by its absolute value. -/
  | negInt (n : ℕ)
  | float (bits : UInt64)
  deriving DecidableEq

inductive Json
  | null
  | bool (b : Bool)
  | num (n : JsonNumber)
  | str (s : String)
  | arr (items : List Json)
  | obj (fields : List (String × Json))

namespace Json

/-! ## Access -/

def asBool : Json → Option Bool
  | bool b => some b
  | _ => none

def asStr : Json → Option String
  | str s => some s
  | _ => none

def asUnsigned : Json → Option ℕ
  | num (.posInt n) => some n
  | _ => none

def asArr : Json → Option (List Json)
  | arr items => some items
  | _ => none

def asObj : Json → Option (List (String × Json))
  | obj fields => some fields
  | _ => none

def get (key : String) : Json → Option Json
  | obj fields => fields.lookup key
  | _ => none

def adjust (key : String) (f : Json → Json) : Json → Json
  | obj fields => obj (fields.map fun field => if field.1 = key then (key, f field.2) else field)
  | v => v

def remove (key : String) : Json → Json
  | obj fields => obj (fields.filter (·.1 ≠ key))
  | v => v

def orInsert (key : String) (value : Json) : Json → Json
  | obj fields => if (fields.lookup key).isSome then obj fields else obj (fields ++ [(key, value)])
  | v => v

/-! ## Reading -/

variable {α : Type*}

def unsigned (bound : ℕ) (v : Json) : Option ℕ := v.asUnsigned.filter (· ≤ bound)

/-- A value that may be `null`. -/
def nullable (f : Json → Option α) : Json → Option (Option α)
  | null => some none
  | v => (f v).map some

def list (f : Json → Option α) (v : Json) : Option (List α) := v.asArr.bind (·.mapM f)

def variant (names : List (String × α)) : Json → Option α
  | str s => names.lookup s
  | obj [(s, null)] => names.lookup s
  | _ => none

/-- The fields of a struct. Of a name and its alias at most one may be there; an array has no more
elements than the struct has fields. -/
def slots (names : List String) (aliases : List (String × String)) :
    Json → Option (String → Option Json)
  | obj fields =>
    if aliases.any fun entry =>
        (fields.lookup entry.1).isSome && (fields.lookup entry.2).isSome then none
    else some fun name =>
      (fields.lookup name).or
        ((aliases.filter (·.2 = name)).findSome? fun entry => fields.lookup entry.1)
  | arr items =>
    if names.length < items.length then none else some fun name => items[names.idxOf name]?
  | _ => none

def required (f : Json → Option α) (v : Option Json) : Option α := v.bind f

def optional (f : Json → Option α) (default : α) : Option Json → Option α
  | none => some default
  | some v => f v

/-! ## What was read -/

theorem asArr_eq_some {v : Json} {items : List Json} : v.asArr = some items ↔ v = arr items := by
  cases v <;> simp [asArr]

theorem unsigned_eq_some {bound n : ℕ} {v : Json} (h : v.unsigned bound = some n) :
    v.asUnsigned = some n := (Option.filter_eq_some_iff.mp h).1

def Yields (P : α → Prop) (o : Option α) : Prop := ∀ a, o = some a → P a

theorem yields_some {P : α → Prop} {a : α} (h : P a) : Yields P (some a) := by
  rintro b ⟨⟩
  exact h

theorem yields_bind {β : Type*} {P : α → Prop} {o : Option β} {f : β → Option α}
    (h : ∀ b, o = some b → Yields P (f b)) : Yields P (o.bind f) := by
  intro a ha
  obtain ⟨b, hb, ha⟩ := Option.bind_eq_some_iff.mp ha
  exact h b hb a ha

theorem slots_obj {names : List String} {aliases : List (String × String)}
    {fields : List (String × Json)} {slot : String → Option Json} {name : String}
    (h : slots names aliases (obj fields) = some slot) (ha : ∀ entry ∈ aliases, entry.2 ≠ name) :
    slot name = fields.lookup name := by
  unfold slots at h
  dsimp only at h
  split at h
  · cases h
  · cases h
    dsimp only
    have hnone : aliases.filter (·.2 = name) = [] := by
      rw [List.filter_eq_nil_iff]
      intro entry hm
      simpa using ha entry hm
    rw [hnone, List.findSome?_nil, Option.or_none]

theorem get_adjust_of_ne {key other : String} (hne : other ≠ key) (f : Json → Json) (v : Json) :
    (v.adjust key f).get other = v.get other := by
  cases v with
  | obj fields =>
    unfold adjust get
    dsimp only
    induction fields with
    | nil => rfl
    | cons field fields ih =>
      obtain ⟨name, w⟩ := field
      by_cases hn : name = key
      · subst hn
        simpa [List.lookup_cons, beq_false_of_ne hne] using ih
      · simp only [List.map_cons, if_neg hn, List.lookup_cons, ih]
  | _ => rfl

theorem get_adjust (key : String) (f : Json → Json) (v : Json) :
    (v.adjust key f).get key = (v.get key).map f := by
  cases v with
  | obj fields =>
    unfold adjust get
    dsimp only
    induction fields with
    | nil => rfl
    | cons field fields ih =>
      obtain ⟨name, w⟩ := field
      by_cases hn : name = key
      · subst hn
        simp
      · simp only [List.map_cons, if_neg hn, List.lookup_cons, beq_false_of_ne (Ne.symm hn), ih]
  | _ => rfl

theorem get_orInsert_of_ne {key other : String} (hne : other ≠ key) (value v : Json) :
    (orInsert key value v).get other = v.get other := by
  cases v with
  | obj fields =>
    unfold orInsert
    dsimp only
    split
    · rfl
    · unfold get
      dsimp only
      rw [List.lookup_append]
      have hlast : List.lookup other [(key, value)] = none := by
        simp [List.lookup, beq_false_of_ne hne]
      rw [hlast, Option.or_none]
  | _ => rfl

end Json
