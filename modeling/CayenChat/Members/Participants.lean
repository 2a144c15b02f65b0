import CayenChat.Wire.Names

/-! # The rows of the member list

A roster is shown with our own row moved to the top, without copying it. The row at an index and the
rows in order are computed apart.
-/

namespace CayenChat.Members

def roleMarks : List Char := ['~', '&', '@', '%', '+']

def nickname (entry : String) : String := String.ofList (entry.toList.dropWhile roleMarks.contains)

def keyOf (entry : String) : String := nicknameKey (nickname entry)

/-- What the member list shows: rows, and the one shown first when that is not the first row. -/
structure Participants where
  rows : List String
  first : Option ℕ
  listed : ∀ row ∈ first, 0 < row ∧ row < rows.length

namespace Participants

def plain (rows : List String) : Participants := ⟨rows, none, by simp⟩

def ownRow (members : List String) (own : Option String) : Option ℕ :=
  own.bind fun own => members.findIdx? fun member => sameNickname (nickname member) own

theorem lt_of_ownRow {members : List String} {own : Option String} {row : ℕ}
    (h : ownRow members own = some row) : row < members.length := by
  obtain ⟨name, -, hrow⟩ := Option.bind_eq_some_iff.mp h
  obtain ⟨hlt, -⟩ := List.findIdx?_eq_some_iff_getElem.mp hrow
  exact hlt

/-- Members with our own entry first. -/
def ownFirst (members : List String) (own : Option String) : Participants where
  rows := members
  first := (ownRow members own).filter (· ≠ 0)
  listed := by
    intro row hrow
    obtain ⟨hrow, hne⟩ := Option.filter_eq_some_iff.mp hrow
    exact ⟨Nat.pos_of_ne_zero (by simpa using hne), lt_of_ownRow hrow⟩

def get (self : Participants) (index : ℕ) : Option String :=
  let row :=
    match self.first with
    | some first => if index = 0 then first else if index ≤ first then index - 1 else index
    | none => index
  self.rows[row]?

def entries (self : Participants) : List String :=
  ((self.first.bind fun row => self.rows[row]?).toList) ++
    (self.rows.zipIdx.filter fun (_, row) => some row ≠ self.first).map Prod.fst

variable {self : Participants} {members rows : List String} {own : Option String} {row : ℕ}

theorem map_filter_zipIdx (rows : List String) (row start : ℕ) :
    ((rows.zipIdx start).filter fun (_, n) => some n ≠ some (start + row)).map Prod.fst =
      rows.eraseIdx row := by
  induction rows generalizing row start with
  | nil => simp
  | cons entry rows ih =>
    rw [List.zipIdx_cons]
    cases row with
    | zero =>
      have hall : (rows.zipIdx (start + 1)).filter (fun (_, n) => some n ≠ some (start + 0)) =
          rows.zipIdx (start + 1) := by
        rw [List.filter_eq_self]
        rintro ⟨other, n⟩ hmem
        have := (List.mem_zipIdx hmem).1
        simp only [ne_eq, Option.some.injEq, decide_not, Bool.not_eq_eq_eq_not, Bool.not_true,
          decide_eq_false_iff_not]
        omega
      rw [List.filter_cons_of_neg (by simp), hall]
      simp
    | succ row =>
      rw [List.filter_cons_of_pos (by simp), List.map_cons, List.eraseIdx_cons_succ]
      have hshift : start + (row + 1) = start + 1 + row := by omega
      rw [hshift, ih]

theorem entries_of_none (h : self.first = none) : self.entries = self.rows := by
  have hall : (self.rows.zipIdx.filter fun (_, row) => some row ≠ self.first) =
      self.rows.zipIdx := by
    simp [h]
  rw [entries, hall, h]
  simp

theorem entries_of_some (h : self.first = some row) :
    ∃ entry, self.rows[row]? = some entry ∧ self.entries = entry :: self.rows.eraseIdx row := by
  obtain ⟨-, hlt⟩ := self.listed row h
  refine ⟨self.rows[row], List.getElem?_eq_getElem hlt, ?_⟩
  have hrest := map_filter_zipIdx self.rows row 0
  rw [Nat.zero_add] at hrest
  rw [entries, h, Option.bind_some, List.getElem?_eq_getElem hlt, hrest]
  rfl

theorem get_eq (self : Participants) (index : ℕ) : self.get index = self.entries[index]? := by
  unfold get
  cases hfirst : self.first with
  | none => rw [entries_of_none hfirst]
  | some row =>
    obtain ⟨entry, hentry, heq⟩ := entries_of_some hfirst
    obtain ⟨hpos, -⟩ := self.listed row hfirst
    rw [heq]
    cases index with
    | zero => simpa using hentry
    | succ index =>
      rw [List.getElem?_cons_succ, List.getElem?_eraseIdx]
      dsimp only
      rw [if_neg (by omega)]
      split_ifs <;> first | rfl | omega

theorem entries_perm (self : Participants) : self.entries.Perm self.rows := by
  cases hfirst : self.first with
  | none => rw [entries_of_none hfirst]
  | some row =>
    obtain ⟨entry, hentry, heq⟩ := entries_of_some hfirst
    obtain ⟨hlt, rfl⟩ := List.getElem?_eq_some_iff.mp hentry
    rw [heq]
    exact List.getElem_cons_eraseIdx_perm hlt

theorem entries_ownFirst (h : ownRow members own = some row) :
    ∃ entry, members[row]? = some entry ∧
      (ownFirst members own).entries = entry :: members.eraseIdx row := by
  cases hrow : row with
  | zero =>
    subst hrow
    have hlt := lt_of_ownRow h
    have hnone : (ownFirst members own).first = none := by simp [ownFirst, h]
    refine ⟨members[0], List.getElem?_eq_getElem hlt, ?_⟩
    rw [entries_of_none hnone]
    cases members with
    | nil => cases hlt
    | cons entry rest => rfl
  | succ n =>
    subst hrow
    have hsome : (ownFirst members own).first = some (n + 1) := by simp [ownFirst, h]
    exact entries_of_some hsome

theorem entries_ownFirst_none (h : ownRow members own = none) :
    (ownFirst members own).entries = members :=
  entries_of_none (by simp [ownFirst, h])

end Participants

end CayenChat.Members
