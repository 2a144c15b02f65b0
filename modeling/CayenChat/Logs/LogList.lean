import Mathlib

/-! # Rows of a log

A list that knows the heights of the rows it has laid out and the row at its top, and the keys by
which it finds its rows again when they change. The list's splice replaces rows by unmeasured ones
and moves the top with them.
-/

namespace CayenChat.Logs

/-- Where a list that was never scrolled stands. -/
inductive ListAlignment
  | top | bottom
  deriving DecidableEq

/-- A splice that was made, with the number of rows there were. -/
structure Splice where
  start : ℕ
  stop : ℕ
  count : ℕ
  rows : ℕ
  deriving DecidableEq

structure ListState (Px : Type*) where
  alignment : ListAlignment
  /-- The heights of the rows that were measured. -/
  items : List (Option Px) := []
  scrollTop : Option (ℕ × Px) := none
  /-- Every splice that was made; nothing reads it. -/
  splices : List Splice := []

variable {Px : Type*} [Zero Px]

namespace ListState

def logicalScrollTop (state : ListState Px) : ℕ × Px :=
  state.scrollTop.getD (match state.alignment with
    | .top => (0, 0)
    | .bottom => (state.items.length, 0))

/-- Replaces the rows of a range by unmeasured ones. -/
def splice (state : ListState Px) (start stop count : ℕ) : ListState Px :=
  { state with
    items := state.items.take start ++ List.replicate count none ++ state.items.drop stop
    scrollTop := state.scrollTop.map fun (ix, offset) =>
      if start ≤ ix ∧ ix < stop then (start, 0)
      else if stop ≤ ix then (ix - (stop - start) + count, offset)
      else (ix, offset)
    splices := state.splices ++ [⟨start, stop, count, state.items.length⟩] }

def spliceBehind (rows : ℕ) (state : ListState Px) : ℕ × ℕ × ℕ → ListState Px
  | (start, stop, count) => state.splice (rows + start) (rows + stop) count

def scrollTo (state : ListState Px) (ix : ℕ) (offset : Px) : ListState Px :=
  { state with
    scrollTop := some (if state.items.length ≤ ix then (state.items.length, 0) else (ix, offset)) }

end ListState

/-- A list of fixed rows followed by rows that are known by their keys. -/
structure LogList (Px : Type*) where
  state : ListState Px
  prefixRows : ℕ := 0
  sequences : List ℕ := []
  shapes : List ℕ := []

/-- `slice::binary_search` of an ascending list. -/
def binarySearch (xs : List ℕ) (x : ℕ) : Option ℕ := xs.findIdx? (· == x)

/-! ## The walk over two ascending lists -/

section Walk

variable (old new : List ℕ)

def Meets (i j : ℕ) : Prop := 0 < i ∧ 0 < j ∧ old.getD (i - 1) 0 = new.getD (j - 1) 0

instance (i j : ℕ) : Decidable (Meets old new i j) := inferInstanceAs (Decidable (_ ∧ _))

/-- Goes on to where the lists meet again. -/
def gap : ℕ → ℕ → ℕ → ℕ × ℕ
  | 0, i, j => (i, j)
  | fuel + 1, i, j =>
    if (0 < i ∨ 0 < j) ∧ ¬Meets old new i j then
      if j = 0 ∨ 0 < i ∧ new.getD (j - 1) 0 < old.getD (i - 1) 0 then gap fuel (i - 1) j
      else gap fuel i (j - 1)
    else (i, j)

/-- The ranges of rows to replace, from the end on, and by how many rows. -/
def walk : ℕ → ℕ → ℕ → List (ℕ × ℕ × ℕ)
  | 0, _, _ => []
  | fuel + 1, i, j =>
    if 0 < i ∨ 0 < j then
      if Meets old new i j then walk fuel (i - 1) (j - 1)
      else
        let (i', j') := gap old new (i + j) i j
        (i', i, j - j') :: walk fuel i' j'
    else []

end Walk

def shape (shapes : List ℕ) (index : ℕ) : ℕ := shapes.getD index 0

/-- The keys that are in both lists with different shapes, from two positions on. -/
def reshapedFrom (old oldShapes new shapes : List ℕ) : ℕ → ℕ → ℕ → List ℕ
  | 0, _, _ => []
  | fuel + 1, i, j =>
    match old[i]?, new[j]? with
    | some x, some y =>
      if x < y then reshapedFrom old oldShapes new shapes fuel (i + 1) j
      else if y < x then reshapedFrom old oldShapes new shapes fuel i (j + 1)
      else
        (if shape oldShapes i ≠ shape shapes j then [x] else []) ++
          reshapedFrom old oldShapes new shapes fuel (i + 1) (j + 1)
    | _, _ => []

def commonHead : List ℕ → List ℕ → ℕ
  | a :: as, b :: bs => if a = b then commonHead as bs + 1 else 0
  | _, _ => 0

namespace LogList

def anchor (l : LogList Px) : Option (ℕ × Px) :=
  let (ix, offset) := l.state.logicalScrollTop
  if l.prefixRows ≤ ix then l.sequences[ix - l.prefixRows]?.map fun sequence => (sequence, offset)
  else none

variable [DecidableEq Px]

def scrollToRow (l : LogList Px) (ix : ℕ) (offset : Px) : LogList Px :=
  if l.state.logicalScrollTop ≠ (ix, offset) then { l with state := l.state.scrollTo ix offset }
  else l

/-- Forgets the height of a row that is not at the top. -/
def invalidate (l : LogList Px) (sequence : ℕ) : LogList Px :=
  match binarySearch l.sequences sequence with
  | none => l
  | some index =>
    let index := l.prefixRows + index
    if l.state.logicalScrollTop.1 ≠ index then
      { l with state := l.state.splice index (index + 1) 1 }
    else l

def reshaped (l : LogList Px) (sequences shapes : List ℕ) : List ℕ :=
  if sequences = l.sequences ∧ shapes = l.shapes then []
  else reshapedFrom l.sequences l.shapes sequences shapes
    (l.sequences.length + sequences.length) 0 0

def setPrefixRows (l : LogList Px) (rows : ℕ) : LogList Px :=
  if rows ≠ l.prefixRows then
    { l with state := l.state.splice 0 l.prefixRows rows, prefixRows := rows }
  else l

def spliceAll (l : LogList Px) (splices : List (ℕ × ℕ × ℕ)) : LogList Px :=
  { l with state := splices.foldl (ListState.spliceBehind l.prefixRows) l.state }

def restore (l : LogList Px) (find : ℕ → Option ℕ) : Option (ℕ × Px) → LogList Px
  | none => l
  | some (key, offset) =>
    match find key with
    | none => l
    | some index => l.scrollToRow (l.prefixRows + index) offset

/-- Tells the list which rows there are, with a shape for each of them. -/
def syncShaped (l : LogList Px) (rows : ℕ) (sequences shapes : List ℕ) : LogList Px :=
  let anchor := l.anchor
  let l := l.setPrefixRows rows
  if sequences = l.sequences ∧ shapes = l.shapes then l
  else
    let reshaped := l.reshaped sequences shapes
    let l := { l with shapes := shapes }
    if sequences = l.sequences then reshaped.foldl invalidate l
    else
      let l := l.spliceAll (walk l.sequences sequences (l.sequences.length + sequences.length)
        l.sequences.length sequences.length)
      let l := { l with sequences := sequences }
      let l := l.restore (binarySearch l.sequences) anchor
      reshaped.foldl invalidate l

/-- The same for keys in any order. -/
def syncUnordered (l : LogList Px) (rows : ℕ) (keys : List ℕ) : LogList Px :=
  let anchor := l.anchor
  let l := l.setPrefixRows rows
  if keys = l.sequences then l
  else
    let head := commonHead l.sequences keys
    let tail := commonHead (l.sequences.drop head).reverse (keys.drop head).reverse
    let l := { l with
      state := l.state.splice (rows + head) (rows + l.sequences.length - tail)
        (keys.length - head - tail)
      sequences := keys
      shapes := [] }
    l.restore (fun key => l.sequences.findIdx? (· == key)) anchor

end LogList

end CayenChat.Logs
