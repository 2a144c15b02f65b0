import CayenChat.Editing.Units
import CayenChat.Lib.Runs

/-! # Japanese phrases

Where the phrases of a text start, by the weights of the characters around a position. The table of
weights is a parameter.
-/

namespace CayenChat.Editing
open Utf8 SelectUnit

/-- Feature groups in the order the scorer uses them. -/
inductive Group
  | uw1 | uw2 | uw3 | uw4 | uw5 | uw6 | bw1 | bw2 | bw3 | tw1 | tw2 | tw3 | tw4
  deriving DecidableEq

/-- The weights of the features, and the sum of every weight. -/
structure PhraseModel where
  groups : Group → List Char → Option ℤ
  total : ℤ

namespace PhraseModel

variable (model : PhraseModel) (text : List Char)

def weight (group : Group) (first stop : ℕ) : ℤ :=
  (model.groups group ((text.drop first).take (stop - first))).getD 0

/-- The weights around a character, added. -/
def score (i : ℕ) : ℤ :=
  let n := text.length
  (if 2 < i then model.weight text .uw1 (i - 3) (i - 2) else 0) +
    (if 1 < i then model.weight text .uw2 (i - 2) (i - 1) else 0) +
    model.weight text .uw3 (i - 1) i + model.weight text .uw4 i (i + 1) +
    (if i + 1 < n then model.weight text .uw5 (i + 1) (i + 2) else 0) +
    (if i + 2 < n then model.weight text .uw6 (i + 2) (i + 3) else 0) +
    (if 1 < i then model.weight text .bw1 (i - 2) i else 0) +
    model.weight text .bw2 (i - 1) (i + 1) +
    (if i + 1 < n then model.weight text .bw3 i (i + 2) else 0) +
    (if 2 < i then model.weight text .tw1 (i - 3) i else 0) +
    (if 1 < i then model.weight text .tw2 (i - 2) (i + 1) else 0) +
    (if i + 1 < n then model.weight text .tw3 (i - 1) (i + 2) else 0) +
    (if i + 2 < n then model.weight text .tw4 i (i + 3) else 0)

def splits (i : ℕ) : Bool := model.total < 2 * model.score text i

/-- For each character after the first: its offset, whether it and its predecessor are both
Japanese, and whether a phrase starts with it. -/
def scan : List (ℕ × Bool × Bool) :=
  (List.range text.length).tail.map fun i =>
    (size (text.take i), text[i - 1]?.any isJapanese && text[i]?.any isJapanese,
      model.splits text i)

/-- The offsets at which a phrase starts; none for text without kana. -/
def boundaries : List ℕ :=
  if text.any isKana then
    (model.scan text).filterMap fun (at_, _, split) => if split then some at_ else none
  else []

end PhraseModel

def Script.withModel (script : Script) (model : PhraseModel) : Script :=
  { script with phraseStarts := model.splits }

variable {script : Script} {model : PhraseModel} {text line : List Char} {n i j : ℕ}

theorem boundaries_withModel (script : Script) (model : PhraseModel) (text : List Char) :
    SelectUnit.boundaries (script.withModel model) text = model.boundaries text := by
  unfold SelectUnit.boundaries PhraseModel.boundaries PhraseModel.scan
  split_ifs with h
  · rw [List.filterMap_map, ← List.filterMap_eq_filter, List.map_filterMap]
    congr 1
    funext i
    dsimp only [Function.comp_apply, Script.withModel]
    cases h : model.splits text i <;> simp [Option.guard, h]
  · rfl

/-! ## Boundaries -/

theorem size_take_lt (hi : i < j) (hj : j ≤ text.length) :
    size (text.take i) < size (text.take j) := by
  have htake : text.take j = text.take i ++ (text.drop i).take (j - i) := by
    rw [← List.take_add, Nat.add_sub_cancel' hi.le]
  have hne : (text.drop i).take (j - i) ≠ [] := by
    rw [ne_eq, ← List.length_eq_zero_iff, List.length_take, List.length_drop]
    omega
  have hpos : size ((text.drop i).take (j - i)) ≠ 0 := fun h => hne (size_eq_zero.mp h)
  rw [htake, size_append]
  omega

theorem boundaries_ascending (script : Script) (h : text ≠ []) :
    (0 :: SelectUnit.boundaries script text).Pairwise (· < ·) ∧
      ∀ b ∈ 0 :: SelectUnit.boundaries script text, b < size text := by
  have hsize : 0 < size text := Nat.pos_of_ne_zero fun hs => h (size_eq_zero.mp hs)
  unfold SelectUnit.boundaries
  split_ifs with hkana
  · have hrange : (List.range text.length).Pairwise (· < ·) := List.pairwise_lt_range
    have hmem : ∀ i ∈ (List.range text.length).tail, 0 < i ∧ i < text.length := by
      rw [List.tail_range]
      intro i hi
      rw [List.mem_range'_1] at hi
      omega
    have hbounds : ∀ i, 0 < i ∧ i < text.length →
        0 < size (text.take i) ∧ size (text.take i) < size text := by
      rintro i ⟨hpos, hlt⟩
      have hstart : size (text.take 0) < size (text.take i) := size_take_lt hpos hlt.le
      have hstop : size (text.take i) < size (text.take text.length) := size_take_lt hlt le_rfl
      rw [List.take_length] at hstop
      exact ⟨(Nat.zero_le _).trans_lt hstart, hstop⟩
    have hsub : ((List.range text.length).tail.filter (script.phraseStarts text)).Sublist
        (List.range text.length).tail := List.filter_sublist
    constructor
    · refine List.pairwise_cons.mpr ⟨?_, ?_⟩
      · intro b hb
        obtain ⟨i, hi, rfl⟩ := List.mem_map.mp hb
        exact (hbounds i (hmem i (hsub.mem hi))).1
      · rw [List.pairwise_map]
        refine List.Pairwise.imp_of_mem ?_
          (hrange.sublist (hsub.trans (List.tail_sublist _)))
        intro i j _ hj hlt
        exact size_take_lt hlt (hmem j (hsub.mem hj)).2.le
    · rintro b (_ | ⟨_, hb⟩)
      · exact hsize
      · obtain ⟨i, hi, rfl⟩ := List.mem_map.mp hb
        exact (hbounds i (hmem i (hsub.mem hi))).2
  · simpa using hsize

end CayenChat.Editing
