import CayenChat.App.Shelf
import CayenChat.Lib.Arrange

/-! # Logs in ascending order

What the operations on one log do to a log whose sequences ascend: where a
streamed line goes, which lines a block is made of and how it is settled, and
which lines are dropped.
-/

namespace CayenChat.App

def Ascending (l : List Message) : Prop := l.Pairwise fun a b => a.sequence < b.sequence

variable {l : List Message} {m m' : Message} {x y : ℤ}

namespace Ascending

theorem index_inj (h : Ascending l) {i j : ℕ} (hi : l[i]? = some m) (hj : l[j]? = some m')
    (hs : m.sequence = m'.sequence) : i = j := by
  obtain ⟨hil, rfl⟩ := List.getElem?_eq_some_iff.mp hi
  obtain ⟨hjl, rfl⟩ := List.getElem?_eq_some_iff.mp hj
  have hp := List.pairwise_iff_getElem.mp h
  rcases Nat.lt_trichotomy i j with hlt | heq | hgt
  · exact absurd hs (hp i j hil hjl hlt).ne
  · exact heq
  · exact absurd hs (hp j i hjl hil hgt).ne'

theorem inj (h : Ascending l) (hm : m ∈ l) (hm' : m' ∈ l) (hs : m.sequence = m'.sequence) :
    m = m' := by
  obtain ⟨i, hi⟩ := List.mem_iff_getElem?.mp hm
  obtain ⟨j, hj⟩ := List.mem_iff_getElem?.mp hm'
  rw [h.index_inj hi hj hs, hj] at hi
  exact (Option.some.inj hi).symm

theorem sublist {l' : List Message} (h : Ascending l) (hs : l'.Sublist l) : Ascending l' :=
  List.Pairwise.sublist hs h

theorem below (h : Ascending l) (x : ℤ) :
    l.Pairwise fun a b => decide (b.sequence < x) = true → decide (a.sequence < x) = true := by
  refine h.imp fun {a b} hab hb => ?_
  rw [decide_eq_true_eq] at hb ⊢
  exact hab.trans hb

theorem filter_eq (h : Ascending l) (x : ℤ) :
    l = (l.filter fun m => m.sequence < x) ++ l.filter fun m => !decide (m.sequence < x) := by
  obtain ⟨ht, hd⟩ := Search.takeWhile_eq_filter (h.below x)
  rw [← ht, ← hd]
  exact List.takeWhile_append_dropWhile.symm

theorem lookup_eq_some (h : Ascending l) :
    Search.lookup Message.sequence x l = some m ↔ m ∈ l ∧ m.sequence = x :=
  Search.lookup_eq_some h

theorem lookup_eq_none (h : Ascending l) :
    Search.lookup Message.sequence x l = none ↔ ∀ m ∈ l, m.sequence ≠ x :=
  Search.lookup_eq_none h

theorem heldIn_iff (h : Ascending l) : heldIn l x = true ↔ ∃ m ∈ l, m.sequence = x := by
  rw [heldIn, Option.isSome_iff_exists]
  exact exists_congr fun m => h.lookup_eq_some

end Ascending

section Trimming

theorem drainLong_spec (fuel : ℕ) (l : List Message) :
    ∃ n, drainLong fuel l = l.drop n ∧ (l.length ≤ maxRetained → n = 0) ∧
      (l.length ≤ maxRetained + fuel → (drainLong fuel l).length ≤ maxRetained) := by
  induction fuel generalizing l with
  | zero => exact ⟨0, rfl, fun _ => rfl, fun h => h⟩
  | succ fuel ih =>
    unfold drainLong
    split_ifs with h
    · obtain ⟨n, hn, -, hb⟩ := ih (l.drop 1000)
      refine ⟨1000 + n, ?_, fun hl => absurd h (not_lt.mpr hl), fun hl => hb ?_⟩
      · rw [hn, List.drop_drop]
      · rw [List.length_drop]
        omega
    · exact ⟨0, rfl, fun _ => rfl, fun _ => not_lt.mp h⟩

theorem trimRetained_length (l : List Message) : (trimRetained l).1.length ≤ maxRetained := by
  obtain ⟨n, -, -, hb⟩ := drainLong_spec l.length l
  exact hb (by omega)

theorem trimRetained_suffix (l : List Message) : (trimRetained l).1 <:+ l := by
  obtain ⟨n, hn, -, -⟩ := drainLong_spec l.length l
  exact (show (trimRetained l).1 = l.drop n from hn) ▸ List.drop_suffix n l

theorem trimRetained_eq (h : l.length ≤ maxRetained) : trimRetained l = (l, false) := by
  obtain ⟨n, hn, h0, -⟩ := drainLong_spec l.length l
  rw [h0 h, List.drop_zero] at hn
  rw [trimRetained, hn, decide_eq_false (not_lt.mpr h)]

theorem Ascending.dropped {l' : List Message} (h : Ascending l) (hs : l' <:+ l) (hm : m ∈ l)
    (hno : m ∉ l') : ∀ m' ∈ l', m.sequence < m'.sequence := by
  obtain ⟨gone, rfl⟩ := hs
  have hg : m ∈ gone := (List.mem_append.mp hm).resolve_right hno
  exact (List.pairwise_append.mp h).2.2 m hg

end Trimming

section Placing

theorem insertIdx_partitionPoint (h : Ascending l) (m : Message) :
    l.insertIdx (Search.partitionPoint (fun a => a.sequence < m.sequence) l) m =
      (l.filter fun a => a.sequence < m.sequence) ++
        m :: l.filter fun a => !decide (a.sequence < m.sequence) := by
  rw [Arrange.insertIdx_eq Search.partitionPoint_le, Search.take_partitionPoint (h.below _),
    Search.drop_partitionPoint (h.below _)]

theorem mem_place : m' ∈ l.insertIdx
    (Search.partitionPoint (fun a => a.sequence < m.sequence) l) m ↔ m' = m ∨ m' ∈ l :=
  List.mem_insertIdx Search.partitionPoint_le

theorem Ascending.place (h : Ascending l) (hno : ∀ a ∈ l, a.sequence ≠ m.sequence) :
    Ascending (l.insertIdx (Search.partitionPoint (fun a => a.sequence < m.sequence) l) m) := by
  refine Arrange.pairwise_insertIdx h Search.partitionPoint_le ?_ ?_
  · rw [Search.take_partitionPoint (h.below _)]
    intro a ha
    simpa using (List.mem_filter.mp ha).2
  · rw [Search.drop_partitionPoint (h.below _)]
    intro a ha
    obtain ⟨hal, hlt⟩ := List.mem_filter.mp ha
    have hle : m.sequence ≤ a.sequence := by simpa using hlt
    exact lt_of_le_of_ne hle (hno a hal).symm

theorem Ascending.append (h : Ascending l) (hlt : ∀ a ∈ l, a.sequence < m.sequence) :
    Ascending (l ++ [m]) := by
  refine List.pairwise_append.mpr ⟨h, List.pairwise_singleton _ _, ?_⟩
  rintro a ha b hb
  rw [List.mem_singleton.mp hb]
  exact hlt a ha

end Placing

section Editing

theorem edited_eq (h : Ascending l) (f : Message → Message) :
    AppState.edited l x f = l.map fun m => if m.sequence = x then f m else m := by
  unfold AppState.edited
  have hl := fun m => h.lookup_eq_some (x := x) (m := m)
  unfold Search.lookup at hl
  cases hb : Search.binarySearchBy (fun m => compare m.sequence x) l with
  | error i =>
    rw [hb] at hl
    have hno : ∀ m ∈ l, m.sequence ≠ x := fun m hm hx => by
      have := (hl m).mpr ⟨hm, hx⟩
      cases this
    exact (List.map_id'' (fun m => rfl) l).symm.trans
      (List.map_congr_left fun m hm => (if_neg (hno m hm)).symm)
  | ok i =>
    rw [hb] at hl
    dsimp only at hl ⊢
    apply List.ext_getElem?
    intro j
    rw [List.getElem?_modify, List.getElem?_map]
    cases hj : l[j]? with
    | none => rfl
    | some a =>
      by_cases hij : i = j
      · subst hij
        have ha := (hl a).mp hj
        simp [ha.2]
      · have hne : a.sequence ≠ x := by
          intro hx
          have hi := (hl a).mpr ⟨List.mem_of_getElem? hj, hx⟩
          exact hij (h.index_inj hi hj (((hl _).mp hi).2.trans hx.symm))
        simp [hij, hne]

end Editing

section Settling

theorem length_heldTimes (time : Option Timestamp) (times : List (Option Timestamp)) :
    (heldTimes time times).length = times.length := by
  induction times generalizing time with
  | nil => rfl
  | cons own rest ih => exact congrArg (· + 1) (ih _)

theorem serverTimeOrder_perm (times : List (Option Timestamp)) :
    (serverTimeOrder times).Perm (List.range times.length) := by
  have h := List.perm_insertionSort (fun i j => timeLe (heldTimes none times)[i]?.join
    (heldTimes none times)[j]?.join) (List.range (heldTimes none times).length)
  rw [length_heldTimes] at h
  unfold serverTimeOrder
  dsimp only
  rwa [length_heldTimes]

theorem filterMap_range {α : Type} (l : List α) :
    (List.range l.length).filterMap (l[·]?) = l := by
  induction l using List.reverseRecOn with
  | nil => rfl
  | append_singleton l a ih =>
    rw [List.length_append, List.length_singleton, List.range_succ, List.filterMap_append]
    have hl : (List.range l.length).filterMap (fun i => (l ++ [a])[i]?) =
        (List.range l.length).filterMap (l[·]?) := by
      refine List.filterMap_congr fun i hi => ?_
      exact List.getElem?_append_left (List.mem_range.mp hi)
    rw [hl, ih]
    simp

def inTimeOrder (l : List Message) : List Message :=
  (serverTimeOrder (l.map (·.timestamp))).filterMap (l[·]?)

theorem inTimeOrder_perm (l : List Message) : (inTimeOrder l).Perm l := by
  have h := (serverTimeOrder_perm (l.map (·.timestamp))).filterMap (l[·]?)
  rw [List.length_map, filterMap_range] at h
  exact h

theorem settled_eq {first : ℤ} {room : ℕ} (h : l.length ≤ room) :
    AppState.settled first room none l =
      (inTimeOrder l).mapIdx fun offset m => { m with sequence := first + offset } := by
  unfold AppState.settled
  change ((inTimeOrder l).take room).mapIdx _ = _
  rw [List.take_of_length_le]
  rwa [(inTimeOrder_perm l).length_eq]

theorem arrived_eq (h : Ascending l) (hxy : x ≤ y) :
    AppState.arrived l x y = l.filter fun m => decide (x ≤ m.sequence) && decide (m.sequence < y) := by
  unfold AppState.arrived
  rw [Search.take_partitionPoint (h.below y), Search.partitionPoint_eq (h.below x),
    (Search.takeWhile_eq_filter (h.below x)).1]
  have hb : (l.filter fun m => m.sequence < x) =
      (l.filter fun m => m.sequence < y).filter fun m => m.sequence < x := by
    rw [List.filter_filter]
    refine List.filter_congr fun m _ => ?_
    by_cases hm : m.sequence < x
    · simp [hm, hm.trans_le hxy]
    · simp [hm]
  have hf := (h.sublist (List.filter_sublist (p := fun m => m.sequence < y))).filter_eq x
  rw [hb]
  conv_lhs => rw [hf]
  rw [List.drop_left' (by rw [← hf]), List.filter_filter]
  refine List.filter_congr fun m _ => ?_
  by_cases hm : m.sequence < x
  · simp [hm, not_le.mpr hm]
  · simp [not_lt.mp hm]

theorem Ascending.split_eq (h : Ascending l) (hxy : x ≤ y) :
    l = (l.filter fun m => m.sequence < x) ++ AppState.arrived l x y ++
      l.filter fun m => !decide (m.sequence < y) := by
  have hf := (h.sublist (List.filter_sublist (p := fun m => m.sequence < y))).filter_eq x
  rw [List.filter_filter, List.filter_filter] at hf
  have hlow : (l.filter fun m => decide (m.sequence < x) && decide (m.sequence < y)) =
      l.filter fun m => m.sequence < x := by
    refine List.filter_congr fun m _ => ?_
    by_cases hm : m.sequence < x
    · simp [hm, hm.trans_le hxy]
    · simp [hm]
  have hmid : (l.filter fun m => !decide (m.sequence < x) && decide (m.sequence < y)) =
      AppState.arrived l x y := by
    rw [arrived_eq h hxy]
    refine List.filter_congr fun m _ => ?_
    by_cases hm : m.sequence < x
    · simp [hm, not_le.mpr hm]
    · simp [hm, not_lt.mp hm]
  rw [hlow, hmid] at hf
  calc l = (l.filter fun m => m.sequence < y) ++ l.filter fun m => !decide (m.sequence < y) :=
        h.filter_eq y
    _ = _ := by rw [← hf]

end Settling

end CayenChat.App
