import Mathlib

/-! # The newest elements of a list

A list that keeps at most `n` of the elements it is given, those with the
greatest keys, in the order of their keys. It may forget the others as it goes:
what is kept of what was kept and came new is what is kept of everything.
-/

variable {α κ : Type*} [LinearOrder κ] {key : α → κ} {n : ℕ} {all all' kept kept' new l : List α}

/-- The `n` newest elements, oldest first. -/
structure Newest (key : α → κ) (n : ℕ) (all kept : List α) : Prop where
  ascending : kept.Pairwise fun a b => key a ≤ key b
  nodup : kept.Nodup
  subset : kept ⊆ all
  length : kept.length = min n all.length
  newer : ∀ a ∈ all, a ∉ kept → ∀ b ∈ kept, key a ≤ key b

theorem exists_notMem_of_length_le (hd : kept.Nodup) (hl : l.length ≤ kept.length) {b : α}
    (hb : b ∈ l) (hk : b ∉ kept) : ∃ a ∈ kept, a ∉ l := by
  by_contra! h
  have hsub : kept.Subperm l := List.subperm_of_subset hd h
  exact hk ((hsub.perm_of_length_le hl).mem_iff.mpr hb)

theorem newest_drop (hs : l.Pairwise fun a b => key a ≤ key b) (hd : l.Nodup) (hp : l.Perm all) :
    Newest key n all (l.drop (l.length - n)) where
  ascending := hs.sublist (List.drop_sublist ..)
  nodup := hd.sublist (List.drop_sublist ..)
  subset := fun _ ha => hp.subset (List.mem_of_mem_drop ha)
  length := by
    rw [List.length_drop, ← hp.length_eq]
    omega
  newer a ha hna b hb := by
    have hl : a ∈ l.take (l.length - n) ++ l.drop (l.length - n) := by
      rw [List.take_append_drop]
      exact hp.mem_iff.mpr ha
    have ha' := (List.mem_append.mp hl).resolve_right hna
    rw [← List.take_append_drop (l.length - n) l, List.pairwise_append] at hs
    exact hs.2.2 a ha' b hb

namespace Newest

theorem full (h : Newest key n all kept) {a : α} (ha : a ∈ all) (hk : a ∉ kept) :
    kept.length = n := by
  have hlen := h.length
  by_contra hne
  have hle : all.length ≤ kept.length := by omega
  obtain ⟨b, hb, hnb⟩ := exists_notMem_of_length_le h.nodup hle ha hk
  exact hnb (h.subset hb)

theorem append (h : Newest key n all kept) (hd : (all ++ new).Nodup)
    (hs : l.Pairwise fun a b => key a ≤ key b) (hp : l.Perm (kept ++ new)) :
    Newest key n (all ++ new) (l.drop (l.length - n)) := by
  obtain ⟨-, hnew, hdisj⟩ := List.nodup_append.mp hd
  have hkn : (kept ++ new).Nodup :=
    List.nodup_append.mpr ⟨h.nodup, hnew, fun a ha b hb => hdisj a (h.subset ha) b hb⟩
  have h' : Newest key n (kept ++ new) (l.drop (l.length - n)) :=
    newest_drop hs (hp.nodup_iff.mpr hkn) hp
  have hlen := h.length
  have hlen' := h'.length
  rw [List.length_append] at hlen'
  generalize l.drop (l.length - n) = L at h' hlen' ⊢
  constructor
  · exact h'.ascending
  · exact h'.nodup
  · intro a ha
    rcases List.mem_append.mp (h'.subset ha) with ha | ha
    · exact List.mem_append_left _ (h.subset ha)
    · exact List.mem_append_right _ ha
  · rw [List.length_append]
    omega
  · intro a ha hna b hb
    by_cases hkept : a ∈ kept ++ new
    · exact h'.newer a hkept hna b hb
    · have hak : a ∉ kept := fun hc => hkept (List.mem_append_left _ hc)
      have haa : a ∈ all :=
        (List.mem_append.mp ha).resolve_right fun hc => hkept (List.mem_append_right _ hc)
      rcases List.mem_append.mp (h'.subset hb) with hbk | hbn
      · exact h.newer a haa hak b hbk
      · -- the new element took the place of one that was kept
        have hfull := h.full haa hak
        have hbk : b ∉ kept := fun hc => hdisj b (h.subset hc) b hbn rfl
        obtain ⟨c, hc, hcL⟩ := exists_notMem_of_length_le h.nodup (by omega) hb hbk
        calc key a ≤ key c := h.newer a haa hak c hc
          _ ≤ key b := h'.newer c (List.mem_append_left _ hc) hcL b hb

theorem perm (h : Newest key n all kept) (hp : all.Perm all') : Newest key n all' kept where
  ascending := h.ascending
  nodup := h.nodup
  subset _ ha := hp.subset (h.subset ha)
  length := hp.length_eq ▸ h.length
  newer a ha := h.newer a (hp.mem_iff.mpr ha)

theorem unique (h : Newest key n all kept) (h' : Newest key n all kept')
    (hk : ∀ a ∈ all, ∀ b ∈ all, key a = key b → a = b) : kept = kept' := by
  have hlen : kept'.length = kept.length := h'.length.trans h.length.symm
  have hsub : kept ⊆ kept' := by
    intro a ha
    by_contra hna
    obtain ⟨b, hb, hnb⟩ := exists_notMem_of_length_le h'.nodup hlen.ge ha hna
    have hab := h'.newer a (h.subset ha) hna b hb
    have hba := h.newer b (h'.subset hb) hnb a ha
    have heq := hk a (h.subset ha) b (h'.subset hb) (hab.antisymm hba)
    exact hna (heq ▸ hb)
  have hp := (List.subperm_of_subset h.nodup hsub).perm_of_length_le hlen.le
  refine hp.eq_of_pairwise (fun a b ha hb hab hba => ?_) h.ascending h'.ascending
  exact hk a (h.subset ha) b (h'.subset hb) (hab.antisymm hba)

end Newest

/-! ## The end of a merge

A heap of heads, each with what lies behind it, gives out its greatest elements one by one; what it
gives out is the end of everything in order. The end of a merge of two lists only needs the ends.
-/

namespace Merged

variable {α : Type*}

/-- The last `n` elements. -/
def lastN (n : ℕ) (l : List α) : List α := l.drop (l.length - n)

/-- The last `n` elements of an ascending arrangement. -/
def EndOf (le : α → α → Prop) (n : ℕ) (all kept : List α) : Prop :=
  ∃ sorted : List α, sorted.Perm all ∧ sorted.Pairwise le ∧ kept = lastN n sorted

variable {n : ℕ} {l older kept : List α} {a : α}

theorem lastN_cons (h : n ≤ l.length) : lastN n (a :: l) = lastN n l := by
  rw [lastN, lastN, List.length_cons, Nat.sub_add_comm h, List.drop_succ_cons]

theorem lastN_append (h : kept.length = n ∨ older = []) : lastN n (older ++ kept) = lastN n kept := by
  rcases h with rfl | rfl
  · rw [lastN, lastN, List.length_append, Nat.add_sub_cancel, Nat.sub_self, List.drop_left,
      List.drop_zero]
  · rfl

section Merge

variable {le : α → α → Bool}

theorem lastN_merge (htrans : ∀ a b c, le a b = true → le b c = true → le a c = true)
    (hsorted : (older ++ kept).Pairwise (le · ·)) (hlen : kept.length = n) :
    lastN n (List.merge (older ++ kept) l le) = lastN n (List.merge kept l le) := by
  induction older generalizing l with
  | nil => rfl
  | cons a older ih =>
    obtain ⟨hfirst, hrest⟩ := List.pairwise_cons.mp hsorted
    induction l with
    | nil =>
      rw [List.merge_right, List.merge_right]
      exact lastN_append (Or.inl hlen)
    | cons b l ihl =>
      have hlong : ∀ l, n ≤ (List.merge kept l le).length := by
        intro l
        rw [List.length_merge]
        omega
      by_cases hab : le a b = true
      · have hlong' : n ≤ (List.merge (older ++ kept) (b :: l) le).length := by
          rw [List.length_merge, List.length_append]
          omega
        rw [List.cons_append, List.cons_merge_cons_pos le _ _ hab, lastN_cons hlong']
        exact ih hrest
      · have hlong' : n ≤ (List.merge (a :: (older ++ kept)) l le).length := by
          rw [List.length_merge, List.length_cons, List.length_append]
          omega
        rw [List.cons_append, List.cons_merge_cons_neg le _ _ hab, lastN_cons hlong']
        -- The element taken from the other list is below everything of this one.
        have hkept : List.merge kept (b :: l) le = b :: List.merge kept l le := by
          cases kept with
          | nil => simp
          | cons c kept =>
            apply List.cons_merge_cons_neg
            intro hcb
            exact hab (htrans _ _ _ (hfirst c (by simp)) hcb)
        rw [hkept, lastN_cons (hlong l)]
        exact ihl

end Merge

section Heap

variable [LinearOrder α]

def popMax (heap : List α) : Option (α × List α) := heap.max?.map fun a => (a, heap.erase a)

variable {heap rest : List α}

theorem popMax_perm (h : popMax heap = some (a, rest)) : heap.Perm (a :: rest) := by
  obtain ⟨b, hb, heq⟩ := Option.map_eq_some_iff.mp h
  cases heq
  exact List.perm_cons_erase (List.max?_mem hb)

theorem popMax_le (h : popMax heap = some (a, rest)) : ∀ b ∈ rest, b ≤ a := by
  obtain ⟨c, hc, heq⟩ := Option.map_eq_some_iff.mp h
  cases heq
  intro b hb
  exact (List.max?_eq_some_iff.mp hc).2 b (List.mem_of_mem_erase hb)

theorem popMax_none (h : popMax heap = none) : heap = [] := by
  simpa [popMax] using h

/-- The greatest elements one after the other, where each is replaced by the next one behind it. -/
def takeNewest (next : α → Option α) : ℕ → List α → List α
  | 0, _ => []
  | n + 1, heap => match popMax heap with
    | none => []
    | some (a, rest) => a :: takeNewest next n ((next a).toList ++ rest)

variable {next : α → Option α} {chain : α → List α}

theorem takeNewest_spec (hchain : ∀ a, chain a = a :: (next a).toList.flatMap chain)
    (hdown : ∀ a ∈ heap, (chain a).Pairwise (· ≥ ·)) :
    ∃ rest, (takeNewest next n heap ++ rest).Perm (heap.flatMap chain) ∧
      (takeNewest next n heap ++ rest).Pairwise (· ≥ ·) ∧
      ((takeNewest next n heap).length = n ∨ rest = []) := by
  induction n generalizing heap with
  | zero =>
    refine ⟨(heap.flatMap chain).mergeSort (· ≥ ·), List.mergeSort_perm .., ?_, Or.inl rfl⟩
    have := @List.pairwise_mergeSort α (fun a b => decide (a ≥ b))
      (by simpa using fun a b c hab hbc => le_trans hbc hab)
      (by simpa using fun a b => le_total b a) (heap.flatMap chain)
    simpa [takeNewest] using this
  | succ n ih =>
    rw [takeNewest]
    cases hpop : popMax heap with
    | none => exact ⟨[], by simp [popMax_none hpop], by simp, Or.inr rfl⟩
    | some pair =>
      obtain ⟨a, rest⟩ := pair
      have hperm := popMax_perm hpop
      have hself : ∀ b, b ∈ chain b := by
        intro b
        rw [hchain]
        exact List.mem_cons_self
      have hbehind := hdown a (hperm.mem_iff.mpr List.mem_cons_self)
      rw [hchain, List.pairwise_cons] at hbehind
      have hnext : ∀ b ∈ (next a).toList ++ rest, (chain b).Pairwise (· ≥ ·) := by
        intro b hb
        rcases List.mem_append.mp hb with hb | hb
        · rw [Option.mem_toList] at hb
          rw [Option.mem_def.mp hb] at hbehind
          simpa using hbehind.2
        · exact hdown b (hperm.mem_iff.mpr (List.mem_cons_of_mem _ hb))
      obtain ⟨others, hothers, hsorted, hlen⟩ := ih hnext
      have hall : ((takeNewest next n ((next a).toList ++ rest)) ++ others).Perm
          ((next a).toList.flatMap chain ++ rest.flatMap chain) := by
        rwa [List.flatMap_append] at hothers
      refine ⟨others, ?_, ?_, hlen.imp_left fun h => congrArg (· + 1) h⟩
      · refine .trans ?_ (hperm.flatMap_right chain).symm
        rw [List.flatMap_cons, hchain a]
        exact hall.cons a
      · refine List.pairwise_cons.mpr ⟨?_, hsorted⟩
        intro b hb
        rcases List.mem_append.mp (hall.mem_iff.mp hb) with hb | hb
        · exact hbehind.1 b hb
        · obtain ⟨c, hc, hb⟩ := List.mem_flatMap.mp hb
          have hca := popMax_le hpop c hc
          have hdc := hdown c (hperm.mem_iff.mpr (List.mem_cons_of_mem _ hc))
          rw [hchain c] at hb hdc
          rcases List.mem_cons.mp hb with rfl | hb
          · exact hca
          · exact le_trans ((List.pairwise_cons.mp hdc).1 b hb) hca

end Heap

end Merged
