import Mathlib

/-! # The first of each key

A list is gone through once with the keys seen so far: an element whose key
was seen is dropped, and a key counts as seen even when its element is dropped
for another reason.
-/

namespace Distinct

variable {α β : Type*} [DecidableEq β]

def retainFirst (allow : α → Bool) (key : α → β) (keep : α → Bool) : List β → List α → List α
  | _, [] => []
  | seen, a :: as =>
    if !allow a || seen.contains (key a) then retainFirst allow key keep seen as
    else if keep a then a :: retainFirst allow key keep (key a :: seen) as
    else retainFirst allow key keep (key a :: seen) as

variable {allow keep : α → Bool} {key : α → β} {seen : List β} {as : List α}

theorem retainFirst_eq_self (ha : ∀ a ∈ as, allow a = true) (hk : ∀ a ∈ as, keep a = true)
    (hs : ∀ a ∈ as, key a ∉ seen) (hn : (as.map key).Nodup) :
    retainFirst allow key keep seen as = as := by
  induction as generalizing seen with
  | nil => rfl
  | cons a as ih =>
    rw [List.map_cons, List.nodup_cons] at hn
    have hfirst : (!allow a || seen.contains (key a)) = false := by
      simp [ha a List.mem_cons_self, hs a List.mem_cons_self]
    unfold retainFirst
    rw [hfirst, if_neg Bool.false_ne_true, if_pos (hk a List.mem_cons_self)]
    rw [ih (fun b hb => ha b (List.mem_cons_of_mem _ hb))
      (fun b hb => hk b (List.mem_cons_of_mem _ hb)) ?_ hn.2]
    intro b hb hmem
    rcases List.mem_cons.mp hmem with he | hmem
    · exact hn.1 (he ▸ List.mem_map_of_mem hb)
    · exact hs b (List.mem_cons_of_mem _ hb) hmem

theorem mem_retainFirst {a : α} (h : a ∈ retainFirst allow key keep seen as) :
    a ∈ as ∧ allow a = true ∧ keep a = true ∧ key a ∉ seen := by
  induction as generalizing seen with
  | nil => cases h
  | cons b as ih =>
    unfold retainFirst at h
    split_ifs at h with hdrop hkeep
    · obtain ⟨hm, hrest⟩ := ih h
      exact ⟨List.mem_cons_of_mem _ hm, hrest⟩
    · rcases List.mem_cons.mp h with rfl | h
      · simp only [Bool.or_eq_true, Bool.not_eq_true', List.contains_iff_mem, not_or,
          Bool.not_eq_false] at hdrop
        exact ⟨List.mem_cons_self, hdrop.1, hkeep, hdrop.2⟩
      · obtain ⟨hm, ha, hk, hs⟩ := ih h
        exact ⟨List.mem_cons_of_mem _ hm, ha, hk, fun hmem => hs (List.mem_cons_of_mem _ hmem)⟩
    · obtain ⟨hm, ha, hk, hs⟩ := ih h
      exact ⟨List.mem_cons_of_mem _ hm, ha, hk, fun hmem => hs (List.mem_cons_of_mem _ hmem)⟩

theorem nodup_retainFirst : ((retainFirst allow key keep seen as).map key).Nodup := by
  induction as generalizing seen with
  | nil => exact List.nodup_nil
  | cons b as ih =>
    unfold retainFirst
    split_ifs
    · exact ih
    · refine List.nodup_cons.mpr ⟨fun hmem => ?_, ih⟩
      obtain ⟨a, ha, hkey⟩ := List.mem_map.mp hmem
      exact (mem_retainFirst ha).2.2.2 (hkey ▸ List.mem_cons_self)
    · exact ih

/-- What was kept is kept again. -/
theorem retainFirst_take (n : ℕ) :
    retainFirst allow key keep [] ((retainFirst allow key keep [] as).take n) =
      (retainFirst allow key keep [] as).take n :=
  retainFirst_eq_self (fun _ ha => (mem_retainFirst (List.mem_of_mem_take ha)).2.1)
    (fun _ ha => (mem_retainFirst (List.mem_of_mem_take ha)).2.2.1) (fun _ _ => List.not_mem_nil)
    (nodup_retainFirst.sublist ((List.take_sublist n _).map key))

end Distinct

/-! ## The first of a kind -/

namespace First

open List

variable {α : Type*} {l l' : List α} {p q : α → Bool} {i : ℕ} {f : α → α} {new : α} {put : Bool}

/-- The first element of a kind is changed or removed, or one is added where there is none. -/
inductive Put (p : α → Bool) (put : Bool) (f : α → α) (new : α) (l : List α) : List α → Prop
  | replaced {i : ℕ} (h : l.findIdx? p = some i) (hp : put = true) :
    Put p put f new l (l.modify i f)
  | removed {i : ℕ} (h : l.findIdx? p = some i) (hp : put = false) :
    Put p put f new l (l.eraseIdx i)
  | added (h : l.findIdx? p = none) (hp : put = true) : Put p put f new l (l ++ [new])
  | nothing (h : l.findIdx? p = none) (hp : put = false) : Put p put f new l l

theorem split (h : l.findIdx? p = some i) :
    ∃ a x b, l = a ++ x :: b ∧ l.modify i f = a ++ f x :: b ∧ l.eraseIdx i = a ++ b ∧
      (∀ y ∈ a, p y = false) ∧ p x = true := by
  obtain ⟨hlt, hx, hbefore⟩ := findIdx?_eq_some_iff_getElem.mp h
  refine ⟨l.take i, l[i], l.drop (i + 1), ?_, modify_eq_take_cons_drop hlt,
    eraseIdx_eq_take_drop_succ .., ?_, hx⟩
  · rw [← drop_eq_getElem_cons hlt, take_append_drop]
  · intro y hy
    obtain ⟨j, hj, rfl⟩ := getElem_of_mem hy
    rw [length_take, lt_min_iff] at hj
    simpa using hbefore j hj.1

theorem find?_skip {a b : List α} (h : ∀ y ∈ a, p y = false) : (a ++ b).find? p = b.find? p := by
  have hnone : a.find? p = none := by
    rw [find?_eq_none]
    intro y hy
    simp [h y hy]
  rw [find?_append, hnone, Option.none_or]

theorem Put.find?_self (h : Put p put f new l l') (hf : ∀ x, p x = true → p (f x) = true)
    (hnew : p new = true) (hone : put = false → (l.filter p).length ≤ 1) :
    l'.find? p = if put = true then some (((l.find? p).map f).getD new) else none := by
  cases h with
  | replaced h hp =>
    obtain ⟨a, x, b, hl, hmodify, -, ha, hx⟩ := split h
    rw [hmodify, hl, find?_skip ha, find?_skip ha, find?_cons_of_pos (hf x hx),
      find?_cons_of_pos hx, if_pos hp]
    rfl
  | removed h hp =>
    obtain ⟨a, x, b, hl, -, herase, ha, hx⟩ := @split _ l p _ id h
    have hlen := hone hp
    rw [hl, filter_append, filter_cons_of_pos hx, length_append, length_cons] at hlen
    have hb : b.filter p = [] := length_eq_zero_iff.mp (by omega)
    have hnone : ∀ y ∈ b, p y = false := by simpa [filter_eq_nil_iff] using hb
    rw [herase, find?_skip ha, ← append_nil b, find?_skip hnone, if_neg (by simp [hp])]
    rfl
  | added h hp =>
    have hnone : ∀ y ∈ l, p y = false := findIdx?_eq_none_iff.mp h
    have hold : l.find? p = none := by simpa using hnone
    rw [find?_skip hnone, find?_cons_of_pos hnew, if_pos hp, hold]
    rfl
  | nothing h hp =>
    have hnone : ∀ y ∈ l, p y = false := findIdx?_eq_none_iff.mp h
    rw [if_neg (by simp [hp])]
    simpa using hnone

theorem Put.find?_other (h : Put p put f new l l') (hf : ∀ x, p x = true → p (f x) = true)
    (hnew : p new = true) (hq : ∀ x, p x = true → q x = false) : l'.find? q = l.find? q := by
  cases h with
  | replaced h =>
    obtain ⟨a, x, b, hl, hmodify, -, -, hx⟩ := split h
    rw [hmodify, hl, find?_append, find?_append, find?_cons_of_neg (by simp [hq _ (hf x hx)]),
      find?_cons_of_neg (by simp [hq x hx])]
  | removed h =>
    obtain ⟨a, x, b, hl, -, herase, -, hx⟩ := @split _ l p _ id h
    rw [herase, hl, find?_append, find?_append, find?_cons_of_neg (by simp [hq x hx])]
  | added => rw [find?_append, find?_cons_of_neg (by simp [hq new hnew]), find?_nil, Option.or_none]
  | nothing => rfl

end First
