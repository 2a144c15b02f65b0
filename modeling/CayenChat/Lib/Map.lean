import Mathlib

/-! # Finite maps

Finite maps as association lists without repeated keys, read by `lookup`
only: what an update does to every key at once.
-/

abbrev Map (κ ν : Type*) := AList fun _ : κ => ν

namespace Map

variable {κ ν μ : Type*}

def values (m : Map κ ν) : List ν := m.entries.map Sigma.snd

def mapValues (f : ν → μ) (m : Map κ ν) : Map κ μ :=
  ⟨m.entries.map (Sigma.map id fun _ => f), m.nodupKeys.map₂ _⟩

def retain (p : κ → Bool) (m : Map κ ν) : Map κ ν :=
  ⟨m.entries.filter fun e => p e.1, List.NodupKeys.sublist List.filter_sublist m.nodupKeys⟩

def keepValues (p : ν → Bool) (m : Map κ ν) : Map κ ν :=
  ⟨m.entries.filter fun e => p e.2, List.NodupKeys.sublist List.filter_sublist m.nodupKeys⟩

variable [DecidableEq κ] {m : Map κ ν} {a b : κ} {v : ν}

def adjust (m : Map κ ν) (a : κ) (f : ν → ν) : Map κ ν :=
  match m.lookup a with
  | some v => m.insert a (f v)
  | none => m

theorem lookup_insert : AList.lookup b (m.insert a v) = if b = a then some v else m.lookup b := by
  split_ifs with h
  · rw [h, AList.lookup_insert]
  · exact AList.lookup_insert_ne h

theorem lookup_erase : AList.lookup b (m.erase a) = if b = a then none else m.lookup b := by
  split_ifs with h
  · rw [h, AList.lookup_erase]
  · exact AList.lookup_erase_ne h

theorem of_lookup_insert (h : (AList.lookup b (m.insert a v)).isSome) :
    (m.lookup b).isSome ∨ b = a := by
  rw [lookup_insert] at h
  split_ifs at h with hb
  · exact Or.inr hb
  · exact Or.inl h

theorem of_lookup_erase (h : (AList.lookup b (m.erase a)).isSome) :
    (m.lookup b).isSome ∧ b ≠ a := by
  rw [lookup_erase] at h
  split_ifs at h with hb
  · cases h
  · exact ⟨h, hb⟩

theorem lookup_retain {p : κ → Bool} :
    (retain p m).lookup a = if p a then m.lookup a else none := by
  ext v
  have hm : v ∈ (retain p m).lookup a ↔ Sigma.mk a v ∈ m.entries ∧ p a = true :=
    AList.mem_lookup_iff.trans List.mem_filter
  split_ifs with hp
  · exact hm.trans ((and_iff_left hp).trans AList.mem_lookup_iff.symm)
  · constructor
    · intro h
      exact absurd (hm.mp h).2 hp
    · intro h
      cases h

theorem lookup_keepValues {p : ν → Bool} :
    (keepValues p m).lookup a = (m.lookup a).filter p := by
  ext v
  have hm : v ∈ (keepValues p m).lookup a ↔ Sigma.mk a v ∈ m.entries ∧ p v = true :=
    AList.mem_lookup_iff.trans List.mem_filter
  exact hm.trans ((and_congr_left' AList.mem_lookup_iff.symm).trans Option.mem_filter_iff.symm)

theorem lookup_adjust {f : ν → ν} :
    (adjust m a f).lookup b = if b = a then (m.lookup b).map f else m.lookup b := by
  unfold adjust
  cases h : m.lookup a with
  | some v =>
    rw [lookup_insert]
    split_ifs with hb
    · rw [hb, h, Option.map_some]
    · rfl
  | none =>
    split_ifs with hb
    · rw [hb, h, Option.map_none]
    · rfl

theorem lookup_foldl_adjust {f : ν → ν} (hf : ∀ v, f (f v) = f v) (as : List κ) :
    (as.foldl (fun m a => adjust m a f) m).lookup b =
      if b ∈ as then (m.lookup b).map f else m.lookup b := by
  induction as generalizing m with
  | nil => simp
  | cons a as ih =>
    rw [List.foldl_cons, ih, lookup_adjust]
    by_cases hb : b = a <;> by_cases has : b ∈ as <;>
      simp [hb, has, Option.map_map, Function.comp_def, hf]

theorem length_erase_le : (m.erase a).entries.length ≤ m.entries.length := by
  have h := (List.erase_sublist (a := a) (l := m.keys)).length_le
  rw [← AList.keys_erase] at h
  simpa [AList.keys, List.keys] using h

theorem length_erase_of_lookup (h : m.lookup a = some v) :
    (m.erase a).entries.length + 1 = m.entries.length := by
  have ha : a ∈ m.keys := AList.mem_keys.mp (AList.lookup_isSome.mp (by rw [h]; rfl))
  have hl := List.length_erase_of_mem ha
  have hp := List.length_pos_of_mem ha
  rw [← AList.keys_erase] at hl
  simp only [AList.keys, List.keys, List.length_map] at hl hp
  omega

theorem length_insert_le : (m.insert a v).entries.length ≤ m.entries.length + 1 := by
  have h := (List.erase_sublist (a := a) (l := m.keys)).length_le
  have hk : (m.insert a v).keys.length = (m.keys.erase a).length + 1 := by
    rw [AList.keys_insert, List.length_cons]
  simp only [AList.keys, List.keys, List.length_map] at h hk
  omega

theorem length_insert_of_lookup {w : ν} (h : m.lookup a = some w) :
    (m.insert a v).entries.length = m.entries.length := by
  have ha : a ∈ m.keys := AList.mem_keys.mp (AList.lookup_isSome.mp (by rw [h]; rfl))
  have hl := List.length_erase_of_mem ha
  have hp := List.length_pos_of_mem ha
  have hk : (m.insert a v).keys.length = (m.keys.erase a).length + 1 := by
    rw [AList.keys_insert, List.length_cons]
  simp only [AList.keys, List.keys, List.length_map] at hl hk hp
  omega

theorem length_le_of_lookup {n : Map κ ν} (h : ∀ a, (n.lookup a).isSome → (m.lookup a).isSome) :
    n.entries.length ≤ m.entries.length := by
  have hsub : n.keys ⊆ m.keys := by
    intro a ha
    exact AList.mem_keys.mp (AList.lookup_isSome.mp (h a (AList.lookup_isSome.mpr ha)))
  have hl := (n.keys_nodup.subperm hsub).length_le
  simpa only [AList.keys, List.keys, List.length_map] using hl

theorem length_adjust {f : ν → ν} : (adjust m a f).entries.length = m.entries.length := by
  unfold adjust
  cases h : m.lookup a with
  | some v => exact length_insert_of_lookup h
  | none => rfl

theorem lookup_mapValues {f : ν → μ} : (mapValues f m).lookup a = (m.lookup a).map f :=
  List.dlookup_map₂ a

theorem mem_values : v ∈ values m ↔ ∃ a, m.lookup a = some v := by
  simp only [values, List.mem_map, ← Option.mem_def, AList.mem_lookup_iff]
  constructor
  · rintro ⟨⟨a, v⟩, h, rfl⟩
    exact ⟨a, h⟩
  · rintro ⟨a, h⟩
    exact ⟨⟨a, v⟩, h, rfl⟩

theorem filterMap_lookup_keys : (m.keys.filterMap fun a => m.lookup a) = values m := by
  rw [AList.keys, List.keys, List.filterMap_map, values, ← List.filterMap_eq_map]
  exact List.filterMap_congr fun e he => AList.mem_lookup_iff.mpr he

theorem pairwise_values {R : ν → ν → Prop}
    (h : ∀ {a b v w}, m.lookup a = some v → m.lookup b = some w → a ≠ b → R v w) :
    (values m).Pairwise R := by
  have hk := List.nodupKeys_iff_pairwise.mp m.nodupKeys
  rw [values, List.pairwise_map]
  refine hk.imp_of_mem fun {e e'} he he' hne => h ?_ ?_ hne
  · exact AList.mem_lookup_iff.mpr he
  · exact AList.mem_lookup_iff.mpr he'

end Map

/-! ## Results that are kept

A table of the results of a function, under keys made from its arguments, that starts over when it
is full. While it holds only results of the function, what is found in it is what the function
gives.
-/

namespace Memo

open Map

variable {α κ ν : Type*} [DecidableEq κ] {f : α → ν} {key : α → κ} {cache : Map κ ν} {a : α} {v : ν}
  {capacity : ℕ}

def keep (capacity : ℕ) (cache : Map κ ν) (k : κ) (v : ν) : Map κ ν :=
  (if cache.entries.length ≥ capacity then ∅ else cache).insert k v

def Honest (f : α → ν) (key : α → κ) (cache : Map κ ν) : Prop :=
  ∀ k v, cache.lookup k = some v → ∃ a, key a = k ∧ f a = v

theorem honest_empty : Honest f key ∅ := by
  intro k v h
  simp at h

theorem Honest.eq (h : Honest f key cache) (hkey : Function.Injective key)
    (hfound : cache.lookup (key a) = some v) : v = f a := by
  obtain ⟨b, hb, rfl⟩ := h _ _ hfound
  rw [hkey hb]

theorem Honest.keep (h : Honest f key cache) (a : α) :
    Honest f key (keep capacity cache (key a) (f a)) := by
  intro k v hfound
  rw [Memo.keep, lookup_insert] at hfound
  by_cases hk : k = key a
  · rw [if_pos hk] at hfound
    exact ⟨a, hk.symm, Option.some.inj hfound⟩
  · rw [if_neg hk] at hfound
    split_ifs at hfound
    · simp at hfound
    · exact h k v hfound

theorem length_keep (hpos : 0 < capacity) {k : κ} :
    (keep capacity cache k v).entries.length ≤ capacity := by
  have hinsert := length_insert_le
    (m := if cache.entries.length ≥ capacity then (∅ : Map κ ν) else cache) (a := k) (v := v)
  rw [Memo.keep]
  split_ifs at hinsert ⊢ with h
  · exact hinsert.trans (Nat.succ_le_of_lt hpos)
  · omega

end Memo
