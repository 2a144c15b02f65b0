import CayenChat.Lib.Map

/-! # Totals of finite maps

A quantity of every value, summed over a finite map: what an update does to
the sum. Counting the values of one kind is the special case that is bounded
by a list of the keys such values may stand under.
-/

namespace Map

variable {κ ν μ M : Type*} [AddCommMonoid M] {m : Map κ ν} {a : κ} {v : ν} {f : ν → M}
  {p : ν → Bool}

def total (f : ν → M) (m : Map κ ν) : M := ((values m).map f).sum

@[simp] theorem total_empty : total f (∅ : Map κ ν) = 0 := rfl

theorem total_add {g : ν → M} : total (fun v => f v + g v) m = total f m + total g m :=
  List.sum_map_add

theorem total_mapValues {g : μ → ν} {m : Map κ μ} :
    total f (mapValues g m) = total (fun v => f (g v)) m := by
  unfold total values mapValues
  rw [List.map_map, List.map_map, List.map_map]
  rfl

theorem total_one : total (fun _ => 1) m = m.entries.length := by
  unfold total values
  rw [List.map_const', List.length_map, List.sum_replicate, smul_eq_mul, mul_one]

def count (p : ν → Bool) (m : Map κ ν) : ℕ := total (fun v => if p v then 1 else 0) m

theorem count_eq : count p m = (m.entries.filter fun e => p e.2).length := by
  rw [count, total, values, List.map_map, ← List.countP_eq_length_filter]
  induction m.entries with
  | nil => rfl
  | cons e l ih =>
    rw [List.map_cons, List.sum_cons, ih, List.countP_cons, add_comm]
    rfl

variable [DecidableEq κ]

theorem total_insert : total f (m.insert a v) = f v + total f (m.erase a) := List.sum_cons

theorem total_of_lookup (h : m.lookup a = some v) : total f m = f v + total f (m.erase a) := by
  have ha : a ∈ m.entries.keys := AList.mem_keys.mp (AList.lookup_isSome.mp (by rw [h]; rfl))
  obtain ⟨b, l, l', -, hm, he⟩ := List.exists_of_kerase ha
  have hb : b = v := by
    have hmem : Sigma.mk a b ∈ m.entries := by
      rw [hm]
      exact List.mem_append_right _ (List.mem_cons_self ..)
    have := AList.mem_lookup_iff.mpr hmem
    rw [Option.mem_def, h] at this
    exact (Option.some.inj this).symm
  have hv : values (m.erase a) = l.map Sigma.snd ++ l'.map Sigma.snd := by
    rw [← List.map_append, ← he]
    rfl
  rw [total, total, hv, values, hm, hb]
  simp only [List.map_append, List.map_cons, List.sum_append, List.sum_cons]
  exact add_left_comm ..

theorem erase_of_lookup (h : m.lookup a = none) : m.erase a = m := by
  have ha : a ∉ m.entries.keys := fun ha => by
    have := AList.lookup_isSome.mpr (AList.mem_keys.mpr ha)
    rw [h] at this
    cases this
  exact AList.ext (List.kerase_of_notMem_keys ha)

theorem total_replace {w : ν} (h : m.lookup a = some v) :
    f v + total f (m.insert a w) = f w + total f m := by
  rw [total_insert, total_of_lookup h]
  exact add_left_comm ..

theorem total_insert_new (h : m.lookup a = none) : total f (m.insert a v) = f v + total f m := by
  rw [total_insert, erase_of_lookup h]

theorem total_congr {g : ν → M} (h : ∀ a v, m.lookup a = some v → f v = g v) :
    total f m = total g m := by
  refine congrArg List.sum (List.map_congr_left fun v hv => ?_)
  obtain ⟨a, ha⟩ := mem_values.mp hv
  exact h a v ha

theorem sum_map_single {l : List κ} {a : κ} {x : M} (hn : l.Nodup) (ha : a ∈ l) :
    (l.map fun b => if a = b then x else 0).sum = x := by
  induction l with
  | nil => cases ha
  | cons b l ih =>
    rw [List.nodup_cons] at hn
    rw [List.map_cons, List.sum_cons]
    rcases List.mem_cons.mp ha with rfl | ha
    · have hz : ∀ y ∈ l.map (fun b => if a = b then x else 0), y = 0 := by
        intro y hy
        obtain ⟨b, hb, rfl⟩ := List.mem_map.mp hy
        exact if_neg fun (h : a = b) => hn.1 (h ▸ hb)
      rw [if_pos rfl, List.sum_eq_zero hz, add_zero]
    · have hne : a ≠ b := fun h => hn.1 (h ▸ ha)
      rw [if_neg hne, zero_add, ih hn.2 ha]

omit [DecidableEq κ] in
theorem sum_map_filter {α : Type*} (l : List α) (p : α → Prop) [DecidablePred p] (f : α → M) :
    ((l.filter fun x => decide (p x)).map f).sum = (l.map fun x => if p x then f x else 0).sum := by
  induction l with
  | nil => rfl
  | cons x l ih =>
    rw [List.map_cons, List.sum_cons, ← ih, List.filter_cons]
    by_cases h : p x <;> simp [h]

omit [DecidableEq κ] in
theorem sum_map_boole {α : Type*} (p : α → Bool) (l : List α) :
    (l.map fun x => if p x then 1 else 0).sum = l.countP p := by
  induction l with
  | nil => rfl
  | cons x l ih => rw [List.map_cons, List.sum_cons, ih, List.countP_cons, add_comm]

/-- When the values are the parts of a list with the same key, a quantity of their elements sums up
to that of the list. -/
theorem total_parts {α β : Type*} {m : Map κ (List β)} {key : α → κ} {t : α → β} {g : β → M}
    {l : List α} (h : ∀ a, (m.lookup a).getD [] = (l.filter fun x => decide (key x = a)).map t) :
    total (fun v => (v.map g).sum) m = (l.map fun x => g (t x)).sum := by
  have hcover : ∀ x ∈ l, key x ∈ m.keys := by
    intro x hx
    apply AList.mem_keys.mp
    apply AList.lookup_isSome.mp
    cases hm : m.lookup (key x) with
    | some v => rfl
    | none =>
      have hmem : t x ∈ ((l.filter fun y => decide (key y = key x)).map t) :=
        List.mem_map_of_mem (List.mem_filter.mpr ⟨hx, decide_eq_true rfl⟩)
      rw [← h, hm] at hmem
      cases hmem
  have hsum : total (fun v => (v.map g).sum) m =
      (m.keys.map fun a => (l.map fun x => if key x = a then g (t x) else 0).sum).sum := by
    unfold total values AList.keys List.keys
    rw [List.map_map, List.map_map]
    apply congrArg List.sum
    apply List.map_congr_left
    intro e he
    have hl := h e.1
    rw [AList.mem_lookup_iff.mpr he, Option.getD_some] at hl
    rw [Function.comp_apply, Function.comp_apply, hl, List.map_map]
    exact sum_map_filter _ _ _
  rw [hsum]
  clear hsum h
  induction l with
  | nil => simp
  | cons x l ih =>
    have hx : key x ∈ m.keys := hcover x (List.mem_cons_self ..)
    simp only [List.map_cons, List.sum_cons, List.sum_map_add]
    rw [ih fun y hy => hcover y (List.mem_cons_of_mem _ hy)]
    exact congrArg (· + _) (sum_map_single m.nodupKeys hx)

theorem total_length {α β : Type*} {m : Map κ (List β)} {key : α → κ} {t : α → β} {l : List α}
    (h : ∀ a, (m.lookup a).getD [] = (l.filter fun x => decide (key x = a)).map t) :
    total List.length m = l.length := by
  have hp := total_parts (g := fun _ : β => 1) h
  simpa using hp

theorem total_countP {α β : Type*} {m : Map κ (List β)} {key : α → κ} {t : α → β} {p : β → Bool}
    {l : List α} (h : ∀ a, (m.lookup a).getD [] = (l.filter fun x => decide (key x = a)).map t) :
    total (List.countP p) m = l.countP fun x => p (t x) := by
  have hp := total_parts (g := fun b => if p b then 1 else 0) h
  simpa only [sum_map_boole] using hp

theorem length_le_total {α : Type*} {m : Map κ (List α)} (h : ∀ a, m.lookup a ≠ some []) :
    m.entries.length ≤ total List.length m := by
  rw [← total_one, total, total]
  apply List.sum_le_sum
  intro v hv
  obtain ⟨a, ha⟩ := mem_values.mp hv
  apply List.length_pos_iff.mpr
  rintro rfl
  exact h a ha

section Counting

theorem count_erase_le : count p (m.erase a) ≤ count p m := by
  cases h : m.lookup a with
  | none => rw [erase_of_lookup h]
  | some v =>
    unfold count
    rw [total_of_lookup h]
    exact Nat.le_add_left ..

theorem count_le {l : List κ} (h : ∀ a v, m.lookup a = some v → p v = true → a ∈ l) :
    count p m ≤ l.length := by
  rw [count_eq, ← List.length_map (f := Sigma.fst)]
  have hn : ((m.entries.filter fun e => p e.2).map Sigma.fst).Nodup :=
    (List.filter_sublist.map Sigma.fst).nodup m.nodupKeys
  refine (List.subperm_of_subset hn fun a ha => ?_).length_le
  obtain ⟨e, he, rfl⟩ := List.mem_map.mp ha
  obtain ⟨hmem, hp⟩ := List.mem_filter.mp he
  exact h e.1 e.2 (AList.mem_lookup_iff.mpr hmem) hp

theorem exists_other (h : 1 < count p m) (keep : Option κ) :
    ∃ a v, m.lookup a = some v ∧ p v = true ∧ some a ≠ keep := by
  by_contra hno
  push Not at hno
  have hle := count_le (p := p) (m := m) (l := keep.toList) fun a v hv hp =>
    Option.mem_toList.mpr (hno a v hv hp).symm
  have : keep.toList.length ≤ 1 := by
    cases keep <;> simp
  omega

end Counting

end Map
