import CayenChat.Logs.LogList

/-! # Synchronized rows

Synchronizing a log replaces the rows that came, went or changed their shape, and no others, and
leaves the row at the top where it is.
-/

namespace CayenChat.Logs
open LogList

variable {Px : Type*} [Zero Px]

/-! ## Splices -/

def Splice.Within (s : Splice) : Prop := s.start ≤ s.stop ∧ s.stop ≤ s.rows

def Extends (state state' : ListState Px) : Prop :=
  ∃ made, state'.splices = state.splices ++ made ∧ ∀ s ∈ made, s.Within

omit [Zero Px] in
theorem Extends.refl (state : ListState Px) : Extends state state :=
  ⟨[], (List.append_nil _).symm, by simp⟩

omit [Zero Px] in
theorem Extends.trans {a b c : ListState Px} (h : Extends a b) (h' : Extends b c) :
    Extends a c := by
  obtain ⟨made, hb, hmade⟩ := h
  obtain ⟨made', hc, hmade'⟩ := h'
  refine ⟨made ++ made', by rw [hc, hb, List.append_assoc], ?_⟩
  intro s hs
  obtain hs | hs := List.mem_append.mp hs
  · exact hmade s hs
  · exact hmade' s hs

theorem extends_splice {state : ListState Px} {start stop : ℕ} (count : ℕ) (hle : start ≤ stop)
    (hstop : stop ≤ state.items.length) : Extends state (state.splice start stop count) := by
  refine ⟨_, rfl, ?_⟩
  intro s hs
  rw [List.mem_singleton.mp hs]
  exact ⟨hle, hstop⟩

theorem items_splice {state : ListState Px} {a m b : List (Option Px)} {start stop : ℕ}
    (h : state.items = a ++ m ++ b) (hstart : start = a.length)
    (hstop : stop = a.length + m.length) (count : ℕ) :
    (state.splice start stop count).items = a ++ List.replicate count none ++ b := by
  have htake : (a ++ m ++ b).take start = a := by simp [hstart]
  have hdrop : (a ++ m ++ b).drop stop = b := by
    rw [hstop, ← List.length_append, List.drop_left]
  rw [ListState.splice, h, htake, hdrop]

/-! ## Ascending lists -/

variable {old new xs : List ℕ} {i j i' j' n x y fuel : ℕ}

theorem ascending_le (h : xs.Pairwise (· < ·)) (hi : xs[i]? = some x) (hj : xs[j]? = some y)
    (hle : i ≤ j) : x ≤ y := by
  rcases hle.eq_or_lt with rfl | hlt
  · rw [hi, Option.some.injEq] at hj
    exact hj.le
  · obtain ⟨hil, rfl⟩ := List.getElem?_eq_some_iff.mp hi
    obtain ⟨hjl, rfl⟩ := List.getElem?_eq_some_iff.mp hj
    exact (List.pairwise_iff_getElem.mp h i j hil hjl hlt).le

theorem ascending_lt (h : xs.Pairwise (· < ·)) (hi : xs[i]? = some x) (hj : xs[j]? = some y)
    (hlt : i < j) : x < y := by
  obtain ⟨hil, rfl⟩ := List.getElem?_eq_some_iff.mp hi
  obtain ⟨hjl, rfl⟩ := List.getElem?_eq_some_iff.mp hj
  exact List.pairwise_iff_getElem.mp h i j hil hjl hlt

theorem ascending_index (h : xs.Pairwise (· < ·)) (hi : xs[i]? = some x) (hj : xs[j]? = some x) :
    i = j := by
  rcases Nat.lt_trichotomy i j with hlt | heq | hlt
  · exact absurd (ascending_lt h hi hj hlt) (Nat.lt_irrefl x)
  · exact heq
  · exact absurd (ascending_lt h hj hi hlt) (Nat.lt_irrefl x)

theorem binarySearch_eq_some (h : xs.Pairwise (· < ·)) :
    binarySearch xs x = some i ↔ xs[i]? = some x := by
  unfold binarySearch
  constructor
  · intro hfound
    obtain ⟨hlt, heq, -⟩ := List.findIdx?_eq_some_iff_getElem.mp hfound
    rw [List.getElem?_eq_getElem hlt, eq_of_beq heq]
  · intro hi
    obtain ⟨hlt, heq⟩ := List.getElem?_eq_some_iff.mp hi
    refine List.findIdx?_eq_some_iff_getElem.mpr ⟨hlt, by simp [heq], ?_⟩
    intro j hj
    have := List.pairwise_iff_getElem.mp h j i (hj.trans hlt) hlt hj
    simp only [beq_iff_eq]
    omega

theorem exists_last (hpos : 0 < i) (hle : i ≤ xs.length) :
    ∃ x, xs[i - 1]? = some x ∧ xs.getD (i - 1) 0 = x ∧ xs.take i = xs.take (i - 1) ++ [x] ∧
      xs.drop (i - 1) = x :: xs.drop i := by
  obtain ⟨k, rfl⟩ : ∃ k, i = k + 1 := ⟨i - 1, by omega⟩
  have hlt : k < xs.length := by omega
  rw [Nat.add_sub_cancel]
  exact ⟨xs[k], List.getElem?_eq_getElem hlt, by simp [hlt], (List.take_append_getElem hlt).symm,
    List.drop_eq_getElem_cons hlt⟩

/-! ## The walk -/

/-- Everything left of the new list stands before what is done of the old one. -/
def Ahead (old new : List ℕ) (i j : ℕ) : Prop := ∀ x ∈ new.take j, ∀ y ∈ old.drop i, x < y

theorem ahead_length (old new : List ℕ) : Ahead old new old.length new.length := by
  intro a ha b hb
  rw [List.drop_length] at hb
  cases hb

theorem mem_take_lt (h : xs.Pairwise (· < ·)) (hpos : 0 < i) (hlast : xs[i - 1]? = some x)
    (hy : y ∈ xs.take i) : y ≤ x := by
  obtain ⟨k, hk⟩ := List.mem_iff_getElem?.mp hy
  have hlt : k < i := by
    obtain ⟨hkl, -⟩ := List.getElem?_eq_some_iff.mp hk
    rw [List.length_take] at hkl
    omega
  rw [List.getElem?_take_of_lt hlt] at hk
  exact ascending_le h hk hlast (by omega)

theorem gap_le (old new : List ℕ) (fuel i j : ℕ) :
    (gap old new fuel i j).1 ≤ i ∧ (gap old new fuel i j).2 ≤ j := by
  induction fuel generalizing i j with
  | zero => exact ⟨le_rfl, le_rfl⟩
  | succ fuel ih =>
    unfold gap
    split_ifs with hgo hdrop
    · exact ⟨(ih (i - 1) j).1.trans (Nat.sub_le ..), (ih (i - 1) j).2⟩
    · exact ⟨(ih i (j - 1)).1, (ih i (j - 1)).2.trans (Nat.sub_le ..)⟩
    · exact ⟨le_rfl, le_rfl⟩

theorem gap_lt (hpos : 0 < i ∨ 0 < j) (hmeets : ¬Meets old new i j) :
    (gap old new (i + j) i j).1 + (gap old new (i + j) i j).2 < i + j := by
  obtain ⟨fuel, hfuel⟩ : ∃ fuel, i + j = fuel + 1 := ⟨i + j - 1, by omega⟩
  have hleft := gap_le old new fuel (i - 1) j
  have hright := gap_le old new fuel i (j - 1)
  conv_lhs => rw [hfuel, gap]
  rw [if_pos ⟨hpos, hmeets⟩]
  split_ifs <;> omega

theorem gap_spec (fuel : ℕ) (hold : old.Pairwise (· < ·)) (hnew : new.Pairwise (· < ·))
    (hi : i ≤ old.length) (hj : j ≤ new.length) (hahead : Ahead old new i j) :
    Ahead old new (gap old new fuel i j).1 (gap old new fuel i j).2 ∧
      ∀ s ∈ (new.drop (gap old new fuel i j).2).take (j - (gap old new fuel i j).2), s ∉ old := by
  induction fuel generalizing i j with
  | zero => exact ⟨hahead, by simp [gap]⟩
  | succ fuel ih =>
    unfold gap
    split_ifs with hgo hdrop
    · have hpos : 0 < i := by omega
      obtain ⟨x, hx, hxd, -, hrest⟩ := exists_last hpos hi
      refine ih (by omega) hj ?_
      intro a ha b hb
      rw [hrest] at hb
      obtain rfl | hb := List.mem_cons.mp hb
      · have hj0 : 0 < j := by
          by_contra hj0
          simp [show j = 0 by omega] at ha
        obtain ⟨y, hy, hyd, -, -⟩ := exists_last hj0 hj
        have hle := mem_take_lt hnew hj0 hy ha
        have habove : y < b := by
          rw [← hyd, ← hxd]
          exact (hdrop.resolve_left hj0.ne').2
        omega
      · exact hahead a ha b hb
    · have hpos : 0 < j := by omega
      obtain ⟨y, hy, hyd, htake, hrest⟩ := exists_last hpos hj
      obtain ⟨hahead', hnot⟩ := ih hi (show j - 1 ≤ new.length by omega) fun a ha b hb =>
        hahead a (by rw [htake]; exact List.mem_append_left _ ha) b hb
      have hle := (gap_le old new fuel i (j - 1)).2
      refine ⟨hahead', ?_⟩
      generalize (gap old new fuel i (j - 1)).2 = j' at hnot hle ⊢
      have hsplit : (new.drop j').take (j - j') = (new.drop j').take (j - 1 - j') ++ [y] := by
        have hlast : (new.drop j')[j - 1 - j']? = some y := by
          rw [List.getElem?_drop, Nat.add_sub_cancel' hle, hy]
        obtain ⟨hlt, heq⟩ := List.getElem?_eq_some_iff.mp hlast
        rw [show j - j' = j - 1 - j' + 1 by omega, ← heq]
        exact (List.take_append_getElem hlt).symm
      intro s hs
      rw [hsplit] at hs
      obtain hs | hs := List.mem_append.mp hs
      · exact hnot s hs
      · obtain rfl := List.mem_singleton.mp hs
        intro hmem
        rw [← List.take_append_drop i old] at hmem
        obtain hmem | hmem := List.mem_append.mp hmem
        · have hi0 : 0 < i := by
            by_contra hi0
            simp [show i = 0 by omega] at hmem
          obtain ⟨x, hx, hxd, -, -⟩ := exists_last hi0 hi
          have hle := mem_take_lt hold hi0 hx hmem
          have hne : x ≠ s := by
            intro heq
            exact hgo.2 ⟨hi0, hpos, by rw [hxd, hyd, heq]⟩
          have hnotabove : ¬s < x := by
            intro habove
            exact hdrop (.inr ⟨hi0, by rw [hxd, hyd]; exact habove⟩)
          omega
        · exact absurd (hahead s (by rw [htake]; simp) s hmem) (Nat.lt_irrefl s)
    · exact ⟨hahead, by simp⟩

/-- Every splice of a walk is within the rows, whatever the lists, and there are as many rows as
new keys in the end. -/
theorem walk_counted (old new : List ℕ) (rows : ℕ) {state : ListState Px} (hj : j ≤ new.length)
    (hfuel : i + j ≤ fuel) (hitems : state.items.length = rows + i + (new.length - j)) :
    ((walk old new fuel i j).foldl (ListState.spliceBehind rows) state).items.length =
      rows + new.length ∧
    Extends state ((walk old new fuel i j).foldl (ListState.spliceBehind rows) state) := by
  induction fuel generalizing i j state with
  | zero => exact ⟨by simp only [walk, List.foldl_nil]; omega, Extends.refl state⟩
  | succ fuel ih =>
    unfold walk
    split_ifs with hpos hmeets
    · obtain ⟨hi0, hj0, -⟩ := hmeets
      exact ih (by omega) (by omega) (by omega)
    · have hlt := gap_lt hpos hmeets
      obtain ⟨hi', hj'⟩ := gap_le old new (i + j) i j
      generalize gap old new (i + j) i j = met at hlt hi' hj' ⊢
      obtain ⟨i', j'⟩ := met
      dsimp only at hlt hi' hj' ⊢
      rw [List.foldl_cons, ListState.spliceBehind]
      have hlength : (state.splice (rows + i') (rows + i) (j - j')).items.length =
          rows + i' + (new.length - j') := by
        simp only [ListState.splice, List.length_append, List.length_take, List.length_replicate,
          List.length_drop]
        omega
      obtain ⟨hfinal, hmade⟩ := ih (by omega) (by omega) hlength
      exact ⟨hfinal, (extends_splice (j - j') (by omega) (by omega)).trans hmade⟩
    · exact ⟨by simp only [List.foldl_nil]; omega, Extends.refl state⟩

def kept (old : List ℕ) (rows : List (Option Px)) (s : ℕ) : Option Px :=
  ((old.zip rows).lookup s).getD none

variable {rows before : List (Option Px)} {row : Option Px} {s : ℕ}

omit [Zero Px] in
theorem lookup_zip (h : old.Pairwise (· < ·)) (hs : old[i]? = some s) (hrow : rows[i]? = some row) :
    (old.zip rows).lookup s = some row := by
  induction old generalizing rows i with
  | nil => cases hs
  | cons x old ih =>
    obtain ⟨hx, hold⟩ := List.pairwise_cons.mp h
    cases rows with
    | nil => cases hrow
    | cons r rows =>
      cases i with
      | zero =>
        simp only [List.getElem?_cons_zero, Option.some.injEq] at hs hrow
        simp [hs, hrow]
      | succ i =>
        rw [List.getElem?_cons_succ] at hs hrow
        have hlt := hx s (List.mem_of_getElem? hs)
        have hne : (s == x) = false := by
          rw [beq_eq_false_iff_ne]
          omega
        rw [List.zip_cons_cons, List.lookup_cons, hne]
        exact ih hold hs hrow

omit [Zero Px] in
theorem kept_eq (h : old.Pairwise (· < ·)) (hs : old[i]? = some s) (hrow : rows[i]? = some row) :
    kept old rows s = row := by
  rw [kept, lookup_zip h hs hrow, Option.getD_some]

omit [Zero Px] in
theorem kept_of_not_mem (h : s ∉ old) : kept old rows s = none := by
  have hnone : (old.zip rows).lookup s = none := by
    rw [List.lookup_eq_none_iff]
    rintro ⟨x, row⟩ hp
    have hx := (List.of_mem_zip hp).1
    rw [bne_iff_ne]
    rintro rfl
    exact h hx
  rw [kept, hnone, Option.getD_none]

theorem walk_items (hold : old.Pairwise (· < ·)) (hnew : new.Pairwise (· < ·))
    (hrows : rows.length = old.length) {state : ListState Px} (hi : i ≤ old.length)
    (hj : j ≤ new.length) (hfuel : i + j ≤ fuel) (hahead : Ahead old new i j)
    (hitems : state.items = before ++ rows.take i ++ (new.drop j).map (kept old rows)) :
    ((walk old new fuel i j).foldl (ListState.spliceBehind before.length) state).items =
      before ++ new.map (kept old rows) := by
  induction fuel generalizing i j state with
  | zero =>
    obtain rfl : i = 0 := by omega
    obtain rfl : j = 0 := by omega
    simpa [walk] using hitems
  | succ fuel ih =>
    unfold walk
    split_ifs with hpos hmeets
    · obtain ⟨hi0, hj0, heq⟩ := hmeets
      obtain ⟨x, hx, hxd, htake, hdrop⟩ := exists_last hi0 hi
      obtain ⟨y, hy, hyd, htake', hdrop'⟩ := exists_last hj0 hj
      have hxy : x = y := by rw [← hxd, heq, hyd]
      subst hxy
      have hahead' : Ahead old new (i - 1) (j - 1) := by
        intro a ha b hb
        rw [hdrop] at hb
        obtain rfl | hb := List.mem_cons.mp hb
        · obtain ⟨k, hk⟩ := List.mem_iff_getElem?.mp ha
          obtain ⟨hkl, -⟩ := List.getElem?_eq_some_iff.mp hk
          rw [List.length_take] at hkl
          rw [List.getElem?_take_of_lt (by omega)] at hk
          exact ascending_lt hnew hk hy (by omega)
        · exact hahead a (by rw [htake']; exact List.mem_append_left _ ha) b hb
      have hlt : i - 1 < rows.length := by omega
      have hrow : rows.take i = rows.take (i - 1) ++ [kept old rows x] := by
        rw [kept_eq hold hx (List.getElem?_eq_getElem hlt)]
        conv_lhs => rw [show i = i - 1 + 1 by omega]
        exact (List.take_append_getElem hlt).symm
      refine ih (by omega) (by omega) (by omega) hahead' ?_
      rw [hitems, hrow, hdrop', List.map_cons]
      simp
    · obtain ⟨hi', hj'⟩ := gap_le old new (i + j) i j
      obtain ⟨hahead', hnot⟩ := gap_spec (i + j) hold hnew hi hj hahead
      have hless := gap_lt hpos hmeets
      generalize gap old new (i + j) i j = met at hless hi' hj' hahead' hnot ⊢
      obtain ⟨i', j'⟩ := met
      dsimp only at hless hi' hj' hahead' hnot ⊢
      have hparts : before ++ rows.take i ++ (new.drop j).map (kept old rows) =
          before ++ rows.take i' ++ (rows.drop i').take (i - i') ++
            (new.drop j).map (kept old rows) := by
        have htake : rows.take i = rows.take i' ++ (rows.drop i').take (i - i') := by
          rw [← List.take_add, Nat.add_sub_cancel' hi']
        simp only [htake, List.append_assoc]
      have hbefore : (before ++ rows.take i').length = before.length + i' := by
        rw [List.length_append, List.length_take]
        omega
      have hmiddle : ((rows.drop i').take (i - i')).length = i - i' := by
        rw [List.length_take, List.length_drop]
        omega
      have hsplice := items_splice (hitems.trans hparts) hbefore.symm
        (show before.length + i = (before ++ rows.take i').length +
          ((rows.drop i').take (i - i')).length by omega) (j - j')
      have hfresh : (new.drop j').map (kept old rows) =
          List.replicate (j - j') none ++ (new.drop j).map (kept old rows) := by
        have hcut : new.drop j' = (new.drop j').take (j - j') ++ new.drop j := by
          conv_lhs => rw [← List.take_append_drop (j - j') (new.drop j')]
          rw [List.drop_drop, Nat.add_sub_cancel' hj']
        have hnone : ((new.drop j').take (j - j')).map (kept old rows) =
            List.replicate (j - j') none := by
          rw [List.eq_replicate_iff]
          constructor
          · rw [List.length_map, List.length_take, List.length_drop]
            omega
          · intro row hrow
            obtain ⟨s, hs, rfl⟩ := List.mem_map.mp hrow
            exact kept_of_not_mem (hnot s hs)
        conv_lhs => rw [hcut]
        rw [List.map_append, hnone]
      rw [List.foldl_cons, ListState.spliceBehind]
      refine ih (by omega) (by omega) (by omega) hahead' (hsplice.trans ?_)
      rw [hfresh, List.append_assoc (before ++ rows.take i')]
    · obtain rfl : i = 0 := by omega
      obtain rfl : j = 0 := by omega
      simpa using hitems

/-! ## Shapes -/

variable {oldShapes shapes : List ℕ}

theorem mem_reshapedFrom (hold : old.Pairwise (· < ·)) (hnew : new.Pairwise (· < ·))
    (hfuel : (old.length - i) + (new.length - j) ≤ fuel) :
    s ∈ reshapedFrom old oldShapes new shapes fuel i j ↔
      ∃ i' j', i ≤ i' ∧ j ≤ j' ∧ old[i']? = some s ∧ new[j']? = some s ∧
        shape oldShapes i' ≠ shape shapes j' := by
  induction fuel generalizing i j with
  | zero =>
    simp only [reshapedFrom, List.not_mem_nil, false_iff]
    rintro ⟨i', j', hi, hj, hs, -⟩
    obtain ⟨hlt, -⟩ := List.getElem?_eq_some_iff.mp hs
    omega
  | succ fuel ih =>
    unfold reshapedFrom
    cases hx : old[i]? with
    | none =>
      simp only [List.not_mem_nil, false_iff]
      rintro ⟨i', j', hi, hj, hs, -⟩
      obtain ⟨hlt, -⟩ := List.getElem?_eq_some_iff.mp hs
      rw [List.getElem?_eq_none_iff] at hx
      omega
    | some x =>
      cases hy : new[j]? with
      | none =>
        simp only [List.not_mem_nil, false_iff]
        rintro ⟨i', j', hi, hj, -, hs, -⟩
        obtain ⟨hlt, -⟩ := List.getElem?_eq_some_iff.mp hs
        rw [List.getElem?_eq_none_iff] at hy
        omega
      | some y =>
        obtain ⟨hil, -⟩ := List.getElem?_eq_some_iff.mp hx
        obtain ⟨hjl, -⟩ := List.getElem?_eq_some_iff.mp hy
        dsimp only
        split_ifs with hlt hgt hshape
        · rw [ih (by omega)]
          constructor
          · rintro ⟨i', j', hi, hj, h⟩
            exact ⟨i', j', by omega, hj, h⟩
          · rintro ⟨i', j', hi, hj, hs, hs', h⟩
            have hle := ascending_le hnew hy hs' hj
            refine ⟨i', j', ?_, hj, hs, hs', h⟩
            by_contra hnot
            obtain rfl : i = i' := by omega
            rw [hx, Option.some.injEq] at hs
            omega
        · rw [ih (by omega)]
          constructor
          · rintro ⟨i', j', hi, hj, h⟩
            exact ⟨i', j', hi, by omega, h⟩
          · rintro ⟨i', j', hi, hj, hs, hs', h⟩
            have hle := ascending_le hold hx hs hi
            refine ⟨i', j', hi, ?_, hs, hs', h⟩
            by_contra hnot
            obtain rfl : j = j' := by omega
            rw [hy, Option.some.injEq] at hs'
            omega
        all_goals
          obtain rfl : x = y := by omega
          have hboth : ∀ i' j', i ≤ i' → j ≤ j' → old[i']? = some s → new[j']? = some s →
              i' = i ∧ j' = j ∨ i + 1 ≤ i' ∧ j + 1 ≤ j' := by
            intro i' j' hi hj hs hs'
            rcases hi.eq_or_lt with rfl | hi
            · rw [hx, Option.some.injEq] at hs
              subst hs
              exact .inl ⟨rfl, (ascending_index hnew hy hs').symm⟩
            · rcases hj.eq_or_lt with rfl | hj
              · rw [hy, Option.some.injEq] at hs'
                subst hs'
                exact absurd (ascending_index hold hx hs) hi.ne
              · exact .inr ⟨hi, hj⟩
        · rw [List.mem_append, List.mem_singleton, ih (by omega)]
          constructor
          · rintro (rfl | ⟨i', j', hi, hj, h⟩)
            · exact ⟨i, j, le_rfl, le_rfl, hx, hy, hshape⟩
            · exact ⟨i', j', by omega, by omega, h⟩
          · rintro ⟨i', j', hi, hj, hs, hs', h⟩
            obtain ⟨rfl, rfl⟩ | ⟨hi, hj⟩ := hboth i' j' hi hj hs hs'
            · rw [hx, Option.some.injEq] at hs
              exact .inl hs.symm
            · exact .inr ⟨i', j', hi, hj, hs, hs', h⟩
        · rw [List.nil_append, ih (by omega)]
          constructor
          · rintro ⟨i', j', hi, hj, h⟩
            exact ⟨i', j', by omega, by omega, h⟩
          · rintro ⟨i', j', hi, hj, hs, hs', h⟩
            obtain ⟨rfl, rfl⟩ | ⟨hi, hj⟩ := hboth i' j' hi hj hs hs'
            · exact absurd h hshape
            · exact ⟨i', j', hi, hj, hs, hs', h⟩

/-! ## Forgotten heights -/

section Sync

variable {l l' : LogList Px}

abbrev Counted (l : LogList Px) : Prop :=
  l.state.items.length = l.prefixRows + l.sequences.length

/-- A list whose keys ascend. -/
structure Sound (l : LogList Px) : Prop where
  rows : l.state.items.length = l.prefixRows + l.sequences.length
  ascending : l.sequences.Pairwise (· < ·)

def RowsOf (l : LogList Px) (forget : List ℕ) (k : ℕ) : Prop :=
  ∃ s ∈ forget, ∃ index, l.sequences[index]? = some s ∧ k = l.prefixRows + index ∧
    l.state.logicalScrollTop.1 ≠ k

/-- What forgetting the heights of some keys leaves. -/
structure Forgotten (l l' : LogList Px) (forget : List ℕ) : Prop where
  made : Extends l.state l'.state
  fields : l'.prefixRows = l.prefixRows ∧ l'.sequences = l.sequences ∧ l'.shapes = l.shapes
  length : l'.state.items.length = l.state.items.length
  top : l'.state.scrollTop = l.state.scrollTop ∧
    l'.state.logicalScrollTop = l.state.logicalScrollTop
  forgotten : ∀ k, RowsOf l forget k → l'.state.items[k]? = some none
  others : ∀ k, ¬RowsOf l forget k → l'.state.items[k]? = l.state.items[k]?

theorem items_splice_one {state : ListState Px} (h : n < state.items.length) :
    (state.splice n (n + 1) 1).items = state.items.set n none := by
  rw [List.set_eq_take_append_cons_drop, if_pos h]
  simp [ListState.splice]

theorem scrollTop_splice_one {state : ListState Px} (h : n < state.items.length)
    (htop : state.logicalScrollTop.1 ≠ n) :
    (state.splice n (n + 1) 1).scrollTop = state.scrollTop ∧
      (state.splice n (n + 1) 1).logicalScrollTop = state.logicalScrollTop := by
  have hscroll : (state.splice n (n + 1) 1).scrollTop = state.scrollTop := by
    unfold ListState.splice
    cases hs : state.scrollTop with
    | none => rfl
    | some top =>
      obtain ⟨ix, offset⟩ := top
      have hne : ix ≠ n := by simpa [ListState.logicalScrollTop, hs] using htop
      simp only [Option.map_some, Option.some.injEq]
      split_ifs
      · omega
      · rw [Prod.mk.injEq]
        exact ⟨by omega, rfl⟩
      · rfl
  have hlength : (state.splice n (n + 1) 1).items.length = state.items.length := by
    rw [items_splice_one h, List.length_set]
  refine ⟨hscroll, ?_⟩
  unfold ListState.logicalScrollTop
  rw [hscroll, hlength]
  rfl

theorem invalidate_forgotten (h : Sound l) (s : ℕ) : Forgotten l (l.invalidate s) [s] := by
  have hsame : (∀ k, ¬RowsOf l [s] k) → Forgotten l l [s] := fun hnone =>
    ⟨Extends.refl _, ⟨rfl, rfl, rfl⟩, rfl, ⟨rfl, rfl⟩, fun k hk => absurd hk (hnone k),
      fun k _ => rfl⟩
  unfold LogList.invalidate
  cases hindex : binarySearch l.sequences s with
  | none =>
    refine hsame ?_
    rintro k ⟨s', hs', index, hs, -⟩
    obtain rfl := List.mem_singleton.mp hs'
    rw [← binarySearch_eq_some h.ascending, hindex] at hs
    cases hs
  | some index =>
    rw [binarySearch_eq_some h.ascending] at hindex
    obtain ⟨hlt, -⟩ := List.getElem?_eq_some_iff.mp hindex
    have hrow : l.prefixRows + index < l.state.items.length := by
      rw [h.rows]
      omega
    have hiff : ∀ k, RowsOf l [s] k ↔ k = l.prefixRows + index ∧
        l.state.logicalScrollTop.1 ≠ k := by
      intro k
      constructor
      · rintro ⟨s', hs', index', hs, rfl, htop⟩
        obtain rfl := List.mem_singleton.mp hs'
        exact ⟨by rw [ascending_index h.ascending hindex hs], htop⟩
      · rintro ⟨rfl, htop⟩
        exact ⟨s, List.mem_singleton.mpr rfl, index, hindex, rfl, htop⟩
    dsimp only
    split_ifs with htop
    · obtain ⟨hscroll, hlogical⟩ := scrollTop_splice_one hrow htop
      refine ⟨extends_splice 1 (Nat.le_succ _) hrow, ⟨rfl, rfl, rfl⟩, ?_, ⟨hscroll, hlogical⟩,
        ?_, ?_⟩
      · dsimp only
        rw [items_splice_one hrow, List.length_set]
      · intro k hk
        obtain ⟨rfl, -⟩ := (hiff k).mp hk
        dsimp only
        rw [items_splice_one hrow, List.getElem?_set_self hrow]
      · intro k hk
        have hne : l.prefixRows + index ≠ k := by
          rintro rfl
          exact hk ((hiff _).mpr ⟨rfl, htop⟩)
        dsimp only
        rw [items_splice_one hrow, List.getElem?_set_ne hne]
    · refine hsame ?_
      intro k hk
      obtain ⟨rfl, hne⟩ := (hiff k).mp hk
      exact htop hne

theorem forgotten_foldl (h : Sound l) (forget : List ℕ) :
    Forgotten l (forget.foldl LogList.invalidate l) forget := by
  induction forget generalizing l with
  | nil =>
    have hnone : ∀ k, ¬RowsOf l [] k := by
      rintro k ⟨s, hs, -⟩
      cases hs
    exact ⟨Extends.refl _, ⟨rfl, rfl, rfl⟩, rfl, ⟨rfl, rfl⟩, fun k hk => absurd hk (hnone k),
      fun k _ => rfl⟩
  | cons s forget ih =>
    have hone := invalidate_forgotten h s
    obtain ⟨hrows, hsequences, hshapes⟩ := hone.fields
    have hsound : Sound (l.invalidate s) :=
      ⟨by rw [hone.length, hrows, hsequences, h.rows], by rw [hsequences]; exact h.ascending⟩
    have hrest := ih hsound
    have hof : ∀ k, RowsOf (l.invalidate s) forget k ↔ RowsOf l forget k := by
      intro k
      simp only [RowsOf, hrows, hsequences, hone.top.2]
    have hcons : ∀ k, RowsOf l (s :: forget) k ↔ RowsOf l [s] k ∨ RowsOf l forget k := by
      intro k
      simp only [RowsOf, List.mem_cons, List.not_mem_nil, or_false, or_and_right, exists_or]
    refine ⟨hone.made.trans hrest.made, ?_, hrest.length.trans hone.length, ?_, ?_, ?_⟩
    · obtain ⟨hrows', hsequences', hshapes'⟩ := hrest.fields
      exact ⟨hrows'.trans hrows, hsequences'.trans hsequences, hshapes'.trans hshapes⟩
    · exact ⟨hrest.top.1.trans hone.top.1, hrest.top.2.trans hone.top.2⟩
    · intro k hk
      by_cases hlater : RowsOf l forget k
      · exact hrest.forgotten k ((hof k).mpr hlater)
      · rw [List.foldl_cons, hrest.others k fun hk' => hlater ((hof k).mp hk')]
        exact hone.forgotten k (((hcons k).mp hk).resolve_right hlater)
    · intro k hk
      rw [hcons] at hk
      push Not at hk
      rw [List.foldl_cons, hrest.others k fun hk' => hk.2 ((hof k).mp hk'), hone.others k hk.1]

/-! ## Synchronizing -/

def LogList.keyRows (l : LogList Px) : List (Option Px) := l.state.items.drop l.prefixRows

def fixedRows (l : LogList Px) (n : ℕ) : List (Option Px) :=
  if n = l.prefixRows then l.state.items.take n else List.replicate n none

/-- The list as it is before heights are forgotten. -/
structure Moved (l l' : LogList Px) (n : ℕ) (sequences shapes : List ℕ) : Prop where
  made : Extends l.state l'.state
  fields : l'.prefixRows = n ∧ l'.sequences = sequences ∧ l'.shapes = shapes
  length : l'.state.items.length = n + sequences.length
  items : l.sequences.Pairwise (· < ·) →
    l'.state.items = fixedRows l n ++ sequences.map (kept l.sequences l.keyRows)
  top : ∀ i j s offset, l.state.scrollTop = some (l.prefixRows + i, offset) →
    l.sequences[i]? = some s → sequences[j]? = some s →
    l'.state.logicalScrollTop = (n + j, offset)

omit [Zero Px] in
theorem length_fixedRows (h : Counted l) (n : ℕ) : (fixedRows l n).length = n := by
  unfold fixedRows
  split_ifs with heq
  · rw [List.length_take, h]
    omega
  · exact List.length_replicate

omit [Zero Px] in
theorem length_keyRows (h : Counted l) : l.keyRows.length = l.sequences.length := by
  rw [LogList.keyRows, List.length_drop, h]
  omega

theorem setPrefixRows_spec (h : Counted l) (n : ℕ) :
    Extends l.state (l.setPrefixRows n).state ∧ (l.setPrefixRows n).prefixRows = n ∧
      (l.setPrefixRows n).sequences = l.sequences ∧ (l.setPrefixRows n).shapes = l.shapes ∧
      (l.setPrefixRows n).state.items = fixedRows l n ++ l.keyRows ∧
      ∀ i offset, l.state.scrollTop = some (l.prefixRows + i, offset) →
        (l.setPrefixRows n).state.scrollTop = some (n + i, offset) := by
  unfold LogList.setPrefixRows fixedRows
  by_cases heq : n = l.prefixRows
  · rw [if_neg (not_not.mpr heq), if_pos heq]
    refine ⟨Extends.refl _, heq.symm, rfl, rfl, ?_, ?_⟩
    · rw [heq, LogList.keyRows, List.take_append_drop]
    · intro i offset htop
      rw [htop, heq]
  · have hle : l.prefixRows ≤ l.state.items.length := by
      rw [h]
      omega
    rw [if_pos heq, if_neg heq]
    refine ⟨extends_splice n (Nat.zero_le _) hle, rfl, rfl, rfl, ?_, ?_⟩
    · simp [ListState.splice, LogList.keyRows]
    · intro i offset htop
      simp only [ListState.splice, htop, Option.map_some, Option.some.injEq]
      rw [if_neg (by omega), if_pos (by omega), Prod.mk.injEq]
      exact ⟨by omega, rfl⟩

omit [Zero Px] in
theorem map_kept_self (h : Sound l) : l.sequences.map (kept l.sequences l.keyRows) = l.keyRows := by
  have hlength := length_keyRows h.rows
  refine List.ext_getElem (by rw [List.length_map, hlength]) ?_
  intro k hk hk'
  rw [List.length_map] at hk
  rw [List.getElem_map, kept_eq h.ascending (List.getElem?_eq_getElem hk)
    (List.getElem?_eq_getElem hk')]

omit [Zero Px] in
theorem mem_reshaped (h : Sound l) (hnew : new.Pairwise (· < ·)) :
    s ∈ l.reshaped new shapes ↔ ∃ i j, l.sequences[i]? = some s ∧ new[j]? = some s ∧
      shape l.shapes i ≠ shape shapes j := by
  unfold LogList.reshaped
  split_ifs with hsame
  · obtain ⟨rfl, rfl⟩ := hsame
    simp only [List.not_mem_nil, false_iff]
    rintro ⟨i, j, hi, hj, hne⟩
    exact hne (by rw [ascending_index hnew hi hj])
  · rw [mem_reshapedFrom h.ascending hnew (by omega)]
    simp only [Nat.zero_le, true_and]

theorem anchor_eq {i : ℕ} {offset : Px}
    (htop : l.state.scrollTop = some (l.prefixRows + i, offset)) (hs : l.sequences[i]? = some s) :
    l.anchor = some (s, offset) := by
  simp [LogList.anchor, ListState.logicalScrollTop, htop, hs]

theorem scrollToRow_spec [DecidableEq Px] {ix : ℕ} {offset : Px} (h : ix < l.state.items.length) :
    Extends l.state (l.scrollToRow ix offset).state ∧
      (l.scrollToRow ix offset).state.items = l.state.items ∧
      (l.scrollToRow ix offset).prefixRows = l.prefixRows ∧
      (l.scrollToRow ix offset).sequences = l.sequences ∧
      (l.scrollToRow ix offset).shapes = l.shapes ∧
      (l.scrollToRow ix offset).state.logicalScrollTop = (ix, offset) := by
  unfold LogList.scrollToRow
  split_ifs with htop
  · refine ⟨⟨[], (List.append_nil _).symm, by simp⟩, rfl, rfl, rfl, rfl, ?_⟩
    simp [ListState.logicalScrollTop, ListState.scrollTo, Nat.not_le.mpr h]
  · exact ⟨Extends.refl _, rfl, rfl, rfl, rfl, not_not.mp htop⟩

theorem restore_spec [DecidableEq Px] {find : ℕ → Option ℕ} (h : Counted l)
    (anchor : Option (ℕ × Px))
    (hfind : ∀ key index, find key = some index → l.sequences[index]? = some key) :
    Extends l.state (l.restore find anchor).state ∧
      (l.restore find anchor).state.items = l.state.items ∧
      (l.restore find anchor).prefixRows = l.prefixRows ∧
      (l.restore find anchor).sequences = l.sequences ∧
      (l.restore find anchor).shapes = l.shapes ∧
      ∀ key index offset, anchor = some (key, offset) → find key = some index →
        (l.restore find anchor).state.logicalScrollTop = (l.prefixRows + index, offset) := by
  have hnothing : (∀ key index offset, anchor = some (key, offset) → find key ≠ some index) →
      l.restore find anchor = l := by
    intro hnone
    unfold LogList.restore
    cases anchor with
    | none => rfl
    | some top =>
      obtain ⟨key, offset⟩ := top
      cases hkey : find key with
      | none => simp only [hkey]
      | some index => exact absurd hkey (hnone key index offset rfl)
  by_cases hex : ∃ key index offset, anchor = some (key, offset) ∧ find key = some index
  · obtain ⟨key, index, offset, rfl, hkey⟩ := hex
    obtain ⟨hlt, -⟩ := List.getElem?_eq_some_iff.mp (hfind key index hkey)
    have hrow : l.prefixRows + index < l.state.items.length := by
      rw [h]
      omega
    obtain ⟨hmade, hitems, hrows, hsequences, hshapes, htop⟩ := scrollToRow_spec (l := l) hrow
    have hrestore : l.restore find (some (key, offset)) =
        l.scrollToRow (l.prefixRows + index) offset := by
      simp only [LogList.restore, hkey]
    rw [hrestore]
    refine ⟨hmade, hitems, hrows, hsequences, hshapes, ?_⟩
    intro key' index' offset' heq hkey'
    obtain ⟨rfl, rfl⟩ := Prod.mk.inj (Option.some.inj heq)
    rw [hkey, Option.some.injEq] at hkey'
    rw [htop, hkey']
  · push Not at hex
    rw [hnothing hex]
    refine ⟨Extends.refl _, rfl, rfl, rfl, rfl, ?_⟩
    intro key index offset heq hkey
    exact absurd hkey (hex key index offset heq)

theorem syncShaped_forgotten [DecidableEq Px] (h : Counted l) (n : ℕ)
    (hnew : new.Pairwise (· < ·)) (shapes : List ℕ) :
    ∃ moved, Moved l moved n new shapes ∧
      Forgotten moved (l.syncShaped n new shapes) (l.reshaped new shapes) := by
  have hfixed := length_fixedRows h n
  have hlength := length_keyRows h
  obtain ⟨hmade, hrows, hsequences, hshapes, hitems, htop⟩ := setPrefixRows_spec h n
  unfold LogList.syncShaped
  generalize l.setPrefixRows n = first at *
  obtain ⟨state, rows, sequences, oldShapes⟩ := first
  dsimp only at hmade hrows hsequences hshapes hitems htop ⊢
  subst hrows hsequences hshapes
  have hreshaped : LogList.reshaped ⟨state, rows, l.sequences, l.shapes⟩ new shapes =
      l.reshaped new shapes := rfl
  have hcount : state.items.length = rows + l.sequences.length := by
    rw [hitems, List.length_append, hfixed, hlength]
  have hsame : ∀ shapes, new = l.sequences →
      Moved l ⟨state, rows, l.sequences, shapes⟩ rows new shapes ∧
        Sound ⟨state, rows, l.sequences, shapes⟩ := by
    rintro shapes rfl
    refine ⟨⟨hmade, ⟨rfl, rfl, rfl⟩, hcount, ?_, ?_⟩, hcount, hnew⟩
    · intro hold
      rw [map_kept_self ⟨h, hold⟩]
      exact hitems
    · intro i j s offset hscroll hi hj
      rw [ascending_index hnew hj hi]
      simp [ListState.logicalScrollTop, htop i offset hscroll]
  rw [hreshaped]
  split_ifs with hboth hnewold
  · obtain ⟨rfl, rfl⟩ := hboth
    have hnothing : l.reshaped l.sequences l.shapes = [] := if_pos ⟨rfl, rfl⟩
    obtain ⟨hmoved, hsound⟩ := hsame l.shapes rfl
    rw [hnothing]
    exact ⟨_, hmoved, forgotten_foldl hsound []⟩
  · obtain ⟨hmoved, hsound⟩ := hsame shapes hnewold
    exact ⟨_, hmoved, forgotten_foldl hsound _⟩
  · obtain ⟨hrow, hextends⟩ := walk_counted l.sequences new rows (i := l.sequences.length)
      (j := new.length) le_rfl le_rfl (show state.items.length = _ by omega)
    have hstart : state.items = fixedRows l rows ++ l.keyRows.take l.sequences.length ++
        (new.drop new.length).map (kept l.sequences l.keyRows) := by
      rw [List.take_of_length_le hlength.le, List.drop_length, hitems]
      simp
    have hspliced := fun hold => walk_items hold hnew hlength le_rfl le_rfl
      (le_refl (l.sequences.length + new.length)) (ahead_length _ _) hstart
    rw [hfixed] at hspliced
    rw [LogList.spliceAll]
    dsimp only
    generalize List.foldl _ _ _ = spliced at hspliced hextends hrow ⊢
    obtain ⟨hmore, hitems', hrows', hsequences', hshapes', hback⟩ :=
      restore_spec (l := ⟨spliced, rows, new, shapes⟩) hrow l.anchor fun key index =>
        (binarySearch_eq_some hnew).mp
    refine ⟨_, ⟨hmade.trans (hextends.trans hmore), ⟨hrows', hsequences', hshapes'⟩,
      by rw [hitems', hrow], fun hold => hitems'.trans (hspliced hold), ?_⟩, forgotten_foldl ?_ _⟩
    · intro i j s offset hscroll hi hj
      exact hback s j offset (anchor_eq hscroll hi) ((binarySearch_eq_some hnew).mpr hj)
    · exact ⟨by rw [hitems', hrows', hsequences', hrow], by rw [hsequences']; exact hnew⟩

/-- What synchronizing a list leaves: rows that were kept, forgotten or put in, and the row at the
top where it was. -/
structure Synced (l l' : LogList Px) (n : ℕ) (sequences shapes : List ℕ) : Prop where
  within : Extends l.state l'.state
  fields : l'.prefixRows = n ∧ l'.sequences = sequences ∧ l'.shapes = shapes
  length : l'.state.items.length = n + sequences.length
  fixed : l'.state.items.take n = fixedRows l n
  kept : ∀ i j s, l.sequences[i]? = some s → sequences[j]? = some s →
    shape l.shapes i = shape shapes j ∨ l'.state.logicalScrollTop.1 = n + j →
    l'.state.items[n + j]? = l.state.items[l.prefixRows + i]?
  forgotten : ∀ i j s, l.sequences[i]? = some s → sequences[j]? = some s →
    shape l.shapes i ≠ shape shapes j → l'.state.logicalScrollTop.1 ≠ n + j →
    l'.state.items[n + j]? = some none
  replaced : ∀ j s, sequences[j]? = some s → s ∉ l.sequences → l'.state.items[n + j]? = some none
  anchor : ∀ s offset, l.state.scrollTop.isSome = true → l.anchor = some (s, offset) →
    s ∈ sequences → l'.anchor = some (s, offset)

omit [Zero Px] in
theorem getElem?_keyRows (h : Counted l) (hi : i < l.sequences.length) :
    ∃ row, l.keyRows[i]? = some row ∧ l.state.items[l.prefixRows + i]? = some row := by
  have hlt : i < l.keyRows.length := by rwa [length_keyRows h]
  refine ⟨_, List.getElem?_eq_getElem hlt, ?_⟩
  rw [← List.getElem?_drop]
  exact List.getElem?_eq_getElem hlt

theorem Moved.getElem? (h : Sound l) (hmoved : Moved l l' n new shapes) (j : ℕ) :
    l'.state.items[n + j]? = (new[j]?).map (kept l.sequences l.keyRows) := by
  have hfixed := length_fixedRows h.rows n
  rw [hmoved.items h.ascending, List.getElem?_append_right (by omega), hfixed,
    Nat.add_sub_cancel_left, List.getElem?_map]

theorem anchor_cases (htop : l.state.scrollTop.isSome = true) {offset : Px}
    (h : l.anchor = some (s, offset)) :
    ∃ i, l.state.scrollTop = some (l.prefixRows + i, offset) ∧ l.sequences[i]? = some s := by
  obtain ⟨⟨ix, off⟩, hscroll⟩ := Option.isSome_iff_exists.mp htop
  simp only [LogList.anchor, ListState.logicalScrollTop, hscroll, Option.getD_some] at h
  split_ifs at h with hle
  obtain ⟨s', hs, heq⟩ := Option.map_eq_some_iff.mp h
  obtain ⟨rfl, rfl⟩ := Prod.mk.inj heq
  exact ⟨ix - l.prefixRows, by rw [hscroll, Nat.add_sub_cancel' hle], hs⟩

theorem syncShaped_synced [DecidableEq Px] (h : Sound l) (n : ℕ) (hnew : new.Pairwise (· < ·))
    (shapes : List ℕ) : Synced l (l.syncShaped n new shapes) n new shapes := by
  obtain ⟨moved, hmoved, hforgot⟩ := syncShaped_forgotten h.rows n hnew shapes
  obtain ⟨hrows, hsequences, hshapes⟩ := hmoved.fields
  obtain ⟨hrows', hsequences', hshapes'⟩ := hforgot.fields
  have hfixed := length_fixedRows h.rows n
  have hlength := hmoved.length
  have hitem := hmoved.getElem? h
  have hrowsOf : ∀ j s, new[j]? = some s → (RowsOf moved (l.reshaped new shapes) (n + j) ↔
      s ∈ l.reshaped new shapes ∧ moved.state.logicalScrollTop.1 ≠ n + j) := by
    intro j s hs
    constructor
    · rintro ⟨s', hs', index, hindex, heq, htop⟩
      rw [hrows] at heq
      obtain rfl : j = index := by omega
      rw [hsequences, hs, Option.some.injEq] at hindex
      exact ⟨hindex ▸ hs', htop⟩
    · rintro ⟨hmem, htop⟩
      exact ⟨s, hmem, j, by rw [hsequences, hs], by rw [hrows], htop⟩
  refine ⟨hmoved.made.trans hforgot.made, ⟨hrows'.trans hrows, hsequences'.trans hsequences,
    hshapes'.trans hshapes⟩, hforgot.length.trans hlength, ?_, ?_, ?_, ?_, ?_⟩
  · apply List.ext_getElem?
    intro k
    by_cases hk : k < n
    · have hnot : ¬RowsOf moved (l.reshaped new shapes) k := by
        rintro ⟨s', -, index, -, heq, -⟩
        omega
      rw [List.getElem?_take_of_lt hk, hforgot.others k hnot, hmoved.items h.ascending,
        List.getElem?_append_left (by omega)]
    · rw [List.getElem?_eq_none (by rw [List.length_take]; omega),
        List.getElem?_eq_none (by omega)]
  · intro i j s hi hj hsame
    have hnot : ¬RowsOf moved (l.reshaped new shapes) (n + j) := by
      rw [hrowsOf j s hj, ← hforgot.top.2, mem_reshaped h hnew]
      rintro ⟨⟨i', j', hi', hj', hne⟩, htop⟩
      rw [ascending_index h.ascending hi' hi, ascending_index hnew hj' hj] at hne
      exact hsame.elim hne htop
    obtain ⟨hlt, -⟩ := List.getElem?_eq_some_iff.mp hi
    obtain ⟨row, hrow, hold⟩ := getElem?_keyRows h.rows hlt
    rw [hforgot.others _ hnot, hitem, hj, Option.map_some, kept_eq h.ascending hi hrow, hold]
  · intro i j s hi hj hne htop
    refine hforgot.forgotten _ ((hrowsOf j s hj).mpr ⟨?_, by rw [← hforgot.top.2]; exact htop⟩)
    exact (mem_reshaped h hnew).mpr ⟨i, j, hi, hj, hne⟩
  · intro j s hj hnot
    have hnotrow : ¬RowsOf moved (l.reshaped new shapes) (n + j) := by
      rw [hrowsOf j s hj, mem_reshaped h hnew]
      rintro ⟨⟨i', j', hi', -⟩, -⟩
      exact hnot (List.mem_of_getElem? hi')
    rw [hforgot.others _ hnotrow, hitem, hj, Option.map_some, kept_of_not_mem hnot]
  · intro s offset htop hanchor hmem
    obtain ⟨i, hscroll, hi⟩ := anchor_cases htop hanchor
    obtain ⟨j, hj⟩ := List.mem_iff_getElem?.mp hmem
    have hback := hmoved.top i j s offset hscroll hi hj
    rw [← hforgot.top.2] at hback
    simp [LogList.anchor, hback, hrows', hrows, hsequences', hsequences, hj]

/-! ## Keys in any order -/

theorem commonHead_spec (as bs : List ℕ) :
    ∃ h x y, as = h ++ x ∧ bs = h ++ y ∧ h.length = commonHead as bs ∧
      ∀ a, x.head? = some a → y.head? ≠ some a := by
  fun_induction commonHead as bs with
  | case1 as a bs ih =>
    obtain ⟨h, x, y, has, hbs, hlength, hhead⟩ := ih
    exact ⟨a :: h, x, y, by rw [has, List.cons_append], by rw [hbs, List.cons_append],
      by rw [List.length_cons, hlength], hhead⟩
  | case2 a as b bs hne =>
    refine ⟨[], _, _, rfl, rfl, rfl, ?_⟩
    intro c hc hc'
    rw [List.head?_cons, Option.some.injEq] at hc hc'
    exact hne (hc.trans hc'.symm)
  | case3 as bs hnot =>
    refine ⟨[], as, bs, rfl, rfl, rfl, ?_⟩
    intro a ha hb
    obtain ⟨as, rfl⟩ := List.head?_eq_some_iff.mp ha
    obtain ⟨bs, rfl⟩ := List.head?_eq_some_iff.mp hb
    exact hnot a as a bs rfl rfl

/-- What synchronizing keys in any order leaves: the rows of the common head and tail. -/
structure EndsKept (l l' : LogList Px) (n : ℕ) (keys : List ℕ) : Prop where
  within : Extends l.state l'.state
  fields : l'.prefixRows = n ∧ l'.sequences = keys
  length : l'.state.items.length = n + keys.length
  ends : ∃ (head x y tail : List ℕ) (rowsHead rowsMiddle rowsTail : List (Option Px)),
    l.sequences = head ++ x ++ tail ∧ keys = head ++ y ++ tail ∧
    (∀ a, x.head? = some a → y.head? ≠ some a) ∧
    (∀ a, x.getLast? = some a → y.getLast? ≠ some a) ∧
    l.keyRows = rowsHead ++ rowsMiddle ++ rowsTail ∧
    rowsHead.length = head.length ∧ rowsTail.length = tail.length ∧
    l'.state.items = fixedRows l n ++ (rowsHead ++ List.replicate y.length none ++ rowsTail)

theorem syncUnordered_kept [DecidableEq Px] (h : Counted l) (n : ℕ) (keys : List ℕ) :
    EndsKept l (l.syncUnordered n keys) n keys := by
  have hfixed := length_fixedRows h n
  have hlength := length_keyRows h
  obtain ⟨hmade, hrows, hsequences, -, hitems, -⟩ := setPrefixRows_spec h n
  unfold LogList.syncUnordered
  generalize l.setPrefixRows n = first at *
  obtain ⟨state, rows, sequences, oldShapes⟩ := first
  dsimp only at hmade hrows hsequences hitems ⊢
  subst hrows hsequences
  split_ifs with hsame
  · subst hsame
    refine ⟨hmade, ⟨rfl, rfl⟩, by rw [hitems, List.length_append, hfixed, hlength], ?_⟩
    exact ⟨l.sequences, [], [], [], l.keyRows, [], [], by simp, by simp, by simp, by simp, by simp,
      hlength, rfl, by simp [hitems]⟩
  obtain ⟨head, x, y, hold, hkeys, hhead, hdiffer⟩ := commonHead_spec l.sequences keys
  have hx : l.sequences.drop (commonHead l.sequences keys) = x := by
    rw [← hhead, hold, List.drop_left]
  have hy : keys.drop (commonHead l.sequences keys) = y := by
    rw [← hhead, hkeys, List.drop_left]
  obtain ⟨tail, x', y', htail, htail', hback, hdiffer'⟩ := commonHead_spec x.reverse y.reverse
  obtain ⟨rfl, rfl⟩ : x = x'.reverse ++ tail.reverse ∧ y = y'.reverse ++ tail.reverse := by
    rw [← List.reverse_append, ← List.reverse_append, ← htail, ← htail', List.reverse_reverse,
      List.reverse_reverse]
    exact ⟨rfl, rfl⟩
  rw [hx, hy, ← hhead, ← hback]
  have hcount : l.sequences.length = head.length + (x'.length + tail.length) := by
    rw [hold]
    simp
  have hcount' : keys.length = head.length + (y'.length + tail.length) := by
    rw [hkeys]
    simp
  obtain ⟨rowsHead, rowsMiddle, rowsTail, hparts, hlengthHead, hlengthMiddle, hlengthTail⟩ :
      ∃ a b c : List (Option Px), l.keyRows = a ++ b ++ c ∧ a.length = head.length ∧
        b.length = x'.length ∧ c.length = tail.length := by
    refine ⟨l.keyRows.take head.length, (l.keyRows.drop head.length).take x'.length,
      (l.keyRows.drop head.length).drop x'.length, ?_, ?_, ?_, ?_⟩
    · rw [List.append_assoc, List.take_append_drop, List.take_append_drop]
    all_goals
      simp only [List.length_take, List.length_drop]
      omega
  have hsplit : state.items = fixedRows l rows ++ rowsHead ++ rowsMiddle ++ rowsTail := by
    rw [hitems, hparts]
    simp
  have hbefore : rows + head.length = (fixedRows l rows ++ rowsHead).length := by
    rw [List.length_append, hfixed, hlengthHead]
  have hbehind : rows + l.sequences.length - tail.length =
      (fixedRows l rows ++ rowsHead).length + rowsMiddle.length := by
    rw [← hbefore, hlengthMiddle]
    omega
  have hcountNew : keys.length - head.length - tail.length = y'.length := by omega
  have hspliced := items_splice hsplit hbefore hbehind (keys.length - head.length - tail.length)
  have hrowsState : state.items.length = rows + l.sequences.length := by
    rw [hitems, List.length_append, hfixed, hlength]
  have hstop : rows + l.sequences.length - tail.length ≤ state.items.length := by omega
  have hextends := extends_splice (keys.length - head.length - tail.length)
    (show rows + head.length ≤ rows + l.sequences.length - tail.length by omega) hstop
  rw [hcountNew] at hspliced hextends ⊢
  generalize state.splice _ _ _ = spliced at hspliced hextends ⊢
  have hfinal : spliced.items.length = rows + keys.length := by
    rw [hspliced]
    simp only [List.length_append, List.length_replicate, hfixed]
    omega
  have hfind : ∀ key index, keys.findIdx? (· == key) = some index → keys[index]? = some key := by
    intro key index hindex
    obtain ⟨hlt, heq, -⟩ := List.findIdx?_eq_some_iff_getElem.mp hindex
    rw [List.getElem?_eq_getElem hlt, eq_of_beq heq]
  obtain ⟨hmore, hitems', hrows', hsequences', -, -⟩ :=
    restore_spec (l := ⟨spliced, rows, keys, []⟩) hfinal l.anchor hfind
  refine ⟨hmade.trans (hextends.trans hmore), ⟨hrows', hsequences'⟩, by rw [hitems', hfinal], ?_⟩
  refine ⟨head, x'.reverse, y'.reverse, tail.reverse, rowsHead, rowsMiddle, rowsTail,
    by rw [hold, List.append_assoc], by rw [hkeys, List.append_assoc], ?_, ?_, hparts, hlengthHead,
    by rw [hlengthTail, List.length_reverse], ?_⟩
  · intro a ha hb
    exact hdiffer a (by rw [List.head?_append, ha]; rfl) (by rw [List.head?_append, hb]; rfl)
  · intro a ha hb
    rw [List.getLast?_reverse] at ha hb
    exact hdiffer' a ha hb
  · rw [hitems', List.length_reverse]
    simpa using hspliced

/-! ## Lists that are used -/

/-- The lists that come about: from a new one by synchronizing, forgetting heights, scrolling and
laying out. -/
inductive Reachable [DecidableEq Px] : LogList Px → Prop
  | new (alignment : ListAlignment) : Reachable { state := { alignment := alignment } }
  | syncShaped {l : LogList Px} (n : ℕ) {sequences : List ℕ} (shapes : List ℕ) (h : Reachable l)
    (hnew : sequences.Pairwise (· < ·)) : Reachable (l.syncShaped n sequences shapes)
  | syncUnordered {l : LogList Px} (n : ℕ) (keys : List ℕ) (h : Reachable l) :
    Reachable (l.syncUnordered n keys)
  | invalidate {l : LogList Px} (s : ℕ) (h : Reachable l) : Reachable (l.invalidate s)
  | scrolled {l : LogList Px} (scrollTop : Option (ℕ × Px)) (h : Reachable l) :
    Reachable { l with state := { l.state with scrollTop := scrollTop } }
  | laidOut {l : LogList Px} (items : List (Option Px)) (h : Reachable l)
    (hitems : items.length = l.state.items.length) :
    Reachable { l with state := { l.state with items := items } }

theorem invalidate_counted (h : Counted l) (s : ℕ) : Counted (l.invalidate s) := by
  unfold LogList.invalidate
  cases hindex : binarySearch l.sequences s with
  | none => exact h
  | some index =>
    obtain ⟨hlt, -⟩ := List.findIdx?_eq_some_iff_getElem.mp hindex
    dsimp only
    split_ifs
    · have hrow : l.prefixRows + index < l.state.items.length := by
        rw [h]
        omega
      rw [Counted, items_splice_one hrow, List.length_set]
      exact h
    · exact h

theorem Reachable.counted [DecidableEq Px] (h : Reachable l) : Counted l := by
  induction h with
  | new alignment => rfl
  | syncShaped n shapes h hnew ih =>
    obtain ⟨moved, hmoved, hforgot⟩ := syncShaped_forgotten ih n hnew shapes
    obtain ⟨hrows, hsequences, -⟩ := hmoved.fields
    obtain ⟨hrows', hsequences', -⟩ := hforgot.fields
    rw [Counted, hforgot.length, hmoved.length, hrows', hrows, hsequences', hsequences]
  | syncUnordered n keys h ih =>
    have hkept := syncUnordered_kept ih n keys
    rw [Counted, hkept.length, hkept.fields.1, hkept.fields.2]
  | invalidate s h ih => exact invalidate_counted ih s
  | scrolled scrollTop h ih => exact ih
  | laidOut items h hitems ih => exact hitems.trans ih

/-- Synchronizing touches only what changed: of ascending keys every row, of keys in any order the
rows of the common head and tail. -/
theorem log_list_synced {Px : Type*} [Zero Px] [DecidableEq Px] (l : LogList Px)
    (h : Reachable l) (n : ℕ) :
    (l.sequences.Pairwise (· < ·) → ∀ sequences, sequences.Pairwise (· < ·) → ∀ shapes,
      Synced l (l.syncShaped n sequences shapes) n sequences shapes) ∧
    ∀ keys, EndsKept l (l.syncUnordered n keys) n keys :=
  ⟨fun hold _ hnew shapes => syncShaped_synced ⟨h.counted, hold⟩ n hnew shapes,
    fun keys => syncUnordered_kept h.counted n keys⟩

end Sync

def scrolledList : LogList ℕ :=
  let l : LogList ℕ := LogList.syncShaped { state := { alignment := .bottom } } 0 [1, 4, 6] []
  { l with
    state := { l.state with items := [some 10, some 20, some 30], scrollTop := some (2, 5) } }

theorem scrolledList_reachable : Reachable scrolledList := by
  have hascending : [1, 4, 6].Pairwise (· < ·) := by decide
  have hnew : Reachable ({ state := { alignment := .bottom } } : LogList ℕ) := .new .bottom
  have hsynced := Reachable.syncShaped 0 [] hnew hascending
  exact .scrolled (some (2, 5)) (.laidOut [some 10, some 20, some 30] hsynced (by decide))

theorem log_list_synced_scrolled :
    Synced scrolledList (scrolledList.syncShaped 1 [4, 5, 6] [0, 1, 1]) 1 [4, 5, 6] [0, 1, 1] ∧
      EndsKept scrolledList (scrolledList.syncUnordered 0 [1, 6]) 0 [1, 6] :=
  ⟨(log_list_synced scrolledList scrolledList_reachable 1).1 (by decide) [4, 5, 6] (by decide)
    [0, 1, 1], (log_list_synced scrolledList scrolledList_reachable 0).2 [1, 6]⟩

def reorderedList : LogList ℕ :=
  let l : LogList ℕ := LogList.syncUnordered { state := { alignment := .top } } 0 [3, 1]
  { l with state := { l.state with items := [some 30, some 10] } }

theorem reorderedList_reachable : Reachable reorderedList :=
  .laidOut [some 30, some 10] (.syncUnordered 0 [3, 1] (.new .top)) (by decide)

/-- Keys that were put in another order do not keep their rows when they ascend again. -/
theorem reordered_row_lost :
    Reachable reorderedList ∧
      ¬Synced reorderedList (reorderedList.syncShaped 0 [1, 3] []) 0 [1, 3] [] := by
  refine ⟨reorderedList_reachable, ?_⟩
  intro h
  have hkept := h.kept 0 1 3 (by decide) (by decide) (.inl (by decide))
  exact absurd hkept (by decide)

end CayenChat.Logs
