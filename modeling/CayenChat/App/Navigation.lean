import CayenChat.App.Groups
import CayenChat.Lib.Rounds

/-! # Going through conversations and headings

The commands of the keyboard go round what the tree shows. Every position of the selection gives an
order in which the shown items are looked at, and a step goes to the first that counts.
-/

namespace CayenChat.App
open Round List

section Cycles

variable {α : Type} {l : List α} {current : ℕ} {forward : Bool}

def inDirection (forward : Bool) (l : List α) : List α := if forward then l else l.reverse

theorem nodup_inDirection : (inDirection forward l).Nodup ↔ l.Nodup := by
  cases forward with
  | true => exact Iff.rfl
  | false => exact nodup_reverse

theorem mem_inDirection {a : α} : a ∈ inDirection forward l ↔ a ∈ l := by
  cases forward with
  | true => exact Iff.rfl
  | false => exact mem_reverse

theorem length_inDirection : (inDirection forward l).length = l.length := by
  cases forward with
  | true => rfl
  | false => exact length_reverse

theorem cycleFrom_eq_map (h : 0 < l.length) : cycleFrom l current forward =
    (List.range' 1 l.length).map fun step =>
      l.get ⟨if forward then (current + step) % l.length
        else (current + l.length - step) % l.length, by split <;> exact Nat.mod_lt _ h⟩ := by
  rw [cycleFrom, ← filterMap_eq_map]
  apply filterMap_congr
  intro step _
  rw [Function.comp_apply, get_eq_getElem, getElem?_eq_getElem]

theorem cycleFrom_forward (h : current < l.length) :
    cycleFrom l current true = l.rotate (current + 1) := by
  rw [cycleFrom_eq_map (by omega)]
  apply ext_getElem
  · simp
  · intro k hk hk'
    simp only [length_map, length_range'] at hk
    simp only [if_true, getElem_map, getElem_range', get_eq_getElem, getElem_rotate]
    congr 2
    omega

theorem cycleFrom_back (h : current < l.length) :
    cycleFrom l current false = (l.rotate current).reverse := by
  rw [cycleFrom_eq_map (by omega)]
  apply ext_getElem
  · simp
  · intro k hk hk'
    simp only [length_map, length_range'] at hk
    simp only [Bool.false_eq_true, if_false, getElem_map, getElem_range', get_eq_getElem,
      getElem_reverse, length_rotate, getElem_rotate]
    congr 2
    omega

theorem cycleFrom_rotated (h : current < l.length) :
    cycleFrom l current forward ~r inDirection forward l := by
  cases forward with
  | true =>
    rw [cycleFrom_forward h]
    exact IsRotated.forall l _
  | false =>
    rw [cycleFrom_back h]
    exact (IsRotated.forall l _).reverse

theorem cycleFrom_getLast (h : current < l.length) :
    (cycleFrom l current forward).getLast? = l[current]? := by
  cases forward with
  | true =>
    rw [cycleFrom_forward h, rotate_eq_drop_append_take (by omega), getLast?_append,
      getElem?_eq_getElem h, take_succ_eq_append_getElem h, getLast?_concat, Option.some_or]
  | false => rw [cycleFrom_back h, getLast?_reverse, head?_rotate h]

end Cycles

namespace AppState

def shown (s : AppState) : List ConversationId := s.displayTree.conversations

def headings (s : AppState) : List Parent :=
  (s.displayTree.groups.filter (·.2 ≠ [])).map (fun g => Parent.group g.1) ++
    s.displayTree.servers.map fun n => Parent.server n.1

def heading (s : AppState) : Option Parent :=
  match s.selected with
  | .server id => some (.server id)
  | .channel id => s.displayTree.parentOf id
  | .none => none

/-- A sound state whose groups have members and identifiers of their own. -/
structure Navigable (s : AppState) : Prop extends s.Sound where
  apart : s.Apart
  tagged : (s.groups.map (·.id)).Nodup

variable {s : AppState} {id : ConversationId} {network : NetworkId} {forward activeOnly : Bool}
  {filter : ChannelFilter}

theorem select_displayTree (target : Selection) : (s.select target).displayTree = s.displayTree := by
  cases target with
  | server id =>
    simp only [select, selectServer]
    split <;> rfl
  | channel id =>
    simp only [select, selectChannel]
    split <;> rfl
  | none => rfl

theorem select_active (target : Selection) :
    (s.select target).activeChannels = s.activeChannels ∧
      (s.select target).activeServers = s.activeServers := by
  cases target with
  | server id =>
    simp only [select, selectServer]
    split <;> exact ⟨rfl, rfl⟩
  | channel id =>
    simp only [select, selectChannel]
    split <;> exact ⟨rfl, rfl⟩
  | none => exact ⟨rfl, rfl⟩

theorem Navigable.select (h : s.Navigable) (target : Selection) : (s.select target).Navigable where
  toSound := h.toSound.select target
  apart := h.apart.of_groups (groups_of_arrangement (select_arrangement s target))
  tagged := by
    rw [groups_of_arrangement (select_arrangement s target)]
    exact h.tagged

theorem Navigable.selectChannel (h : s.Navigable) (id : ConversationId) :
    (s.selectChannel id).Navigable := h.select (.channel id)

/-! ## Conversations -/

theorem Navigable.nodup_shown (h : s.Navigable) : s.shown.Nodup := tree_nodup h.toSound h.apart

theorem Navigable.mem_shown (h : s.Navigable) : id ∈ s.shown ↔ s.Known id := mem_tree_iff h.toSound

theorem Navigable.shown_perm (h : s.Navigable) : s.shown.Perm (s.conversations.map (·.id)) := by
  rw [perm_ext_iff_of_nodup h.nodup_shown h.ids.nodup]
  intro id
  rw [h.mem_shown, mem_map]
  rfl

def lookedAt (s : AppState) (forward : Bool) : List ConversationId :=
  (s.cycleStart s.displayTree s.shown forward).elim [] fun current =>
    cycleFrom s.shown current forward

theorem Navigable.cycleStart_lt (h : s.Navigable) (forward : Bool) (hne : s.shown ≠ []) :
    ∃ current < s.shown.length, s.cycleStart s.displayTree s.shown forward = some current := by
  have hpos := length_pos_iff.mpr hne
  obtain ⟨current, hcurrent⟩ :=
    Option.isSome_iff_exists.mp (h.toSound.cycleStart_isSome forward)
  refine ⟨current, ?_, hcurrent⟩
  unfold cycleStart at hcurrent
  split at hcurrent
  · exact (findIdx?_eq_some_iff_findIdx_eq.mp hcurrent).1
  · dsimp only at hcurrent
    split at hcurrent
    · rw [← Option.some.inj hcurrent]
      cases (s.displayTree.children _).head?.bind _ with
      | none => simp only [Option.elim_none, shown] at hpos ⊢; omega
      | some index => exact Nat.mod_lt _ hpos
    · rw [← Option.some.inj hcurrent]
      cases (s.displayTree.children _).getLast?.bind _ with
      | none => exact hpos
      | some index => exact Nat.mod_lt _ hpos
  · rw [← Option.some.inj hcurrent]
    cases forward with
    | true => simp only [if_true, shown] at hpos ⊢; omega
    | false => exact hpos

theorem Navigable.lookedAt_rotated (h : s.Navigable) (forward : Bool) :
    s.lookedAt forward ~r inDirection forward s.shown := by
  by_cases hne : s.shown = []
  · have hnil : s.lookedAt forward = [] := by
      rw [lookedAt]
      cases s.cycleStart s.displayTree s.shown forward with
      | none => rfl
      | some current => simp [hne, cycleFrom]
    rw [hnil, hne]
    cases forward <;> exact IsRotated.refl _
  · obtain ⟨current, hlt, hcurrent⟩ := h.cycleStart_lt forward hne
    rw [lookedAt, hcurrent]
    exact cycleFrom_rotated hlt

theorem Navigable.nodup_lookedAt (h : s.Navigable) : (s.lookedAt forward).Nodup :=
  (h.lookedAt_rotated _).nodup_iff.mpr (nodup_inDirection.mpr h.nodup_shown)

theorem Navigable.lookedAt_getLast (h : s.Navigable) (hid : s.selected = .channel id) :
    (s.lookedAt forward).getLast? = some id := by
  have hmem : id ∈ s.shown := h.mem_shown.mpr (h.selection id hid).1
  obtain ⟨current, hlt, hcurrent⟩ := h.cycleStart_lt forward (ne_nil_of_mem hmem)
  rw [lookedAt, hcurrent, Option.elim_some, cycleFrom_getLast hlt, getElem?_eq_getElem hlt]
  simp only [cycleStart, hid] at hcurrent
  have heq := (findIdx?_eq_some_iff_getElem.mp hcurrent).2.1
  simpa using heq

theorem Navigable.cycleChannel_eq (h : s.Navigable) : s.cycleChannel forward filter =
    ((s.lookedAt forward).find? (s.cycles filter)).elim s s.selectChannel := by
  unfold cycleChannel
  dsimp only
  by_cases hne : s.shown = []
  · have hnil := isRotated_nil_iff.mp (show s.lookedAt forward ~r [] by
      have := h.lookedAt_rotated forward
      rw [hne] at this
      cases forward <;> exact this)
    rw [if_pos (show s.displayTree.conversations = [] from hne), hnil]
    rfl
  · obtain ⟨current, -, hcurrent⟩ := h.cycleStart_lt forward hne
    rw [if_neg (show ¬ s.displayTree.conversations = [] from hne), lookedAt, hcurrent,
      show s.cycleStart s.displayTree s.displayTree.conversations forward = some current from
        hcurrent]
    dsimp only [Option.elim_some]
    change _ = (find? (s.cycles filter) (cycleFrom s.displayTree.conversations current forward)).elim
      s s.selectChannel
    cases find? (s.cycles filter) (cycleFrom s.displayTree.conversations current forward) <;> rfl

theorem Navigable.known_of_find (h : s.Navigable) {p : ConversationId → Bool}
    (hid : (s.lookedAt forward).find? p = some id) : s.Known id :=
  h.mem_shown.mp (mem_inDirection.mp ((h.lookedAt_rotated _).mem_iff.mp (mem_of_find?_eq_some hid)))

theorem Navigable.lookedAt_select (h : s.Navigable) (forward : Bool) (hid : s.Known id) :
    s.lookedAt forward ~r (s.selectChannel id).lookedAt forward ∧
      ((s.selectChannel id).lookedAt forward).getLast? = some id := by
  have hnext := h.selectChannel id
  have hshown : (s.selectChannel id).shown = s.shown := by
    rw [shown, shown, show (s.selectChannel id).displayTree = s.displayTree from
      select_displayTree (.channel id)]
  refine ⟨(h.lookedAt_rotated _).trans ?_, hnext.lookedAt_getLast (selectChannel_selected hid)⟩
  rw [← hshown]
  exact (hnext.lookedAt_rotated _).symm

theorem cycles_select (hf : filter ≠ .unread) : (s.selectChannel id).cycles filter = s.cycles filter := by
  funext other
  cases filter with
  | all => rfl
  | active =>
    have hactive : (s.selectChannel id).activeChannels = s.activeChannels :=
      (select_active (.channel id)).1
    simp only [cycles, hactive]
  | unread => exact absurd rfl hf

theorem cycles_select_unread (hid : s.Known id) (other : ConversationId) :
    (s.selectChannel id).cycles .unread other = true ↔
      s.cycles .unread other = true ∧ other ≠ id := by
  obtain ⟨c, hc, rfl⟩ := hid
  have hany : s.conversations.any (·.id = c.id) = true :=
    any_eq_true.mpr ⟨c, hc, decide_eq_true rfl⟩
  simp only [cycles, selectChannel, if_pos hany, decide_eq_true_eq, Finset.mem_erase]
  exact and_comm

def counted (s : AppState) (forward : Bool) (filter : ChannelFilter) : List ConversationId :=
  (s.lookedAt forward).filter (s.cycles filter)

theorem Navigable.cycleChannel_first (h : s.Navigable) {rest : List ConversationId}
    (hround : s.counted forward filter = id :: rest) :
    (s.lookedAt forward).find? (s.cycles filter) = some id ∧ s.Known id ∧
      s.cycleChannel forward filter = s.selectChannel id := by
  have hfind : (s.lookedAt forward).find? (s.cycles filter) = some id := by
    rw [← head?_filter, show List.filter _ _ = _ from hround, head?_cons]
  refine ⟨hfind, h.known_of_find hfind, ?_⟩
  rw [h.cycleChannel_eq, hfind]
  rfl

theorem Navigable.cycleChannel (h : s.Navigable) : (s.cycleChannel forward filter).Navigable := by
  rw [h.cycleChannel_eq]
  cases (s.lookedAt forward).find? (s.cycles filter) with
  | none => exact h
  | some id => exact h.selectChannel id

theorem Navigable.visits_channels (h : s.Navigable) (forward : Bool) (filter : ChannelFilter)
    (hf : filter ≠ .unread) :
    visits (·.cycleChannel forward filter) (·.selected) (s.counted forward filter).length s =
      (s.counted forward filter).map Selection.channel := by
  have hvisits := visits_round (fun s : AppState => s.cycleChannel forward filter) (fun s => s.selected)
    (fun s => (s.counted forward filter).map Selection.channel) Navigable
    (fun s h => h.cycleChannel) ?_ h
  · rwa [length_map] at hvisits
  · rintro s y rest h hround
    obtain ⟨id, ids, hcounted, rfl, rfl⟩ := map_eq_cons_iff.mp hround
    obtain ⟨hfind, hid, hstep⟩ := h.cycleChannel_first hcounted
    obtain ⟨hrotated, hlast⟩ := h.lookedAt_select forward hid
    obtain ⟨rest, hrest, hnext⟩ := filter_next h.nodup_lookedAt hrotated hfind hlast
    obtain rfl : ids = rest := (cons.inj (hcounted.symm.trans hrest)).2
    rw [hstep]
    refine ⟨selectChannel_selected hid, ?_⟩
    rw [counted, cycles_select hf, hnext]
    simp

theorem Navigable.visits_unread (h : s.Navigable) (forward : Bool) :
    visits (·.cycleChannel forward .unread) (·.selected) (s.counted forward .unread).length s =
      (s.counted forward .unread).map Selection.channel ∧
    ((·.cycleChannel forward .unread)^[(s.counted forward .unread).length] s).counted forward
      .unread = [] := by
  have hvisits := visits_consumed (fun s : AppState => s.cycleChannel forward .unread) (fun s => s.selected)
    (fun s => (s.counted forward .unread).map Selection.channel) Navigable
    (fun s h => h.cycleChannel) ?_ h
  · rw [length_map] at hvisits
    exact ⟨hvisits.1, map_eq_nil_iff.mp hvisits.2⟩
  · rintro s y rest h hround
    obtain ⟨id, ids, hcounted, rfl, rfl⟩ := map_eq_cons_iff.mp hround
    obtain ⟨hfind, hid, hstep⟩ := h.cycleChannel_first hcounted
    obtain ⟨hrotated, hlast⟩ := h.lookedAt_select forward hid
    have hnext := filter_next_erased h.nodup_lookedAt hrotated hfind hlast (cycles_select_unread hid)
    rw [hstep]
    refine ⟨selectChannel_selected hid, ?_⟩
    rw [counted, ← (cons.inj (hcounted.symm.trans hnext)).2]

theorem Navigable.iterate (h : s.Navigable) (n : ℕ) :
    ((·.cycleChannel forward filter)^[n] s).Navigable := by
  induction n generalizing s with
  | zero => exact h
  | succ n ih => exact ih h.cycleChannel

theorem Navigable.cycleChannel_stays (h : s.Navigable) (hnone : s.counted forward filter = []) :
    s.cycleChannel forward filter = s := by
  rw [h.cycleChannel_eq, ← head?_filter, show List.filter _ _ = [] from hnone]
  rfl

theorem Navigable.counted_rotated (h : s.Navigable) :
    s.counted forward filter ~r (inDirection forward s.shown).filter (s.cycles filter) :=
  isRotated_filter (h.lookedAt_rotated _) _

theorem Navigable.length_counted (h : s.Navigable) {ids : Finset ConversationId}
    (hk : ∀ id ∈ ids, s.Known id) (hf : ∀ id, s.cycles filter id = true ↔ id ∈ ids) :
    (s.counted forward filter).length = ids.card := by
  rw [counted, ← toFinset_card_of_nodup (h.nodup_lookedAt.filter _)]
  congr 1
  ext id
  simp only [mem_toFinset, mem_filter, hf]
  refine ⟨fun hid => hid.2, fun hid => ⟨?_, hid⟩⟩
  exact (h.lookedAt_rotated _).mem_iff.mpr (mem_inDirection.mpr (h.mem_shown.mpr (hk id hid)))

theorem Navigable.cycleChannel_back (h : s.Navigable) (forward : Bool) (hid : s.selected = .channel id)
    (hcounts : s.cycles filter id = true) (hf : filter ≠ .unread) :
    ((s.cycleChannel forward filter).cycleChannel (!forward) filter).selected = .channel id := by
  have hmem : id ∈ s.counted forward filter := by
    refine mem_filter.mpr ⟨?_, hcounts⟩
    exact mem_of_getLast? (h.lookedAt_getLast hid)
  obtain ⟨y, rest, hround⟩ := exists_cons_of_ne_nil (ne_nil_of_mem hmem)
  obtain ⟨hfind, hy, hstep⟩ := h.cycleChannel_first hround
  have hnext := h.selectChannel y
  have hshown : (s.selectChannel y).shown = s.shown := by
    rw [shown, shown, show (s.selectChannel y).displayTree = s.displayTree from
      select_displayTree (.channel y)]
  have hrotated : (s.lookedAt forward).reverse ~r (s.selectChannel y).lookedAt (!forward) := by
    refine (h.lookedAt_rotated _).reverse.trans ?_
    refine IsRotated.trans ?_ (hnext.lookedAt_rotated _).symm
    rw [hshown]
    cases forward with
    | true => exact IsRotated.refl _
    | false =>
      rw [inDirection, if_neg Bool.false_ne_true, reverse_reverse]
      exact IsRotated.refl _
  have hback := find?_back h.nodup_lookedAt (h.lookedAt_getLast hid) hcounts hfind hrotated
    (hnext.lookedAt_getLast (selectChannel_selected hy))
  have hback' : ((s.selectChannel y).lookedAt (!forward)).find?
      ((s.selectChannel y).cycles filter) = some id := by
    rw [cycles_select hf]
    exact hback
  rw [hstep, hnext.cycleChannel_eq, hback']
  exact selectChannel_selected (hnext.known_of_find hback')

theorem children_subset (parent : Parent) : s.displayTree.children parent ⊆ s.shown := by
  rintro id hid
  cases parent with
  | group group =>
    rw [DisplayTree.children] at hid
    cases hfind : s.displayTree.groups.find? (·.1 = group) with
    | none => simp [hfind] at hid
    | some e =>
      refine mem_append_left _ (mem_flatMap.mpr ⟨e, mem_of_find?_eq_some hfind, ?_⟩)
      simpa [hfind] using hid
  | server server =>
    rw [DisplayTree.children] at hid
    cases hfind : s.displayTree.servers.find? (·.1 = server) with
    | none => simp [hfind] at hid
    | some e =>
      refine mem_append_right _ (mem_flatMap.mpr ⟨e, mem_of_find?_eq_some hfind, ?_⟩)
      simpa [hfind] using hid

theorem Navigable.next_from_server (h : s.Navigable) (hs : s.selected = .server network)
    (hid : (s.displayTree.children (.server network)).head? = some id) :
    (s.cycleChannel true .all).selected = .channel id := by
  have hmem : id ∈ s.shown := children_subset _ (mem_of_head? hid)
  obtain ⟨index, hindex⟩ : ∃ index, s.shown.findIdx? (· = id) = some index :=
    Option.isSome_iff_exists.mp (findIdx?_isSome.trans (any_eq_true.mpr ⟨id, hmem, by simp⟩))
  obtain ⟨hlt, heq, -⟩ := findIdx?_eq_some_iff_getElem.mp hindex
  have hlooked : s.lookedAt true = s.shown.rotate index := by
    have hstart : s.cycleStart s.displayTree s.shown true =
        some ((index + s.shown.length - 1) % s.shown.length) := by
      simp only [cycleStart, hs, if_true, hid, Option.bind_some, hindex, Option.elim_some]
    have hmod : ((index + s.shown.length - 1) % s.shown.length + 1) % s.shown.length = index := by
      rw [Nat.mod_add_mod, show index + s.shown.length - 1 + 1 = index + s.shown.length by omega,
        Nat.add_mod_right, Nat.mod_eq_of_lt hlt]
    rw [lookedAt, hstart, Option.elim_some, cycleFrom_forward (Nat.mod_lt _ (by omega)),
      ← rotate_mod s.shown ((index + s.shown.length - 1) % s.shown.length + 1), hmod]
  have hfind : (s.lookedAt true).find? (s.cycles .all) = some id := by
    have hhead : (s.lookedAt true).head? = some id := by
      rw [hlooked, head?_rotate hlt, getElem?_eq_getElem hlt]
      simpa using heq
    obtain ⟨rest, hrest⟩ := head?_eq_some_iff.mp hhead
    rw [hrest]
    rfl
  rw [h.cycleChannel_eq, hfind]
  exact selectChannel_selected (h.known_of_find hfind)

theorem Navigable.previous_from_server (h : s.Navigable) (hs : s.selected = .server network)
    (hid : (s.displayTree.children (.server network)).getLast? = some id) :
    (s.cycleChannel false .all).selected = .channel id := by
  have hmem : id ∈ s.shown := children_subset _ (mem_of_getLast? hid)
  obtain ⟨fromEnd, hfromEnd⟩ : ∃ fromEnd, s.shown.reverse.findIdx? (· = id) = some fromEnd :=
    Option.isSome_iff_exists.mp
      (findIdx?_isSome.trans (any_eq_true.mpr ⟨id, mem_reverse.mpr hmem, by simp⟩))
  obtain ⟨hlt, heq, -⟩ := findIdx?_eq_some_iff_getElem.mp hfromEnd
  rw [length_reverse] at hlt
  have hlooked : s.lookedAt false =
      (s.shown.rotate ((s.shown.length - 1 - fromEnd + 1) % s.shown.length)).reverse := by
    have hstart : s.cycleStart s.displayTree s.shown false =
        some ((s.shown.length - 1 - fromEnd + 1) % s.shown.length) := by
      simp only [cycleStart, hs, Bool.false_eq_true, if_false, hid, Option.bind_some, hfromEnd,
        Option.map_some, Option.elim_some]
    rw [lookedAt, hstart, Option.elim_some, cycleFrom_back (Nat.mod_lt _ (by omega))]
  have hfind : (s.lookedAt false).find? (s.cycles .all) = some id := by
    have hhead : (s.lookedAt false).head? = some id := by
      rw [hlooked, head?_reverse, rotate_mod, rotate_eq_drop_append_take (by omega),
        getLast?_append, take_succ_eq_append_getElem (by omega), getLast?_concat, Option.some_or]
      simpa [getElem_reverse] using heq
    obtain ⟨rest, hrest⟩ := head?_eq_some_iff.mp hhead
    rw [hrest]
    rfl
  rw [h.cycleChannel_eq, hfind]
  exact selectChannel_selected (h.known_of_find hfind)

/-! ## Headings -/

theorem Navigable.children_group (h : s.Navigable) {g : ChannelGroup} (hg : g ∈ s.groups) :
    s.displayTree.children (.group g.id) = s.shownIn g := by
  have hfind : s.displayTree.groups.find? (·.1 = g.id) = some (g.id, s.shownIn g) := by
    rw [tree_groups]
    apply find_of_mem (mem_map_of_mem hg)
    · simp
    · rintro e he heq
      obtain ⟨g', hg', rfl⟩ := mem_map.mp he
      rw [inj_on_of_nodup_map h.tagged hg' hg (by simpa using heq)]
  rw [DisplayTree.children, hfind]
  rfl

theorem mem_headings {parent : Parent} : parent ∈ s.headings ↔
    (∃ g ∈ s.groups, s.shownIn g ≠ [] ∧ parent = .group g.id) ∨
      ∃ n ∈ s.networks, parent = .server n.id := by
  rw [headings, tree_groups, tree_servers, mem_append]
  apply or_congr
  · constructor
    · intro hp
      obtain ⟨e, he, rfl⟩ := mem_map.mp hp
      obtain ⟨he, hne⟩ := mem_filter.mp he
      obtain ⟨g, hg, rfl⟩ := mem_map.mp he
      exact ⟨g, hg, by simpa using hne, rfl⟩
    · rintro ⟨g, hg, hne, rfl⟩
      exact mem_map.mpr ⟨(g.id, s.shownIn g), mem_filter.mpr ⟨mem_map_of_mem hg, by simpa using hne⟩, rfl⟩
  · constructor
    · intro hp
      obtain ⟨e, he, rfl⟩ := mem_map.mp hp
      obtain ⟨n, hn, rfl⟩ := mem_map.mp he
      exact ⟨n, hn, rfl⟩
    · rintro ⟨n, hn, rfl⟩
      exact mem_map.mpr ⟨_, mem_map_of_mem hn, rfl⟩

theorem Navigable.nodup_headings (h : s.Navigable) : s.headings.Nodup := by
  rw [headings, tree_groups, tree_servers, nodup_append]
  refine ⟨?_, ?_, ?_⟩
  · have hids : ((s.groups.map fun g => (g.id, s.shownIn g)).map Prod.fst).Nodup := by
      rw [map_map]
      exact h.tagged
    have hsub := hids.sublist ((filter_sublist (p := fun e => decide (e.2 ≠ []))).map Prod.fst)
    have := hsub.map (f := Parent.group) fun a b heq => Parent.group.inj heq
    rwa [map_map] at this
  · have := h.distinct.map (f := Parent.server) fun a b heq => Parent.server.inj heq
    rw [map_map] at this ⊢
    exact this
  · rintro p hp q hq rfl
    obtain ⟨e, -, rfl⟩ := mem_map.mp hp
    obtain ⟨n, -, heq⟩ := mem_map.mp hq
    cases heq

theorem mem_networks (h : s.hasNetwork network = true) : ∃ n ∈ s.networks, n.id = network := by
  obtain ⟨n, hn, heq⟩ := any_eq_true.mp h
  exact ⟨n, hn, of_decide_eq_true heq⟩

theorem Navigable.heading_mem (h : s.Navigable) (hne : s.headings ≠ []) :
    ∃ parent ∈ s.headings, s.heading = some parent := by
  unfold heading
  cases hs : s.selected with
  | server id =>
    obtain ⟨n, hn, rfl⟩ := mem_networks (h.server id hs)
    exact ⟨_, mem_headings.mpr (Or.inr ⟨n, hn, rfl⟩), rfl⟩
  | channel id =>
    obtain ⟨c, hc, rfl⟩ := (h.selection id hs).1
    by_cases hin : c.id ∈ s.grouped
    · obtain ⟨g, hg, -, -, -, -, -, -, hshown⟩ := mem_grouped hin
      exact ⟨_, mem_headings.mpr (Or.inl ⟨g, hg, ne_nil_of_mem hshown, rfl⟩),
        parentOf_group h.ids h.apart hg hshown⟩
    · obtain ⟨n, hn, heq⟩ := mem_networks (h.homed c hc)
      refine ⟨_, mem_headings.mpr (Or.inr ⟨n, hn, rfl⟩), ?_⟩
      rw [heq]
      exact parentOf_own h.toSound hc hin
  | none =>
    have hnone := h.nothing hs
    obtain ⟨parent, hp⟩ := exists_mem_of_ne_nil _ hne
    rcases mem_headings.mp hp with ⟨g, hg, hshown, -⟩ | ⟨n, hn, -⟩
    · obtain ⟨id, hid⟩ := exists_mem_of_ne_nil _ hshown
      obtain ⟨m, -, hm⟩ := mem_filterMap.mp hid
      obtain ⟨c, hc, -⟩ := memberChannel_spec hm
      obtain ⟨n, hn, -⟩ := mem_networks (h.homed c hc)
      simp [hnone] at hn
    · simp [hnone] at hn

def headingsLookedAt (s : AppState) (forward : Bool) : List Parent :=
  (s.heading.bind fun parent => s.headings.findIdx? (· = parent)).elim [] fun current =>
    cycleFrom s.headings current forward

theorem Navigable.heading_place (h : s.Navigable) (hne : s.headings ≠ []) :
    ∃ current, ∃ hlt : current < s.headings.length,
      (s.heading.bind fun parent => s.headings.findIdx? (· = parent)) = some current ∧
        s.heading = some s.headings[current] := by
  obtain ⟨parent, hmem, hparent⟩ := h.heading_mem hne
  obtain ⟨current, hcurrent⟩ : ∃ current, s.headings.findIdx? (· = parent) = some current :=
    Option.isSome_iff_exists.mp (findIdx?_isSome.trans (any_eq_true.mpr ⟨parent, hmem, by simp⟩))
  obtain ⟨hlt, heq, -⟩ := findIdx?_eq_some_iff_getElem.mp hcurrent
  refine ⟨current, hlt, ?_, ?_⟩
  · rw [hparent]
    exact hcurrent
  · rw [hparent, of_decide_eq_true heq]

theorem Navigable.headings_rotated (h : s.Navigable) (forward : Bool) :
    s.headingsLookedAt forward ~r inDirection forward s.headings := by
  by_cases hne : s.headings = []
  · have hnil : s.headingsLookedAt forward = [] := by
      rw [headingsLookedAt, hne]
      cases s.heading with
      | none => rfl
      | some parent => rfl
    rw [hnil, hne]
    cases forward <;> exact IsRotated.refl _
  · obtain ⟨current, hlt, hcurrent, -⟩ := h.heading_place hne
    rw [headingsLookedAt, hcurrent]
    exact cycleFrom_rotated hlt

theorem Navigable.nodup_headingsLookedAt (h : s.Navigable) : (s.headingsLookedAt forward).Nodup :=
  (h.headings_rotated _).nodup_iff.mpr (nodup_inDirection.mpr h.nodup_headings)

theorem Navigable.headings_getLast (h : s.Navigable) (hne : s.headings ≠ []) :
    (s.headingsLookedAt forward).getLast? = s.heading := by
  obtain ⟨current, hlt, hcurrent, heq⟩ := h.heading_place hne
  rw [headingsLookedAt, hcurrent, Option.elim_some, cycleFrom_getLast hlt, getElem?_eq_getElem hlt,
    heq]

def countsHeading (s : AppState) (activeOnly : Bool) (parent : Parent) : Bool :=
  (s.headingTarget s.displayTree activeOnly parent).isSome

theorem findSome?_eq_bind {α β : Type} (l : List α) (f : α → Option β) :
    l.findSome? f = (l.find? fun a => (f a).isSome).bind f := by
  induction l with
  | nil => rfl
  | cons a l ih =>
    rw [findSome?_cons, find?_cons]
    cases hf : f a with
    | none => simpa [hf] using ih
    | some b => simp [hf]

theorem Navigable.cycleServer_eq (h : s.Navigable) : s.cycleServer forward activeOnly =
    (((s.headingsLookedAt forward).find? (s.countsHeading activeOnly)).bind
      (s.headingTarget s.displayTree activeOnly)).elim s s.select := by
  unfold AppState.cycleServer
  dsimp only
  by_cases hne : s.headings = []
  · have hnil := h.headings_rotated forward
    rw [hne, show inDirection forward ([] : List Parent) = [] by cases forward <;> rfl,
      isRotated_nil_iff] at hnil
    unfold headings at hne
    rw [if_pos hne, hnil]
    rfl
  · obtain ⟨current, -, hcurrent, -⟩ := h.heading_place hne
    have hlooked : s.headingsLookedAt forward = cycleFrom s.headings current forward := by
      rw [headingsLookedAt, hcurrent, Option.elim_some]
    have hfound : (cycleFrom s.headings current forward).findSome?
        (s.headingTarget s.displayTree activeOnly) =
        ((cycleFrom s.headings current forward).find? (s.countsHeading activeOnly)).bind
          (s.headingTarget s.displayTree activeOnly) := findSome?_eq_bind _ _
    unfold headings at hne
    rw [if_neg hne, hlooked]
    split
    · rename_i hnone
      cases hcurrent.symm.trans hnone
    · rename_i place hplace
      obtain rfl : current = place := Option.some.inj (hcurrent.symm.trans hplace)
      split
      · rename_i target htarget
        rw [hfound.symm.trans htarget]
        rfl
      · rename_i hnone
        rw [hfound.symm.trans hnone]
        rfl

theorem Navigable.heading_target (h : s.Navigable) {parent : Parent} {target : Selection}
    (hp : parent ∈ s.headings) (ht : s.headingTarget s.displayTree activeOnly parent = some target) :
    (s.select target).heading = some parent := by
  rcases mem_headings.mp hp with ⟨g, hg, -, rfl⟩ | ⟨n, hn, rfl⟩
  · rw [headingTarget, h.children_group hg] at ht
    obtain ⟨id, hid, rfl⟩ := Option.map_eq_some_iff.mp ht
    have hshown := mem_of_find?_eq_some hid
    have hparent := parentOf_group h.ids h.apart hg hshown
    obtain ⟨m, -, hm⟩ := mem_filterMap.mp hshown
    obtain ⟨c, hc, rfl, -⟩ := memberChannel_spec hm
    rw [heading, show (s.select (.channel c.id)).selected = .channel c.id from
      selectChannel_selected ⟨c, hc, rfl⟩]
    dsimp only
    rw [select_displayTree, hparent]
  · have htarget : target = .server n.id := by
      rw [headingTarget] at ht
      split at ht
      · exact (Option.some.inj ht).symm
      · cases ht
    have hnetwork : s.hasNetwork n.id = true := any_eq_true.mpr ⟨n, hn, decide_eq_true rfl⟩
    rw [htarget, heading, show (s.select (.server n.id)).selected = .server n.id by
      simp only [AppState.select, AppState.selectServer, if_pos hnetwork]]

def countedHeadings (s : AppState) (forward activeOnly : Bool) : List Parent :=
  (s.headingsLookedAt forward).filter (s.countsHeading activeOnly)

theorem Navigable.cycleServer_first (h : s.Navigable) {parent : Parent} {rest : List Parent}
    (hround : s.countedHeadings forward activeOnly = parent :: rest) :
    (s.headingsLookedAt forward).find? (s.countsHeading activeOnly) = some parent ∧
      ∃ target, s.cycleServer forward activeOnly = s.select target ∧
        (s.select target).heading = some parent := by
  have hfind : (s.headingsLookedAt forward).find? (s.countsHeading activeOnly) = some parent := by
    rw [← head?_filter, show List.filter _ _ = _ from hround, head?_cons]
  have hmem : parent ∈ s.headings :=
    mem_inDirection.mp ((h.headings_rotated _).mem_iff.mp (mem_of_find?_eq_some hfind))
  have hcounts : s.countsHeading activeOnly parent = true := find?_some hfind
  obtain ⟨target, htarget⟩ := Option.isSome_iff_exists.mp hcounts
  refine ⟨hfind, target, ?_, h.heading_target hmem htarget⟩
  rw [h.cycleServer_eq, hfind, Option.bind_some, htarget]
  rfl

theorem Navigable.cycleServer (h : s.Navigable) : (s.cycleServer forward activeOnly).Navigable := by
  rw [h.cycleServer_eq]
  cases ((s.headingsLookedAt forward).find? (s.countsHeading activeOnly)).bind
    (s.headingTarget s.displayTree activeOnly) with
  | none => exact h
  | some target => exact h.select target

theorem select_headings (target : Selection) : (s.select target).headings = s.headings := by
  rw [headings, headings, select_displayTree]

theorem select_counts (target : Selection) :
    (s.select target).countsHeading activeOnly = s.countsHeading activeOnly := by
  funext parent
  obtain ⟨hchannels, hservers⟩ := select_active (s := s) target
  rw [countsHeading, countsHeading, select_displayTree]
  cases parent with
  | server id => rw [headingTarget, headingTarget, hservers]
  | group id => rw [headingTarget, headingTarget, hchannels]

theorem Navigable.headings_select (h : s.Navigable) (forward : Bool) {parent : Parent} {target : Selection}
    (hp : parent ∈ s.headings) (ht : (s.select target).heading = some parent) :
    s.headingsLookedAt forward ~r (s.select target).headingsLookedAt forward ∧
      ((s.select target).headingsLookedAt forward).getLast? = some parent := by
  have hnext := h.select target
  have hne : (s.select target).headings ≠ [] := by
    rw [select_headings]
    exact ne_nil_of_mem hp
  refine ⟨(h.headings_rotated _).trans ?_, (hnext.headings_getLast hne).trans ht⟩
  have := hnext.headings_rotated forward
  rw [select_headings] at this
  exact this.symm

theorem Navigable.visits_headings (h : s.Navigable) (forward activeOnly : Bool) :
    visits (·.cycleServer forward activeOnly) heading (s.countedHeadings forward activeOnly).length s =
      (s.countedHeadings forward activeOnly).map some := by
  have hvisits := visits_round (fun s : AppState => s.cycleServer forward activeOnly) heading
    (fun s => (s.countedHeadings forward activeOnly).map some) Navigable (fun s h => h.cycleServer) ?_ h
  · rwa [length_map] at hvisits
  · rintro s y rest h hround
    obtain ⟨parent, parents, hcounted, rfl, rfl⟩ := map_eq_cons_iff.mp hround
    obtain ⟨hfind, target, hstep, htarget⟩ := h.cycleServer_first hcounted
    have hmem : parent ∈ s.headings :=
      mem_inDirection.mp ((h.headings_rotated _).mem_iff.mp (mem_of_find?_eq_some hfind))
    obtain ⟨hrotated, hlast⟩ := h.headings_select forward hmem htarget
    obtain ⟨rest, hrest, hnext⟩ := filter_next h.nodup_headingsLookedAt hrotated hfind hlast
    obtain rfl : parents = rest := (cons.inj (hcounted.symm.trans hrest)).2
    rw [hstep]
    refine ⟨htarget, ?_⟩
    rw [countedHeadings, select_counts, hnext]
    simp

theorem Navigable.countsHeading_all (h : s.Navigable) {parent : Parent} (hp : parent ∈ s.headings) :
    s.countsHeading false parent = true := by
  rcases mem_headings.mp hp with ⟨g, hg, hne, rfl⟩ | ⟨n, -, rfl⟩
  · obtain ⟨id, rest, hshown⟩ := exists_cons_of_ne_nil hne
    rw [countsHeading, headingTarget, h.children_group hg, hshown]
    rfl
  · rfl

def isActiveHeading (s : AppState) : Parent → Bool
  | .server id => id ∈ s.activeServers
  | .group id => (s.displayTree.children (.group id)).any (· ∈ s.activeChannels)

theorem countsHeading_active (parent : Parent) :
    s.countsHeading true parent = s.isActiveHeading parent := by
  cases parent with
  | server id =>
    by_cases hid : id ∈ s.activeServers
    · simp [countsHeading, headingTarget, isActiveHeading, hid]
    · simp [countsHeading, headingTarget, isActiveHeading, hid]
  | group id =>
    rw [Bool.eq_iff_iff]
    simp [countsHeading, headingTarget, isActiveHeading]

theorem Navigable.countedHeadings_all (h : s.Navigable) :
    s.countedHeadings forward false = s.headingsLookedAt forward := by
  rw [countedHeadings, filter_eq_self]
  intro parent hp
  exact h.countsHeading_all (mem_inDirection.mp ((h.headings_rotated _).mem_iff.mp hp))

theorem Navigable.countedHeadings_active (h : s.Navigable) :
    s.countedHeadings forward true ~r (inDirection forward s.headings).filter s.isActiveHeading := by
  have heq : s.countsHeading true = s.isActiveHeading := funext countsHeading_active
  rw [countedHeadings, heq]
  exact isRotated_filter (h.headings_rotated _) _

theorem Navigable.cycleServer_stays (h : s.Navigable)
    (hnone : s.countedHeadings forward activeOnly = []) : s.cycleServer forward activeOnly = s := by
  rw [h.cycleServer_eq, ← head?_filter, show List.filter _ _ = [] from hnone]
  rfl

theorem Navigable.cycleServer_back (h : s.Navigable) (forward : Bool) :
    ((s.cycleServer forward false).cycleServer (!forward) false).heading = s.heading := by
  by_cases hne : s.headings = []
  · have hnone : ∀ forward, s.countedHeadings forward false = [] := by
      intro forward
      have := h.headings_rotated forward
      rw [hne, show inDirection forward ([] : List Parent) = [] by cases forward <;> rfl,
        isRotated_nil_iff] at this
      rw [h.countedHeadings_all, this]
    rw [h.cycleServer_stays (hnone forward), h.cycleServer_stays (hnone (!forward))]
  · obtain ⟨parent, hparent, hheading⟩ := h.heading_mem hne
    have hmem : parent ∈ s.countedHeadings forward false := by
      rw [h.countedHeadings_all]
      exact mem_of_getLast? ((h.headings_getLast hne).trans hheading)
    obtain ⟨y, rest, hround⟩ := exists_cons_of_ne_nil (ne_nil_of_mem hmem)
    obtain ⟨hfind, target, hstep, htarget⟩ := h.cycleServer_first hround
    have hnext := h.select target
    have hne' : (s.select target).headings ≠ [] := by rwa [select_headings]
    have hrotated : (s.headingsLookedAt forward).reverse ~r
        (s.select target).headingsLookedAt (!forward) := by
      refine (h.headings_rotated _).reverse.trans (IsRotated.trans ?_ (hnext.headings_rotated _).symm)
      rw [select_headings]
      cases forward with
      | true => exact IsRotated.refl _
      | false =>
        rw [inDirection, if_neg Bool.false_ne_true, reverse_reverse]
        exact IsRotated.refl _
    have hback := find?_back h.nodup_headingsLookedAt ((h.headings_getLast hne).trans hheading)
      (h.countsHeading_all hparent) hfind hrotated ((hnext.headings_getLast hne').trans htarget)
    rw [← select_counts target, ← head?_filter] at hback
    obtain ⟨rest, hrest⟩ := head?_eq_some_iff.mp hback
    obtain ⟨-, target', hstep', htarget'⟩ := hnext.cycleServer_first hrest
    rw [hstep, hstep', htarget', hheading]

/-! ## Groups are told apart -/

def tags (s : AppState) : List GroupId × GroupId := (s.groups.map (·.id), s.nextGroupId)

/-- Groups have identifiers of their own, none above the last one given. -/
structure Tagged (s : AppState) : Prop where
  nodup : (s.groups.map (·.id)).Nodup
  given : ∀ g ∈ s.groups.map (·.id), g ≤ s.nextGroupId

variable {s' : AppState}

theorem Tagged.of_tags (h : s.Tagged) (heq : s'.tags = s.tags) : s'.Tagged := by
  obtain ⟨hids, hnext⟩ := Prod.mk.inj heq
  exact ⟨hids ▸ h.nodup, hnext ▸ hids ▸ h.given⟩

theorem tags_of_arrangement (h : s'.arrangement = s.arrangement) : s'.tags = s.tags := by
  have hnext : s'.nextGroupId = s.nextGroupId := congrArg (fun a => a.2.2.2) h
  rw [tags, tags, groups_of_arrangement h, hnext]

theorem map_id_modify (l : List ChannelGroup) (place : ℕ) {f : ChannelGroup → ChannelGroup}
    (hf : ∀ g, (f g).id = g.id) : (l.modify place f).map (·.id) = l.map (·.id) := by
  induction l generalizing place with
  | nil => cases place <;> rfl
  | cons g l ih =>
    cases place with
    | zero => simp [hf]
    | succ place => simp [ih]

theorem map_id_replaceF (l : List ChannelGroup) {f : ChannelGroup → Option ChannelGroup}
    (hf : ∀ g g', f g = some g' → g'.id = g.id) : (l.replaceF f).map (·.id) = l.map (·.id) := by
  induction l with
  | nil => rfl
  | cons g l ih =>
    cases hg : f g with
    | none => rw [replaceF_cons_of_none f hg, map_cons, ih, map_cons]
    | some g' => rw [replaceF_cons_of_some f hg, map_cons, hf g g' hg, map_cons]

theorem leaveGroup_tags (c : Conversation) : (s.leaveGroup c).1.tags = s.tags := by
  unfold leaveGroup
  split
  · rfl
  · exact Prod.ext (map_id_modify _ _ fun g => rfl) rfl

theorem moveToGroup_tags (group : GroupId) (before : Option ConversationId) :
    (s.moveToGroup id group before).1.tags = s.tags := by
  unfold moveToGroup
  split
  swap
  · rfl
  rename_i c g _ _
  split
  · rfl
  · rw [← leaveGroup_tags (s := s) c]
    refine Prod.ext (map_id_replaceF _ fun g g' hg => ?_) rfl
    split at hg
    · rw [← Option.some.inj hg]
    · cases hg

theorem returnToServer_tags : (s.returnToServer id).1.tags = s.tags := by
  unfold returnToServer
  split
  · exact leaveGroup_tags _
  · rfl

theorem moveInGroup_tags (tree : DisplayTree) (move : MoveTo) :
    (s.moveInGroup tree id move).1.tags = s.tags := by
  unfold moveInGroup
  dsimp only
  split
  · rfl
  · rfl
  · exact Prod.ext (map_id_modify _ _ fun g => rfl) rfl

theorem storeChannelOrder_tags (network : NetworkId) (order : List String) :
    (s.storeChannelOrder network order).tags = s.tags := by
  unfold storeChannelOrder
  dsimp only
  split <;> rfl

theorem setChannelOrder_tags (order : List String) :
    (s.setChannelOrder network order).tags = s.tags := by
  refine Eq.trans ?_ (storeChannelOrder_tags network order)
  unfold setChannelOrder applyChannelOrder
  split
  · rfl
  split <;> rfl

theorem relocate_tags (tree : DisplayTree) (other : ConversationId) :
    (s.relocate tree id other).1.tags = s.tags := by
  unfold relocate
  split
  swap
  · rfl
  split
  · rfl
  split
  · exact moveToGroup_tags _ _
  split
  · rfl
  dsimp only
  split
  · exact (storeChannelOrder_tags _ _).trans returnToServer_tags
  · exact returnToServer_tags

theorem moveWithin_tags (tree : DisplayTree) (move : MoveTo) :
    (s.moveWithin tree id network move).1.tags = s.tags := by
  unfold moveWithin
  split
  · exact moveInGroup_tags tree move
  unfold moveShown
  dsimp only
  split
  · rfl
  split
  · exact storeChannelOrder_tags _ _
  · rfl

theorem moveConversation_tags (move : MoveTo) : (s.moveConversation id move).1.tags = s.tags := by
  unfold moveConversation
  split
  · rfl
  dsimp only
  split
  · split
    · split
      · exact relocate_tags _ _
      · exact moveWithin_tags _ _
    · rfl
  · exact moveWithin_tags _ _

theorem moveAfter_tags (other : ConversationId) : (s.moveAfter id other).1.tags = s.tags := by
  unfold moveAfter
  dsimp only
  split
  swap
  · rfl
  split
  · rfl
  split
  · rfl
  split
  · exact moveConversation_tags _
  · rfl
  split
  · rfl
  split
  · exact moveToGroup_tags _ _
  split
  · rfl
  split
  · exact returnToServer_tags
  · exact (moveConversation_tags _).trans returnToServer_tags

theorem syncNetworks_tags (configs : List NetworkConfig) :
    (s.syncNetworks configs).tags = s.tags := by
  unfold syncNetworks
  dsimp only
  rw [tags_of_arrangement (repair_arrangement _)]
  refine foldlRecOn (motive := fun t : AppState => t.tags = s.tags) _ _ ?_ fun t ht config _ => ?_
  · change (foldl (fun t id => (forgetNetwork t id).1) s _).tags = s.tags
    refine foldlRecOn (motive := fun t : AppState => t.tags = s.tags) _ _ rfl fun t ht id _ => ?_
    have hforgot : (t.forgetNetwork id).1.tags = (t.removeConversations id).1.tags := by
      refine Prod.ext ?_ rfl
      simp [forgetNetwork, tags]
    rw [hforgot, tags_of_arrangement (removeConversations_arrangement t id), ht]
  · exact (tags_of_arrangement (ensureAll_arrangement t config.id config.channels)).trans ht

theorem Tagged.addGroup (h : s.Tagged) (name : String) (collapsed : Bool)
    (members : List GroupMember) : (s.addGroup name collapsed members).Tagged := by
  constructor
  · simp only [AppState.addGroup, map_append, map_cons, map_nil]
    apply nodup_append.mpr ⟨h.nodup, nodup_singleton _, ?_⟩
    rintro id hid _ hnew rfl
    have hle := h.given id hid
    rw [mem_singleton.mp hnew] at hle
    exact absurd hle (Nat.not_succ_le_self _)
  · intro id hid
    simp only [AppState.addGroup, map_append, map_cons, map_nil, mem_append, mem_singleton] at hid ⊢
    rcases hid with hid | rfl
    · exact (h.given id hid).trans (Nat.le_succ _)
    · exact le_rfl

variable (lowercase : String → String)

theorem Tagged.setGroups (specs : List GroupSpec) : (s.setGroups lowercase specs).Tagged := by
  unfold AppState.setGroups
  refine foldlRecOn (motive := Tagged) specs _ ?_ fun t ht spec _ => ?_
  · exact ⟨nodup_nil, fun id hid => by cases hid⟩
  · split
    · exact ht
    · exact ht.addGroup _ _ _

theorem Tagged.call (h : s.Tagged) (hs : s.Sound) (i : AppCall) (hi : s.Fits i) :
    (s.call lowercase i).Tagged := by
  cases i with
  | setGroups specs => exact Tagged.setGroups lowercase specs
  | syncNetworks configs => exact h.of_tags (syncNetworks_tags configs)
  | setChannelOrder network order => exact h.of_tags (setChannelOrder_tags order)
  | moveConversation id move => exact h.of_tags (moveConversation_tags move)
  | moveAfter id other => exact h.of_tags (moveAfter_tags other)
  | moveToGroup id group before => exact h.of_tags (moveToGroup_tags group before)
  | returnToServer id => exact h.of_tags returnToServer_tags
  | deleteGroup id =>
    have hsub := (filter_sublist (l := s.groups) (p := fun g => decide (g.id ≠ id))).map (·.id)
    exact ⟨h.nodup.sublist hsub, fun g hg => h.given g (hsub.subset hg)⟩
  | createGroup name =>
    change (s.createGroup lowercase name).1.Tagged
    unfold AppState.createGroup
    split
    · exact h
    split
    · exact h
    split
    · exact h
    · exact h.addGroup _ _ _
  | renameGroup id name =>
    change (s.renameGroup lowercase id name).1.Tagged
    unfold AppState.renameGroup
    split
    · exact h
    split
    · exact h
    · refine h.of_tags (Prod.ext (map_id_replaceF _ fun g g' hg => ?_) rfl)
      split at hg
      · rw [← Option.some.inj hg]
      · cases hg
  | setGroupCollapsed id collapsed =>
    change (s.setGroupCollapsed id collapsed).1.Tagged
    unfold AppState.setGroupCollapsed
    split
    · refine h.of_tags (Prod.ext (map_id_replaceF _ fun g g' hg => ?_) rfl)
      split at hg
      · rw [← Option.some.inj hg]
      · cases hg
    · exact h
  | _ =>
    apply h.of_tags
    exact tags_of_arrangement (hs.call_arrangement lowercase rfl (fun configs heq => by cases heq) hi)

theorem run_navigable (configs : List NetworkConfig) (is : List AppCall)
    (hd : (configs.map (·.id)).Nodup)
    (h : Machine.Along Adopts (AppState.call lowercase) (withNetworks configs) is) :
    (run lowercase configs is).Navigable := by
  obtain ⟨hs, ha⟩ := run_apart lowercase configs is hd h
  have htagged : (run lowercase configs is).Sound ∧ (run lowercase configs is).Tagged := by
    refine Machine.exec_invariant (fun s => s.Sound ∧ s.Tagged) (fun s i hs hi => ?_) ⟨?_, ?_⟩ h
    · exact ⟨hs.1.call lowercase i hi.fits, hs.2.call lowercase hs.1 i hi.fits⟩
    · exact withNetworks_sound hd
    · have hgroups := withNetworks_groups configs
      exact ⟨by rw [hgroups]; exact nodup_nil, fun id hid => by rw [hgroups] at hid; cases hid⟩
  exact ⟨hs, ha, htagged.2.nodup⟩

/-! ## The commands -/

/-- The command that goes through conversations. -/
def channelCommand : Bool → ChannelFilter → Command
  | true, .all => .nextChannel
  | false, .all => .previousChannel
  | true, .active => .nextActiveChannel
  | false, .active => .previousActiveChannel
  | true, .unread => .nextUnreadChannel
  | false, .unread => .previousUnreadChannel

def headingCommand : Bool → Bool → Command
  | true, false => .nextServer
  | false, false => .previousServer
  | true, true => .nextActiveServer
  | false, true => .previousActiveServer

@[simp] theorem dispatch_channelCommand (s : AppState) (forward : Bool) (filter : ChannelFilter) :
    s.dispatch (channelCommand forward filter) = s.cycleChannel forward filter := by
  cases forward <;> cases filter <;> rfl

@[simp] theorem dispatch_headingCommand (s : AppState) (forward activeOnly : Bool) :
    s.dispatch (headingCommand forward activeOnly) = s.cycleServer forward activeOnly := by
  cases forward <;> cases activeOnly <;> rfl

/-- What the commands go to when they are repeated. -/
structure GoesRound (s : AppState) : Prop where
  shows : s.shown.Nodup ∧ s.shown.Perm (s.conversations.map (·.id))
  channels : ∀ forward, visits (·.dispatch (channelCommand forward .all)) (·.selected)
    s.conversations.length s ~r (inDirection forward s.shown).map .channel
  channelBack : ∀ id, s.selected = .channel id →
    ((s.dispatch .nextChannel).dispatch .previousChannel).selected = s.selected
  first : ∀ network id, s.selected = .server network →
    (s.displayTree.children (.server network)).head? = some id →
    (s.dispatch .nextChannel).selected = .channel id
  last : ∀ network id, s.selected = .server network →
    (s.displayTree.children (.server network)).getLast? = some id →
    (s.dispatch .previousChannel).selected = .channel id
  /-- The unread conversations are visited, each once, and then the step does nothing. -/
  unread : ∀ forward, visits (·.dispatch (channelCommand forward .unread)) (·.selected)
    s.unread.card s ~r ((inDirection forward s.shown).filter (· ∈ s.unread)).map .channel
  unreadStays : ∀ forward,
    ((·.dispatch (channelCommand forward .unread))^[s.unread.card] s).dispatch
      (channelCommand forward .unread) =
    (·.dispatch (channelCommand forward .unread))^[s.unread.card] s
  active : ∀ forward, visits (·.dispatch (channelCommand forward .active)) (·.selected)
    s.activeChannels.card s ~r
      ((inDirection forward s.shown).filter (· ∈ s.activeChannels)).map .channel
  activeStays : s.activeChannels = ∅ → ∀ forward, s.dispatch (channelCommand forward .active) = s
  distinct : s.headings.Nodup
  headings : ∀ forward, visits (·.dispatch (headingCommand forward false)) heading
    s.headings.length s ~r (inDirection forward s.headings).map some
  headingBack : ((s.dispatch .nextServer).dispatch .previousServer).heading = s.heading
  activeHeadings : ∀ forward, visits (·.dispatch (headingCommand forward true)) heading
    (s.headings.filter s.isActiveHeading).length s ~r
      ((inDirection forward s.headings).filter s.isActiveHeading).map some
  activeHeadingsStay : s.headings.filter s.isActiveHeading = [] →
    ∀ forward, s.dispatch (headingCommand forward true) = s

theorem Navigable.length_shown (h : s.Navigable) : s.shown.length = s.conversations.length :=
  h.shown_perm.length_eq.trans (length_map _)

theorem Navigable.channels (h : s.Navigable) :
    visits (·.cycleChannel forward .all) (·.selected) s.conversations.length s ~r
      (inDirection forward s.shown).map .channel := by
  have hcounted : s.counted forward .all = s.lookedAt forward := by simp [counted, cycles]
  have hvisits := h.visits_channels forward .all (by decide)
  rw [hcounted, (h.lookedAt_rotated _).perm.length_eq, length_inDirection, h.length_shown] at hvisits
  rw [hvisits]
  exact (h.lookedAt_rotated _).map _

theorem Navigable.length_active (h : s.Navigable) :
    (s.counted forward .active).length = s.activeChannels.card := by
  apply h.length_counted
  · exact fun id hid => h.tables .activeChannels id hid
  · simp [cycles]

theorem Navigable.length_unread (h : s.Navigable) :
    (s.counted forward .unread).length = s.unread.card := by
  apply h.length_counted
  · exact fun id hid => h.tables .unread id hid
  · simp [cycles]

theorem Navigable.length_activeHeadings (h : s.Navigable) :
    (s.countedHeadings forward true).length = (s.headings.filter s.isActiveHeading).length := by
  rw [h.countedHeadings_active.perm.length_eq]
  cases forward with
  | true => rfl
  | false => rw [inDirection, if_neg Bool.false_ne_true, filter_reverse, length_reverse]

/-- The commands reach every conversation, every unread and every joined one, and every heading and
every active one, each once and in the order the tree shows them; a step back from a conversation
leads back to it, and a step back from a heading to the heading that was left. -/
theorem commands_go_round (h : s.Navigable) : s.GoesRound := by
  constructor
  · exact ⟨h.nodup_shown, h.shown_perm⟩
  · intro forward
    simpa only [dispatch_channelCommand] using h.channels
  · intro id hid
    rw [hid]
    exact h.cycleChannel_back true hid rfl (by decide)
  · exact fun network id hs hid => h.next_from_server hs hid
  · exact fun network id hs hid => h.previous_from_server hs hid
  · intro forward
    have hvisits := (h.visits_unread forward).1
    rw [h.length_unread] at hvisits
    simp only [dispatch_channelCommand, hvisits]
    exact h.counted_rotated.map _
  · intro forward
    have hstays := (h.visits_unread forward).2
    rw [h.length_unread] at hstays
    simp only [dispatch_channelCommand]
    exact (h.iterate _).cycleChannel_stays hstays
  · intro forward
    have hvisits := h.visits_channels forward .active (by decide)
    rw [h.length_active] at hvisits
    simp only [dispatch_channelCommand, hvisits]
    exact h.counted_rotated.map _
  · intro hnone forward
    rw [dispatch_channelCommand]
    apply h.cycleChannel_stays
    rw [← length_eq_zero_iff, h.length_active, hnone]
    rfl
  · exact h.nodup_headings
  · intro forward
    have hvisits := h.visits_headings forward false
    rw [h.countedHeadings_all, (h.headings_rotated _).perm.length_eq, length_inDirection] at hvisits
    simp only [dispatch_headingCommand, hvisits]
    exact (h.headings_rotated _).map _
  · exact h.cycleServer_back true
  · intro forward
    have hvisits := h.visits_headings forward true
    rw [h.length_activeHeadings] at hvisits
    simp only [dispatch_headingCommand, hvisits]
    exact h.countedHeadings_active.map _
  · intro hnone forward
    rw [dispatch_headingCommand]
    apply h.cycleServer_stays
    rw [← length_eq_zero_iff, h.length_activeHeadings, hnone]
    rfl

def twoServers : AppState :=
  run toAsciiLowercase [⟨1, "a", ["#x", "#y"]⟩, ⟨2, "b", []⟩]
    [.createGroup "g", .moveToGroup 1 1 none]

theorem twoServers_navigable : twoServers.Navigable :=
  run_navigable toAsciiLowercase _ _ (by decide) ⟨trivial, trivial, trivial⟩

theorem commands_go_round_grouped : twoServers.GoesRound := commands_go_round twoServers_navigable

/-- A step from a server is not undone: the step back leads to a conversation. -/
theorem step_from_server_kept :
    ¬ ∀ s : AppState, s.Navigable →
      ((s.dispatch .nextChannel).dispatch .previousChannel).selected = s.selected := by
  intro h
  have hback := h _ (twoServers_navigable.select (.server 1))
  revert hback
  decide +kernel

end AppState

end CayenChat.App
