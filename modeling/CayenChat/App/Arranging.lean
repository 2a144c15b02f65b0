import CayenChat.App.Commands
import CayenChat.Lib.Arrange

/-! # What arranging changes

The groups of the user, the remembered orders and the order of the
conversations are arranged without touching anything else: groups name
channels and change no conversation, and a move goes only through
conversations of the same network and kind.
-/

namespace CayenChat.App

def Conversation.place (c : Conversation) : NetworkId × Bool := (c.network, c.isPrivate)

section Lists

variable {α β : Type} {l : List α} {source target : ℕ}

theorem moveItem_perm (ht : target < l.length) : (moveItem l source target).Perm l := by
  unfold moveItem
  cases hs : l[source]? with
  | none => exact .refl _
  | some a =>
    obtain ⟨hlt, rfl⟩ := List.getElem?_eq_some_iff.mp hs
    have hl : target ≤ (l.eraseIdx source).length := by
      rw [List.length_eraseIdx_of_lt hlt]
      omega
    exact (List.perm_insertIdx _ _ hl).trans (List.getElem_cons_eraseIdx_perm hlt)

theorem moveItem_map (f : α → β) {b : β} (ht : target < l.length) (hs : source < l.length)
    (h : ∀ i (hi : i < l.length), min source target ≤ i → i ≤ max source target → f l[i] = b) :
    (moveItem l source target).map f = l.map f := by
  have hlen : (moveItem l source target).length = l.length := (moveItem_perm ht).length_eq
  apply List.ext_getElem
  · rw [List.length_map, List.length_map, hlen]
  intro i hi hi'
  rw [List.length_map] at hi hi'
  rw [List.getElem_map, List.getElem_map]
  have hm : moveItem l source target = (l.eraseIdx source).insertIdx target l[source] := by
    unfold moveItem
    rw [List.getElem?_eq_getElem hs]
  have he : (l.eraseIdx source).length = l.length - 1 := List.length_eraseIdx_of_lt hs
  have hsf : f l[source] = b := h source hs (min_le_left _ _) (le_max_left _ _)
  simp only [hm, List.getElem_insertIdx]
  split_ifs with h1 h2
  · rw [List.getElem_eraseIdx]
    split_ifs with h3
    · rfl
    · rw [h i hi' (by omega) (by omega), h (i + 1) (by omega) (by omega) (by omega)]
  · subst h2
    rw [hsf, h i hi' (by omega) (by omega)]
  · rw [List.getElem_eraseIdx]
    split_ifs with h3
    · rw [h i hi' (by omega) (by omega), h (i - 1) (by omega) (by omega) (by omega)]
    · congr 1
      congr 1
      omega

theorem takeWhile_split (p : α → Bool) (l : List α) (start : ℕ) :
    l.take start ++ (l.drop start).takeWhile p ++
      l.drop (start + ((l.drop start).takeWhile p).length) = l := by
  rw [List.append_assoc, ← List.drop_drop,
    List.prefix_iff_eq_append.mp (List.takeWhile_prefix p), List.take_append_drop]

theorem map_eq_of_forall {f : α → β} {b : β} {l l' : List α} (h : ∀ a ∈ l, f a = b)
    (h' : ∀ a ∈ l', f a = b) (hlen : l.length = l'.length) : l.map f = l'.map f := by
  rw [List.map_congr_left h, List.map_congr_left h', List.map_const', List.map_const', hlen]

end Lists

namespace AppState

/-- Conversations are grouped by network, in network order, channels before private ones. -/
def Grouped (s : AppState) : Prop :=
  (s.conversations.map Conversation.place).Pairwise fun a b =>
    s.networkPosition a.1 < s.networkPosition b.1 ∨ a.1 = b.1 ∧ (a.2 = true → b.2 = true)

/-- Identifiers are names, and conversations are grouped. -/
structure Tidy (s : AppState) : Prop where
  nodup : (s.conversations.map (·.id)).Nodup
  grouped : s.Grouped

def Regrouped (s s' : AppState) : Prop :=
  ∃ groups next, s' = { s with groups, nextGroupId := next }

def Arranged (s s' : AppState) : Prop :=
  ∃ conversations orders ranks groups next, conversations.Perm s.conversations ∧
    (s.Tidy → conversations.map Conversation.place = s.conversations.map Conversation.place) ∧
    s' = { s with
      conversations, channelOrders := orders, channelRanks := ranks, groups, nextGroupId := next }

variable {s s' s'' : AppState} {id other : ConversationId}

theorem Regrouped.refl (s : AppState) : s.Regrouped s := ⟨s.groups, s.nextGroupId, rfl⟩

theorem Regrouped.trans (h : s.Regrouped s') (h' : s'.Regrouped s'') : s.Regrouped s'' := by
  obtain ⟨groups, next, rfl⟩ := h
  obtain ⟨groups', next', rfl⟩ := h'
  exact ⟨groups', next', rfl⟩

theorem Regrouped.arranged (h : s.Regrouped s') : s.Arranged s' := by
  obtain ⟨groups, next, rfl⟩ := h
  exact ⟨s.conversations, s.channelOrders, s.channelRanks, groups, next, .refl _, fun _ => rfl, rfl⟩

theorem Arranged.refl (s : AppState) : s.Arranged s := (Regrouped.refl s).arranged

theorem Arranged.tidy (h : s.Arranged s') (ht : s.Tidy) : s'.Tidy := by
  obtain ⟨cs, orders, ranks, groups, next, hp, hk, rfl⟩ := h
  constructor
  · exact (hp.map _).nodup_iff.mpr ht.nodup
  · unfold Grouped
    rw [show (AppState.conversations _).map Conversation.place = _ from hk ht]
    exact ht.grouped

theorem Arranged.trans (h : s.Arranged s') (h' : s'.Arranged s'') : s.Arranged s'' := by
  have ht := h.tidy
  obtain ⟨cs, orders, ranks, groups, next, hp, hk, rfl⟩ := h
  obtain ⟨cs', orders', ranks', groups', next', hp', hk', rfl⟩ := h'
  exact ⟨cs', orders', ranks', groups', next', hp'.trans hp,
    fun h => (hk' (ht h)).trans (hk h), rfl⟩

theorem regrouped_groups (s : AppState) (groups : List ChannelGroup) :
    s.Regrouped { s with groups } := ⟨groups, s.nextGroupId, rfl⟩

section Groups

theorem leaveGroup_regrouped (s : AppState) (c : Conversation) :
    s.Regrouped (s.leaveGroup c).1 := by
  unfold leaveGroup
  split
  · exact .refl s
  · exact regrouped_groups s _

theorem moveToGroup_regrouped (s : AppState) (id : ConversationId) (group : GroupId)
    (before : Option ConversationId) : s.Regrouped (s.moveToGroup id group before).1 := by
  unfold moveToGroup
  split
  · split_ifs
    · exact .refl s
    · exact (leaveGroup_regrouped s _).trans (regrouped_groups _ _)
  · exact .refl s

theorem returnToServer_regrouped (s : AppState) (id : ConversationId) :
    s.Regrouped (s.returnToServer id).1 := by
  unfold returnToServer
  split
  · exact leaveGroup_regrouped s _
  · exact .refl s

theorem moveInGroup_regrouped (s : AppState) (tree : DisplayTree) (id : ConversationId)
    (move : MoveTo) : s.Regrouped (s.moveInGroup tree id move).1 := by
  unfold moveInGroup
  dsimp only
  split
  · exact .refl s
  · exact .refl s
  · exact regrouped_groups s _

theorem addGroup_regrouped (s : AppState) (name : String) (collapsed : Bool)
    (members : List GroupMember) : s.Regrouped (s.addGroup name collapsed members) :=
  ⟨_, _, rfl⟩

variable (lowercase : String → String)

theorem setGroups_regrouped (s : AppState) (specs : List GroupSpec) :
    s.Regrouped (s.setGroups lowercase specs) := by
  unfold setGroups
  suffices h : ∀ s', s.Regrouped s' → s.Regrouped (specs.foldl (fun s spec =>
      if (s.groupNamed lowercase spec.name).isSome then s
      else s.addGroup spec.name spec.collapsed
        (spec.members.filter fun m => s.hasNetwork m.network)) s') from
    h _ (regrouped_groups s [])
  induction specs with
  | nil => exact fun _ h => h
  | cons spec specs ih =>
    intro s' h
    apply ih
    dsimp only
    split_ifs
    · exact h
    · exact h.trans (addGroup_regrouped _ _ _ _)

theorem createGroup_regrouped (s : AppState) (name : String) :
    s.Regrouped (s.createGroup lowercase name).1 := by
  unfold createGroup
  split
  · exact .refl s
  · split
    · exact .refl s
    · split_ifs
      · exact .refl s
      · exact addGroup_regrouped s _ _ _

theorem renameGroup_regrouped (s : AppState) (id : GroupId) (name : String) :
    s.Regrouped (s.renameGroup lowercase id name).1 := by
  unfold renameGroup
  split
  · exact .refl s
  · split_ifs
    · exact .refl s
    · exact regrouped_groups s _

theorem setGroupCollapsed_regrouped (s : AppState) (id : GroupId) (collapsed : Bool) :
    s.Regrouped (s.setGroupCollapsed id collapsed).1 := by
  unfold setGroupCollapsed
  split_ifs
  · exact regrouped_groups s _
  · exact .refl s

end Groups

section Order

theorem storeChannelOrder_arranged (s : AppState) (network : NetworkId) (order : List String) :
    s.Arranged (s.storeChannelOrder network order) := by
  unfold storeChannelOrder
  dsimp only
  split_ifs
  · exact ⟨s.conversations, _, _, s.groups, s.nextGroupId, .refl _, fun _ => rfl, rfl⟩
  · exact ⟨s.conversations, _, _, s.groups, s.nextGroupId, .refl _, fun _ => rfl, rfl⟩

theorem applyChannelOrder_arranged (s : AppState) (network : NetworkId) :
    s.Arranged (s.applyChannelOrder network) := by
  unfold applyChannelOrder
  split
  · exact .refl s
  rename_i ranks _
  split
  · exact .refl s
  rename_i start _
  dsimp only
  set p : Conversation → Bool := fun c => c.network = network && !c.isPrivate with hp
  have ht : (s.conversations.drop start).take ((s.conversations.drop start).takeWhile p).length =
      (s.conversations.drop start).takeWhile p :=
    (List.prefix_iff_eq_take.mp (List.takeWhile_prefix p)).symm
  have hperm := List.perm_insertionSort (fun a b : Conversation =>
    channelRank ranks a.name ≤ channelRank ranks b.name) ((s.conversations.drop start).takeWhile p)
  have hsplit := takeWhile_split p s.conversations start
  have hall : ∀ c ∈ (s.conversations.drop start).takeWhile p, c.place = (network, false) := by
    intro c hc
    have := List.mem_takeWhile_imp hc
    simp only [hp, Bool.and_eq_true, decide_eq_true_eq, Bool.not_eq_true'] at this
    exact Prod.ext this.1 this.2
  rw [ht]
  refine ⟨_, s.channelOrders, s.channelRanks, s.groups, s.nextGroupId, ?_, fun _ => ?_, rfl⟩
  · exact ((hperm.append_left _).append_right _).trans (.of_eq hsplit)
  · rw [List.map_append, List.map_append,
      map_eq_of_forall (fun c hc => hall c (hperm.mem_iff.mp hc)) hall hperm.length_eq,
      ← List.map_append, ← List.map_append, hsplit]

end Order

section Moves

theorem Grouped.between (h : s.Grouped) {i j k : ℕ} (hij : i ≤ j) (hjk : j ≤ k)
    (hk : k < s.conversations.length) (hp : s.conversations[i].place = s.conversations[k].place) :
    s.conversations[j].place = s.conversations[i].place := by
  rcases hij.eq_or_lt with rfl | hij
  · rfl
  rcases hjk.eq_or_lt with rfl | hjk
  · exact hp.symm
  have hg := List.pairwise_iff_getElem.mp h
  simp only [List.length_map, List.getElem_map] at hg
  have h1 := hg i j (by omega) (by omega) hij
  have h2 := hg j k (by omega) hk hjk
  rw [← hp] at h2
  rcases h1 with h1 | ⟨hn, hb⟩
  · rcases h2 with h2 | ⟨hn', -⟩
    · omega
    · rw [hn'] at h1
      omega
  · rcases h2 with h2 | ⟨-, hb'⟩
    · rw [hn] at h2
      omega
    · exact Prod.ext hn.symm (Bool.eq_iff_iff.mpr ⟨hb', hb⟩)

theorem moveItem_arranged {source target place : ℕ} (hs : source < s.conversations.length)
    (ht : target < s.conversations.length) (hp : min source target ≤ place)
    (hp' : place ≤ max source target)
    (h : s.Tidy → s.conversations[source].place = s.conversations[target].place) :
    s.Arranged { s with conversations := moveItem s.conversations source place } := by
  have hlt : place < s.conversations.length := by omega
  refine ⟨_, s.channelOrders, s.channelRanks, s.groups, s.nextGroupId, moveItem_perm hlt,
    fun htidy => ?_, rfl⟩
  apply moveItem_map Conversation.place hlt hs (b := s.conversations[source].place)
  intro i hi h1 h2
  rcases le_total source target with hst | hst
  · exact htidy.grouped.between (by omega) (by omega) ht (h htidy)
  · rw [h htidy]
    exact htidy.grouped.between (by omega) (by omega) hs (h htidy).symm

theorem groupRange_place {lo hi : ℕ} (h : s.groupRange id = some (lo, hi)) :
    ∃ p, ∀ i, lo ≤ i → i < hi → ∃ hlt : i < s.conversations.length,
      s.conversations[i].place = p := by
  unfold groupRange at h
  obtain ⟨place, hplace, h⟩ := Option.bind_eq_some_iff.mp h
  obtain ⟨here, hhere, h⟩ := Option.map_eq_some_iff.mp h
  obtain ⟨hlt, rfl⟩ := List.getElem?_eq_some_iff.mp hhere
  set same : Conversation → Bool := fun c => c.network = s.conversations[place].network &&
    c.isPrivate == s.conversations[place].isPrivate with hsame
  have hof : ∀ c, same c = true → c.place = s.conversations[place].place := by
    intro c hc
    simp only [hsame, Bool.and_eq_true, decide_eq_true_eq, beq_iff_eq] at hc
    exact Prod.ext hc.1 hc.2
  obtain ⟨rfl, rfl⟩ := Prod.mk.inj h
  refine ⟨s.conversations[place].place, fun i hlo hhi => ?_⟩
  rcases Nat.lt_or_ge i place with hi | hi
  · have hil : i < s.conversations.length := hi.trans hlt
    refine ⟨hil, hof _ ?_⟩
    have hr : place - 1 - i < ((s.conversations.take place).reverse.takeWhile same).length := by
      omega
    have hm := List.getElem_mem hr
    rw [(List.takeWhile_prefix same).getElem hr] at hm
    have := List.mem_takeWhile_imp (List.getElem_mem hr)
    rw [(List.takeWhile_prefix same).getElem hr, List.getElem_reverse, List.getElem_take] at this
    convert this using 3
    rw [List.length_take]
    omega
  · have hr : i - place < ((s.conversations.drop place).takeWhile same).length := by omega
    have hle := (List.takeWhile_prefix same (l := s.conversations.drop place)).length_le
    rw [List.length_drop] at hle
    have hil : i < s.conversations.length := by omega
    refine ⟨hil, hof _ ?_⟩
    have := List.mem_takeWhile_imp (List.getElem_mem hr)
    rw [(List.takeWhile_prefix same).getElem hr, List.getElem_drop] at this
    convert this using 3
    omega

theorem moveTarget_mem {α : Type} {siblings : List α} {source : ℕ} {place : ConversationId → Option α}
    {move : MoveTo} {a : α} (hplace : ∀ other a, place other = some a → a ∈ siblings)
    (h : moveTarget siblings source place move = some a) : a ∈ siblings := by
  cases move with
  | place other => exact hplace other a h
  | _ => exact List.mem_of_getElem? h

theorem moveShown_arranged (s : AppState) (tree : DisplayTree) (id : ConversationId)
    (network : NetworkId) (move : MoveTo) :
    s.Arranged (s.moveShown tree id network move).1 := by
  unfold moveShown
  dsimp only
  split
  · exact .refl s
  rename_i source target hplaces
  obtain ⟨⟨lo, hi⟩, hrange, hplaces⟩ := Option.bind_eq_some_iff.mp hplaces
  obtain ⟨fromShown, -, hplaces⟩ := Option.bind_eq_some_iff.mp hplaces
  obtain ⟨source', hsource, hplaces⟩ := Option.bind_eq_some_iff.mp hplaces
  obtain ⟨target', htarget, hplaces⟩ := Option.bind_eq_some_iff.mp hplaces
  split_ifs at hplaces with hne
  obtain ⟨rfl, rfl⟩ := Prod.mk.inj (Option.some.inj hplaces)
  obtain ⟨p, hp⟩ := groupRange_place hrange
  -- both positions are in the range
  have hmem : ∀ i ∈ (List.range' lo (hi - lo)).filter (fun i => s.conversations[i]?.any fun c =>
      tree.parentOf c.id = some (.server network)), ∃ hlt : i < s.conversations.length,
      s.conversations[i].place = p := by
    intro i hi
    have := List.mem_range'_1.mp (List.mem_filter.mp hi).1
    exact hp i (by omega) (by omega)
  obtain ⟨hs, hsp⟩ := hmem source' (List.mem_of_getElem? hsource)
  obtain ⟨ht, htp⟩ := hmem target' (moveTarget_mem (fun _ _ h => List.mem_of_find?_eq_some h) htarget)
  have harr : s.Arranged { s with conversations := moveItem s.conversations source' target' } :=
    moveItem_arranged hs ht (min_le_right _ _) (le_max_right _ _) fun _ => hsp.trans htp.symm
  split_ifs
  · exact harr.trans (storeChannelOrder_arranged _ _ _)
  · exact harr

theorem moveWithin_arranged (s : AppState) (tree : DisplayTree) (id : ConversationId)
    (network : NetworkId) (move : MoveTo) :
    s.Arranged (s.moveWithin tree id network move).1 := by
  unfold moveWithin
  split_ifs
  · exact (moveInGroup_regrouped s tree id move).arranged
  · exact moveShown_arranged s tree id network move

theorem conversation_mem {c : Conversation} (h : s.conversation id = some c) :
    c ∈ s.conversations ∧ c.id = id :=
  ⟨List.mem_of_find?_eq_some h, by simpa using List.find?_some h⟩

theorem conversation_eq (h : (s.conversations.map (·.id)).Nodup) {c : Conversation}
    (hc : c ∈ s.conversations) : s.conversation c.id = some c := by
  cases hf : s.conversation c.id with
  | none =>
    have := List.find?_eq_none.mp hf c hc
    simp at this
  | some c' =>
    obtain ⟨hm, hid⟩ := conversation_mem hf
    rw [List.inj_on_of_nodup_map h hm hc hid]

theorem parentOf_server {network : NetworkId} (h : s.displayTree.parentOf id = some (.server network)) :
    ∃ c ∈ s.conversations, c.id = id ∧ c.network = network := by
  unfold DisplayTree.parentOf at h
  rcases Option.or_eq_some_iff.mp h with h | ⟨-, h⟩
  · obtain ⟨g, -, hg⟩ := Option.map_eq_some_iff.mp h
    cases hg
  · obtain ⟨n, hn, hnet⟩ := Option.map_eq_some_iff.mp h
    cases hnet
    have hm := List.mem_of_find?_eq_some hn
    have hc := List.find?_some hn
    obtain ⟨net, -, rfl⟩ := List.mem_map.mp hm
    have hc := List.contains_iff_mem.mp hc
    obtain ⟨c, hcm, rfl⟩ := List.mem_map.mp hc
    obtain ⟨hcm, hcn⟩ := List.mem_filter.mp hcm
    simp only [Bool.and_eq_true, decide_eq_true_eq] at hcn
    exact ⟨c, hcm, rfl, hcn.1⟩

theorem relocate_arranged (s : AppState) (id other : ConversationId) :
    s.Arranged (s.relocate s.displayTree id other).1 := by
  unfold relocate
  split
  swap
  · exact .refl s
  rename_i source parent moved target hsource hparent hmoved htarget
  split_ifs with hsame
  · exact .refl s
  cases parent with
  | group group => exact (moveToGroup_regrouped s id group (some other)).arranged
  | server network =>
    dsimp only
    split_ifs with hnet
    · exact .refl s
    obtain ⟨groups, next, hret⟩ := returnToServer_regrouped s id
    have hr := (returnToServer_regrouped s id).arranged
    have hcs : (s.returnToServer id).1.conversations = s.conversations := by rw [hret]
    generalize (s.returnToServer id).1 = s₁ at hr hcs hret
    split
    · rename_i i j hi hj
      refine hr.trans (Arranged.trans ?_ (storeChannelOrder_arranged _ _ _))
      obtain ⟨hil, hic, -⟩ := List.findIdx?_eq_some_iff_getElem.mp hi
      obtain ⟨hjl, hjc, -⟩ := List.findIdx?_eq_some_iff_getElem.mp hj
      apply moveItem_arranged hil hjl
      · split_ifs <;> omega
      · split_ifs <;> omega
      · intro htidy
        obtain ⟨c, hc, hcid, hcnet⟩ := parentOf_server hparent
        have hnodup := hcs ▸ htidy.nodup
        rw [← hcid, conversation_eq hnodup hc, Option.some.injEq] at htarget
        have hfound : ∀ k (hk : k < s₁.conversations.length),
            s.conversation s₁.conversations[k].id = some s₁.conversations[k] := fun k hk =>
          conversation_eq hnodup (hcs ▸ List.getElem_mem hk)
        have hti := hfound i hil
        have htj := hfound j hjl
        rw [of_decide_eq_true hic, hmoved, Option.some.injEq] at hti
        rw [of_decide_eq_true hjc, ← hcid, conversation_eq hnodup hc, Option.some.injEq] at htj
        simp only [Bool.or_eq_true, decide_eq_true_eq, not_or, not_not] at hsame hnet
        rw [← hti, ← htj, htarget]
        exact Prod.ext (hnet.trans (htarget ▸ hcnet.symm)) hsame.2
    · exact hr

theorem moveConversation_arranged (s : AppState) (id : ConversationId) (move : MoveTo) :
    s.Arranged (s.moveConversation id move).1 := by
  unfold moveConversation
  split
  · exact .refl s
  dsimp only
  split
  · split
    · split
      · exact relocate_arranged s id _
      · exact moveWithin_arranged s _ id _ _
    · exact .refl s
  · exact moveWithin_arranged s _ id _ _

theorem moveAfter_arranged (s : AppState) (id other : ConversationId) :
    s.Arranged (s.moveAfter id other).1 := by
  unfold moveAfter
  dsimp only
  split
  swap
  · exact .refl s
  split
  · exact .refl s
  split
  · exact .refl s
  split
  · exact moveConversation_arranged s id _
  · exact .refl s
  split
  · exact .refl s
  split
  · exact (moveToGroup_regrouped s id _ _).arranged
  split
  · exact .refl s
  split
  · exact (returnToServer_regrouped s id).arranged
  · exact (returnToServer_regrouped s id).arranged.trans (moveConversation_arranged _ id _)

theorem setChannelOrder_arranged (s : AppState) (network : NetworkId) (order : List String) :
    s.Arranged (s.setChannelOrder network order) :=
  (storeChannelOrder_arranged s network order).trans (applyChannelOrder_arranged _ network)

end Moves

def arranges : AppCall → Bool
  | .setChannelOrder .. | .moveConversation .. | .moveAfter .. | .setGroups .. | .createGroup ..
  | .renameGroup .. | .deleteGroup .. | .setGroupCollapsed .. | .moveToGroup ..
  | .returnToServer .. => true
  | _ => false

theorem call_arranged (lowercase : String → String) {i : AppCall} (hi : arranges i = true) :
    s.Arranged (s.call lowercase i) := by
  cases i with
  | setChannelOrder network order => exact setChannelOrder_arranged s network order
  | moveConversation id move => exact moveConversation_arranged s id move
  | moveAfter id other => exact moveAfter_arranged s id other
  | setGroups specs => exact (setGroups_regrouped lowercase s specs).arranged
  | createGroup name => exact (createGroup_regrouped lowercase s name).arranged
  | renameGroup id name => exact (renameGroup_regrouped lowercase s id name).arranged
  | deleteGroup id => exact (regrouped_groups s _).arranged
  | setGroupCollapsed id collapsed => exact (setGroupCollapsed_regrouped s id collapsed).arranged
  | moveToGroup id group before => exact (moveToGroup_regrouped s id group before).arranged
  | returnToServer id => exact (returnToServer_regrouped s id).arranged
  | _ => cases hi

end AppState

end CayenChat.App
