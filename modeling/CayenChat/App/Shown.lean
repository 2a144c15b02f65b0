import CayenChat.App.Networks

/-! # The channel tree

What the tree shows, where it shows it, and where a conversation is shown when
the tree is not built. The two answers agree while no two channels of a network
go by one member of a group.
-/

namespace CayenChat.App

namespace AppState

variable {s s' : AppState} {id : ConversationId}

def Apart (s : AppState) : Prop := (s.groups.flatMap (·.members)).Nodup

def shownIn (s : AppState) (g : ChannelGroup) : List ConversationId :=
  g.members.filterMap s.memberChannel

def grouped (s : AppState) : List ConversationId := s.groups.flatMap s.shownIn

section Tree

theorem eq_of_mem_flatMap {α β : Type} {l : List α} {f : α → List β} (h : (l.flatMap f).Nodup)
    {a b : α} (ha : a ∈ l) (hb : b ∈ l) {x : β} (hx : x ∈ f a) (hx' : x ∈ f b) : a = b := by
  by_contra hne
  have : Std.Symm (Function.onFun List.Disjoint f) := ⟨fun a b hab => List.Disjoint.symm hab⟩
  exact (List.nodup_flatMap.mp h).2.forall ha hb hne hx hx'

theorem memberChannel_spec {m : GroupMember} (h : s.memberChannel m = some id) :
    ∃ c ∈ s.conversations, c.id = id ∧ c.isPrivate = false ∧ GroupMember.of c = m := by
  obtain ⟨c, hc, rfl⟩ := Option.map_eq_some_iff.mp h
  have hp := List.find?_some hc
  rw [Bool.and_eq_true, Bool.not_eq_true', decide_eq_true_eq] at hp
  exact ⟨c, List.mem_reverse.mp (List.mem_of_find?_eq_some hc), rfl, hp.1, hp.2⟩

theorem memberChannel_isSome {c : Conversation} (hc : c ∈ s.conversations)
    (hp : c.isPrivate = false) : ∃ id, s.memberChannel (.of c) = some id := by
  apply Option.isSome_iff_exists.mp
  rw [memberChannel, Option.isSome_map, List.find?_isSome]
  refine ⟨c, List.mem_reverse.mpr hc, ?_⟩
  rw [hp, decide_eq_true rfl]
  rfl

theorem tree_groups (s : AppState) :
    s.displayTree.groups = s.groups.map fun g => (g.id, s.shownIn g) := by
  unfold displayTree
  dsimp only
  apply List.map_congr_left
  intro g hg
  by_cases ha : s.anyGrouped = true
  · rw [if_pos ha]
    rfl
  · rw [if_neg ha]
    rw [anyGrouped, List.any_eq_true] at ha
    have hm : g.members = [] := by
      by_contra hne
      exact ha ⟨g, hg, decide_eq_true hne⟩
    rw [shownIn, hm]
    rfl

theorem tree_grouped (s : AppState) : s.displayTree.groups.flatMap Prod.snd = s.grouped := by
  rw [tree_groups, List.flatMap_map]
  rfl

theorem tree_servers (s : AppState) :
    s.displayTree.servers = s.networks.map fun n => (n.id, (s.conversations.filter fun c =>
      c.network = n.id && !s.grouped.contains c.id).map (·.id)) := by
  rw [← tree_grouped]
  rfl

theorem mem_grouped (h : id ∈ s.grouped) :
    ∃ g ∈ s.groups, ∃ c ∈ s.conversations, c.id = id ∧ c.isPrivate = false ∧
      GroupMember.of c ∈ g.members ∧ s.memberChannel (.of c) = some id ∧ id ∈ s.shownIn g := by
  obtain ⟨g, hg, hm⟩ := List.mem_flatMap.mp h
  obtain ⟨m, hmem, hid⟩ := List.mem_filterMap.mp hm
  obtain ⟨c, hc, hcid, hp, rfl⟩ := memberChannel_spec hid
  exact ⟨g, hg, c, hc, hcid, hp, hmem, hid, hm⟩

theorem grouped_nodup (hi : s.Ids) (h : s.Apart) : s.grouped.Nodup := by
  have hflat : s.grouped = (s.groups.flatMap (·.members)).filterMap s.memberChannel :=
    List.filterMap_flatMap.symm
  rw [hflat]
  refine h.filterMap fun m m' id hid hid' => ?_
  obtain ⟨c, hc, hcid, -, rfl⟩ := memberChannel_spec hid
  obtain ⟨c', hc', hcid', -, rfl⟩ := memberChannel_spec hid'
  rw [List.inj_on_of_nodup_map hi.nodup hc hc' (hcid.trans hcid'.symm)]

theorem mem_servers {e : NetworkId × List ConversationId} (he : e ∈ s.displayTree.servers)
    (hid : id ∈ e.2) :
    ∃ c ∈ s.conversations, c.id = id ∧ c.network = e.1 ∧ id ∉ s.grouped := by
  rw [tree_servers] at he
  obtain ⟨n, -, rfl⟩ := List.mem_map.mp he
  obtain ⟨c, hc, rfl⟩ := List.mem_map.mp hid
  obtain ⟨hc, hp⟩ := List.mem_filter.mp hc
  rw [Bool.and_eq_true, decide_eq_true_eq, Bool.not_eq_true', ← Bool.not_eq_true,
    List.contains_iff_mem] at hp
  exact ⟨c, hc, rfl, hp⟩

theorem tree_nodup (h : s.Sound) (ha : s.Apart) : s.displayTree.conversations.Nodup := by
  unfold DisplayTree.conversations
  rw [tree_grouped, List.nodup_append]
  refine ⟨grouped_nodup h.ids ha, ?_, ?_⟩
  · rw [List.nodup_flatMap]
    constructor
    · intro e he
      rw [tree_servers] at he
      obtain ⟨n, -, rfl⟩ := List.mem_map.mp he
      exact h.ids.nodup.sublist (List.filter_sublist.map _)
    · have hn := List.pairwise_map.mp h.distinct
      have hpair : s.displayTree.servers.Pairwise fun e e' => e.1 ≠ e'.1 := by
        rw [tree_servers]
        exact List.pairwise_map.mpr hn
      refine hpair.imp_of_mem fun {e e'} he he' hne => ?_
      intro id hid hid'
      obtain ⟨c, hc, rfl, hcn, -⟩ := mem_servers he hid
      obtain ⟨c', hc', hcid, hcn', -⟩ := mem_servers he' hid'
      have := List.inj_on_of_nodup_map h.ids.nodup hc' hc hcid
      exact hne (hcn.symm.trans (this ▸ hcn'))
  · rintro id hid _ hid' rfl
    obtain ⟨e, he, hid'⟩ := List.mem_flatMap.mp hid'
    obtain ⟨c, hc, -, -, hno⟩ := mem_servers he hid'
    exact hno hid

theorem mem_tree_iff (h : s.Sound) : id ∈ s.displayTree.conversations ↔ s.Known id := by
  constructor
  · intro hid
    unfold DisplayTree.conversations at hid
    rw [tree_grouped] at hid
    rcases List.mem_append.mp hid with hid | hid
    · obtain ⟨g, -, c, hc, hcid, -⟩ := mem_grouped hid
      exact ⟨c, hc, hcid⟩
    · obtain ⟨e, he, hid⟩ := List.mem_flatMap.mp hid
      obtain ⟨c, hc, hcid, -⟩ := mem_servers he hid
      exact ⟨c, hc, hcid⟩
  · rintro ⟨c, hc, rfl⟩
    exact mem_displayTree hc (h.homed c hc)

theorem server_order (h : s.Sound) {e : NetworkId × List ConversationId}
    (he : e ∈ s.displayTree.servers) :
    ∃ cs : List Conversation, cs.Sublist s.conversations ∧ e.2 = cs.map (·.id) ∧
      (∀ c ∈ cs, c.network = e.1) ∧
      cs.Pairwise fun a b => a.isPrivate = true → b.isPrivate = true := by
  rw [tree_servers] at he
  obtain ⟨n, -, rfl⟩ := List.mem_map.mp he
  have hnet : ∀ c ∈ s.conversations.filter fun c =>
      c.network = n.id && !s.grouped.contains c.id, c.network = n.id := fun c hc =>
    of_decide_eq_true (Bool.and_eq_true_iff.mp (List.mem_filter.mp hc).2).1
  refine ⟨_, List.filter_sublist, rfl, hnet, ?_⟩
  refine ((List.pairwise_map.mp h.grouped).sublist List.filter_sublist).imp_of_mem
    fun {a b} ha hb hab => ?_
  rcases hab with hlt | ⟨-, hp⟩
  · rw [show a.place.1 = n.id from hnet a ha, show b.place.1 = n.id from hnet b hb] at hlt
    exact absurd hlt (lt_irrefl _)
  · exact hp

end Tree

section Parents

theorem find_of_mem {α : Type} {l : List α} {p : α → Bool} {a : α} (ha : a ∈ l) (hp : p a = true)
    (ho : ∀ b ∈ l, p b = true → b = a) : l.find? p = some a := by
  obtain ⟨b, hb⟩ := Option.isSome_iff_exists.mp (List.find?_isSome.mpr ⟨a, ha, hp⟩)
  rw [hb, ho b (List.mem_of_find?_eq_some hb) (List.find?_some hb)]

theorem parentOf_group (hi : s.Ids) (ha : s.Apart) {g : ChannelGroup} (hg : g ∈ s.groups)
    (hid : id ∈ s.shownIn g) : s.displayTree.parentOf id = some (.group g.id) := by
  have hfind : s.displayTree.groups.find? (·.2.contains id) = some (g.id, s.shownIn g) := by
    rw [tree_groups]
    refine find_of_mem (List.mem_map_of_mem hg) (List.contains_iff_mem.mpr hid) ?_
    rintro e he hcon
    obtain ⟨g', hg', rfl⟩ := List.mem_map.mp he
    rw [eq_of_mem_flatMap (grouped_nodup hi ha) hg' hg (List.contains_iff_mem.mp hcon) hid]
  rw [DisplayTree.parentOf, hfind]
  rfl

theorem parentOf_own (h : s.Sound) {c : Conversation} (hc : c ∈ s.conversations)
    (hno : c.id ∉ s.grouped) : s.displayTree.parentOf c.id = some (.server c.network) := by
  have hgroups : s.displayTree.groups.find? (·.2.contains c.id) = none := by
    rw [List.find?_eq_none]
    intro e he hcon
    apply hno
    rw [← tree_grouped]
    exact List.mem_flatMap.mpr ⟨e, he, List.contains_iff_mem.mp hcon⟩
  obtain ⟨n, hn, hid⟩ := List.any_eq_true.mp (h.homed c hc)
  have hid : n.id = c.network := of_decide_eq_true hid
  have hmem : c.id ∈ (s.conversations.filter fun a =>
      a.network = n.id && !s.grouped.contains a.id).map (·.id) := by
    refine List.mem_map_of_mem (List.mem_filter.mpr ⟨hc, ?_⟩)
    rw [Bool.and_eq_true, decide_eq_true_eq, Bool.not_eq_true', ← Bool.not_eq_true,
      List.contains_iff_mem]
    exact ⟨hid.symm, hno⟩
  have hin : (n.id, (s.conversations.filter fun a =>
      a.network = n.id && !s.grouped.contains a.id).map (·.id)) ∈ s.displayTree.servers := by
    rw [tree_servers]
    exact List.mem_map.mpr ⟨n, hn, rfl⟩
  have hsome : (s.displayTree.servers.find? (·.2.contains c.id)).isSome = true :=
    List.find?_isSome.mpr ⟨_, hin, List.contains_iff_mem.mpr hmem⟩
  obtain ⟨e, he⟩ := Option.isSome_iff_exists.mp hsome
  have hcon := List.find?_some he
  obtain ⟨c', hc', hcid, hcn, -⟩ :=
    mem_servers (List.mem_of_find?_eq_some he) (List.contains_iff_mem.mp hcon)
  have := List.inj_on_of_nodup_map h.ids.nodup hc' hc hcid
  rw [DisplayTree.parentOf, hgroups, he]
  simp [← hcn, this]

theorem parentOf_none (h : s.Sound) (hk : ¬ s.Known id) : s.displayTree.parentOf id = none := by
  have hno := (mem_tree_iff h).not.mpr hk
  rw [DisplayTree.conversations, List.mem_append, not_or] at hno
  unfold DisplayTree.parentOf
  rw [Option.or_eq_none_iff, Option.map_eq_none_iff, Option.map_eq_none_iff, List.find?_eq_none,
    List.find?_eq_none]
  constructor
  · intro e he hcon
    exact hno.1 (List.mem_flatMap.mpr ⟨e, he, List.contains_iff_mem.mp hcon⟩)
  · intro e he hcon
    exact hno.2 (List.mem_flatMap.mpr ⟨e, he, List.contains_iff_mem.mp hcon⟩)

def Distinguished (s : AppState) : Prop :=
  ∀ c ∈ s.conversations, ∀ c' ∈ s.conversations, c.isPrivate = false → c'.isPrivate = false →
    GroupMember.of c = GroupMember.of c' → (∃ g ∈ s.groups, GroupMember.of c ∈ g.members) → c = c'

theorem displayParent_own {c : Conversation} (hi : s.Ids) (hc : c ∈ s.conversations)
    (hn : s.hasNetwork c.network = true)
    (hno : c.isPrivate = true ∨ s.groupIndexOf c = none) :
    s.displayParent c.id = some (.server c.network) := by
  unfold displayParent
  rw [conversation_eq hi.nodup hc, Option.bind_some, hn]
  rcases hno with hp | hg
  · rw [hp]
    rfl
  · rw [hg, ite_self]
    rfl

theorem displayParent_group {c : Conversation} (hi : s.Ids) (hc : c ∈ s.conversations)
    (hp : c.isPrivate = false) {place : ℕ} (hg : s.groupIndexOf c = some place) :
    ∃ g ∈ s.groups, GroupMember.of c ∈ g.members ∧ s.displayParent c.id = some (.group g.id) := by
  obtain ⟨hlt, hm, -⟩ := List.findIdx?_eq_some_iff_getElem.mp hg
  refine ⟨s.groups[place], List.getElem_mem hlt, List.contains_iff_mem.mp hm, ?_⟩
  unfold displayParent
  rw [conversation_eq hi.nodup hc, Option.bind_some, hp, hg, if_neg (by decide)]
  dsimp only
  rw [List.getElem?_eq_getElem hlt]
  rfl

theorem displayParent_iff (h : s.Sound) (ha : s.Apart) :
    (∀ id, s.displayParent id = s.displayTree.parentOf id) ↔ s.Distinguished := by
  constructor
  · intro heq c hc c' hc' hp hp' hof ⟨g, hg, hm⟩
    have hshown : ∀ a ∈ s.conversations, a.isPrivate = false → GroupMember.of a = GroupMember.of c →
        s.memberChannel (.of c) = some a.id := by
      intro a haa hap hao
      have hgi : ∃ place, s.groupIndexOf a = some place := by
        apply Option.isSome_iff_exists.mp
        rw [groupIndexOf, List.findIdx?_isSome, List.any_eq_true]
        exact ⟨g, hg, List.contains_iff_mem.mpr (hao ▸ hm)⟩
      obtain ⟨place, hplace⟩ := hgi
      obtain ⟨g', hg', hm', hd⟩ := displayParent_group h.ids haa hap hplace
      by_cases hin : a.id ∈ s.grouped
      · obtain ⟨_, _, b, hb, hbid, -, -, hmc, -⟩ := mem_grouped hin
        rw [List.inj_on_of_nodup_map h.ids.nodup hb haa hbid, hao] at hmc
        exact hmc
      · rw [heq, parentOf_own h haa hin] at hd
        cases hd
    have hcc := (hshown c hc hp rfl).symm.trans (hshown c' hc' hp' hof.symm)
    exact List.inj_on_of_nodup_map h.ids.nodup hc hc' (Option.some.inj hcc)
  · intro hd id
    by_cases hk : s.Known id
    swap
    · rw [parentOf_none h hk, displayParent]
      cases hc : s.conversation id with
      | none => rfl
      | some c => exact absurd ⟨c, conversation_mem hc⟩ hk
    obtain ⟨c, hc, rfl⟩ := hk
    have hn := h.homed c hc
    by_cases hin : c.id ∈ s.grouped
    · obtain ⟨g, hg, b, hb, hbid, hp, hm, -, hs⟩ := mem_grouped hin
      obtain rfl := List.inj_on_of_nodup_map h.ids.nodup hb hc hbid
      rw [parentOf_group h.ids ha hg hs]
      cases hgi : s.groupIndexOf b with
      | none =>
        have := List.findIdx?_eq_none_iff.mp hgi g hg
        rw [List.contains_iff_mem.mpr hm] at this
        cases this
      | some place =>
        obtain ⟨g', hg', hm', he⟩ := displayParent_group h.ids hb hp hgi
        rw [he, eq_of_mem_flatMap ha hg' hg hm' hm]
    · rw [parentOf_own h hc hin]
      apply displayParent_own h.ids hc hn
      by_contra hcon
      rw [not_or, Bool.not_eq_true] at hcon
      obtain ⟨hp, hgi⟩ := hcon
      obtain ⟨place, hplace⟩ := Option.ne_none_iff_exists'.mp hgi
      obtain ⟨g, hg, hm, -⟩ := displayParent_group h.ids hc hp hplace
      obtain ⟨j, hj⟩ := memberChannel_isSome hc hp
      obtain ⟨b, hb, hbid, hbp, hbo⟩ := memberChannel_spec hj
      obtain rfl := hd b hb c hc hbp hp hbo ⟨g, hg, hbo ▸ hm⟩
      apply hin
      refine List.mem_flatMap.mpr ⟨g, hg, List.mem_filterMap.mpr ⟨_, hm, ?_⟩⟩
      rw [hj, hbid]

end Parents

end AppState

end CayenChat.App
