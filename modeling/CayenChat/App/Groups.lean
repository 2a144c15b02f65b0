import CayenChat.App.Shown

/-! # Groups of channels

No operation puts a channel into two groups, or twice into one, and none changes
more than the groups, but for a channel that moves to or under its server.
-/

namespace CayenChat.App

section Lists

variable {l : List ChannelGroup}

theorem flatMap_replaceF {f : ChannelGroup → Option ChannelGroup}
    (hf : ∀ g g', f g = some g' → g'.members = g.members) :
    (l.replaceF f).flatMap (·.members) = l.flatMap (·.members) := by
  induction l with
  | nil => rfl
  | cons g l ih =>
    cases hg : f g with
    | none => rw [List.replaceF_cons_of_none f hg, List.flatMap_cons, ih, List.flatMap_cons]
    | some g' =>
      rw [List.replaceF_cons_of_some f hg, List.flatMap_cons, hf g g' hg, List.flatMap_cons]

theorem flatMap_join (m : GroupMember) (group : GroupId) {place : ChannelGroup → ℕ}
    (hp : ∀ g, place g ≤ g.members.length) :
    (l.replaceF fun g => if g.id = group then
        some { g with members := g.members.insertIdx (place g) m } else none) = l ∨
      ((l.replaceF fun g => if g.id = group then
        some { g with members := g.members.insertIdx (place g) m } else none).flatMap
          (·.members)).Perm (m :: l.flatMap (·.members)) := by
  induction l with
  | nil => exact Or.inl rfl
  | cons g l ih =>
    by_cases hg : g.id = group
    · rw [List.replaceF, if_pos hg]
      exact Or.inr ((List.perm_insertIdx _ _ (hp g)).append_right _)
    · rw [List.replaceF, if_neg hg]
      rcases ih with ih | ih
      · exact Or.inl (by rw [ih])
      · exact Or.inr ((ih.append_left g.members).trans List.perm_middle)

theorem modify_split {place : ℕ} (h : place < l.length) (f : ChannelGroup → ChannelGroup) :
    (l.modify place f).flatMap (·.members) = (l.take place).flatMap (·.members) ++
      ((f l[place]).members ++ (l.drop (place + 1)).flatMap (·.members)) := by
  rw [List.modify_eq_take_cons_drop h, List.flatMap_append, List.flatMap_cons]

theorem flatMap_split {place : ℕ} (h : place < l.length) :
    l.flatMap (·.members) = (l.take place).flatMap (·.members) ++
      (l[place].members ++ (l.drop (place + 1)).flatMap (·.members)) := by
  conv_lhs => rw [← List.take_append_drop place l, List.drop_eq_getElem_cons h]
  rw [List.flatMap_append, List.flatMap_cons]

end Lists

namespace AppState

variable {s s' s'' : AppState} {id : ConversationId} {c : Conversation}

theorem storeChannelOrder_fields (s : AppState) (network : NetworkId) (order : List String) :
    (s.storeChannelOrder network order).groups = s.groups ∧
    (s.storeChannelOrder network order).conversations = s.conversations ∧
    ∀ n ≠ network, (s.storeChannelOrder network order).channelOrder n = s.channelOrder n := by
  unfold storeChannelOrder channelOrder
  dsimp only
  split
  · refine ⟨rfl, rfl, fun n hn => ?_⟩
    rw [Map.lookup_erase, if_neg hn]
  · refine ⟨rfl, rfl, fun n hn => ?_⟩
    rw [Map.lookup_insert, if_neg hn]

section Apart

theorem Apart.of_sublist (h : s.Apart)
    (hs : (s'.groups.flatMap (·.members)).Sublist (s.groups.flatMap (·.members))) : s'.Apart :=
  h.sublist hs

theorem Apart.of_groups (h : s.Apart) (hg : s'.groups = s.groups) : s'.Apart := by
  rwa [Apart, hg]

theorem Apart.leave (h : s.Apart) (c : Conversation) :
    (s.leaveGroup c).1.Apart ∧ GroupMember.of c ∉ (s.leaveGroup c).1.groups.flatMap (·.members) := by
  unfold leaveGroup
  split
  · rename_i hnone
    refine ⟨h, fun hm => ?_⟩
    obtain ⟨g, hg, hm⟩ := List.mem_flatMap.mp hm
    have := List.findIdx?_eq_none_iff.mp hnone g hg
    rw [List.contains_iff_mem.mpr hm] at this
    cases this
  · rename_i place hplace
    obtain ⟨hlt, hm, -⟩ := List.findIdx?_eq_some_iff_getElem.mp hplace
    have hm := List.contains_iff_mem.mp hm
    unfold Apart at h ⊢
    rw [flatMap_split hlt] at h
    dsimp only
    rw [modify_split hlt]
    constructor
    · exact h.sublist ((List.Sublist.refl _).append (List.filter_sublist.append (.refl _)))
    · obtain ⟨-, hrest, hpre⟩ := List.nodup_append.mp h
      obtain ⟨-, -, hpost⟩ := List.nodup_append.mp hrest
      rw [List.mem_append, List.mem_append, not_or, not_or]
      refine ⟨fun hin => ?_, fun hin => ?_, fun hin => ?_⟩
      · exact hpre _ hin _ (List.mem_append_left _ hm) rfl
      · exact of_decide_eq_true (List.mem_filter.mp hin).2 rfl
      · exact hpost _ hm _ hin rfl

theorem Apart.moveToGroup (h : s.Apart) (id : ConversationId) (group : GroupId)
    (before : Option ConversationId) : (s.moveToGroup id group before).1.Apart := by
  unfold AppState.moveToGroup
  split
  swap
  · exact h
  rename_i c g _ _
  split
  · exact h
  obtain ⟨hl, hno⟩ := h.leave c
  have hplace : ∀ g : ChannelGroup, (((before.bind s.conversation).map GroupMember.of).bind fun a =>
      g.members.findIdx? (· = a)).getD g.members.length ≤ g.members.length := by
    intro g
    cases hf : ((before.bind s.conversation).map GroupMember.of).bind fun a =>
        g.members.findIdx? (· = a) with
    | none => exact le_rfl
    | some i =>
      obtain ⟨a, -, ha⟩ := Option.bind_eq_some_iff.mp hf
      exact (List.findIdx?_eq_some_iff_getElem.mp ha).1.le
  have hins := flatMap_join (l := (s.leaveGroup c).1.groups) (.of c) group hplace
  unfold Apart at hl ⊢
  dsimp only
  rcases hins with hins | hins
  · rw [hins]
    exact hl
  · exact hins.nodup_iff.mpr (List.nodup_cons.mpr ⟨hno, hl⟩)

theorem Apart.returnToServer (h : s.Apart) (id : ConversationId) :
    (s.returnToServer id).1.Apart := by
  unfold AppState.returnToServer
  split
  · exact (h.leave _).1
  · exact h

theorem Apart.moveInGroup (h : s.Apart) (tree : DisplayTree) (id : ConversationId)
    (move : MoveTo) : (s.moveInGroup tree id move).1.Apart := by
  unfold AppState.moveInGroup
  dsimp only
  split
  · exact h
  · exact h
  rename_i place source target htarget
  obtain ⟨c, -, htarget⟩ := Option.bind_eq_some_iff.mp htarget
  obtain ⟨place', hplace, htarget⟩ := Option.bind_eq_some_iff.mp htarget
  obtain ⟨g, hg, htarget⟩ := Option.bind_eq_some_iff.mp htarget
  obtain ⟨_, -, htarget⟩ := Option.bind_eq_some_iff.mp htarget
  obtain ⟨_, -, htarget⟩ := Option.bind_eq_some_iff.mp htarget
  split at htarget
  · cases htarget
  obtain ⟨_, -, htarget⟩ := Option.bind_eq_some_iff.mp htarget
  obtain ⟨source', -, htarget⟩ := Option.bind_eq_some_iff.mp htarget
  obtain ⟨target', ht, htarget⟩ := Option.bind_eq_some_iff.mp htarget
  simp only [Option.pure_def, Option.some.injEq, Prod.mk.injEq] at htarget
  obtain ⟨rfl, rfl, rfl⟩ := htarget
  obtain ⟨hlt, rfl⟩ := List.getElem?_eq_some_iff.mp hg
  have hperm : (moveItem s.groups[place'].members source' target').Perm
      s.groups[place'].members :=
    moveItem_perm (List.findIdx?_eq_some_iff_getElem.mp ht).1
  unfold Apart at h ⊢
  dsimp only
  rw [modify_split hlt]
  rw [flatMap_split hlt] at h
  exact ((hperm.append_right _).append_left _).nodup_iff.mpr h

variable (lowercase : String → String)

theorem setGroups_apart (s : AppState) {specs : List GroupSpec}
    (h : (specs.flatMap (·.members)).Nodup) : (s.setGroups lowercase specs).Apart := by
  unfold setGroups
  suffices hsub : ∀ t : AppState, ((specs.foldl (fun s spec =>
      if (s.groupNamed lowercase spec.name).isSome then s
      else s.addGroup spec.name spec.collapsed
        (spec.members.filter fun m => s.hasNetwork m.network)) t).groups.flatMap
          (·.members)).Sublist
      (t.groups.flatMap (·.members) ++ specs.flatMap (·.members)) from h.sublist (hsub _)
  clear h
  induction specs with
  | nil =>
    intro t
    rw [List.flatMap_nil, List.append_nil]
    exact .refl _
  | cons spec specs ih =>
    intro t
    rw [List.foldl_cons, List.flatMap_cons]
    refine (ih _).trans ?_
    split
    · exact (List.Sublist.refl _).append (List.sublist_append_right _ _)
    · dsimp only [addGroup]
      rw [List.flatMap_append, List.flatMap_cons, List.flatMap_nil, List.append_nil,
        List.append_assoc]
      exact (List.Sublist.refl _).append (List.filter_sublist.append (.refl _))

theorem Apart.relocate (h : s.Apart) (tree : DisplayTree) (id other : ConversationId) :
    (s.relocate tree id other).1.Apart := by
  have hr := h.returnToServer id
  unfold AppState.relocate
  split
  swap
  · exact h
  split
  · exact h
  split
  · exact h.moveToGroup id _ _
  · split
    · exact h
    · dsimp only
      split
      · exact hr.of_groups (storeChannelOrder_fields _ _ _).1
      · exact hr

theorem Apart.moveWithin (h : s.Apart) (tree : DisplayTree) (id : ConversationId)
    (network : NetworkId) (move : MoveTo) : (s.moveWithin tree id network move).1.Apart := by
  unfold AppState.moveWithin
  split
  · exact h.moveInGroup tree id move
  · unfold moveShown
    dsimp only
    split
    · exact h
    · split
      · exact h.of_groups (storeChannelOrder_fields _ _ _).1
      · exact h

theorem Apart.moveConversation (h : s.Apart) (id : ConversationId) (move : MoveTo) :
    (s.moveConversation id move).1.Apart := by
  unfold AppState.moveConversation
  split
  · exact h
  dsimp only
  split
  · split
    · split
      · exact h.relocate _ id _
      · exact h.moveWithin _ id _ _
    · exact h
  · exact h.moveWithin _ id _ _

theorem Apart.moveAfter (h : s.Apart) (id other : ConversationId) :
    (s.moveAfter id other).1.Apart := by
  unfold AppState.moveAfter
  dsimp only
  split
  swap
  · exact h
  split
  · exact h
  split
  · exact h
  split
  · exact h.moveConversation id _
  · exact h
  split
  · exact h
  split
  · exact h.moveToGroup id _ _
  split
  · exact h
  split
  · exact h.returnToServer id
  · exact (h.returnToServer id).moveConversation id _

theorem setChannelOrder_groups (s : AppState) (network : NetworkId) (order : List String) :
    (s.setChannelOrder network order).groups = s.groups := by
  refine Eq.trans ?_ (storeChannelOrder_fields s network order).1
  unfold setChannelOrder applyChannelOrder
  split
  · rfl
  split
  · rfl
  · rfl

theorem Apart.createGroup (h : s.Apart) (name : String) : (s.createGroup lowercase name).1.Apart := by
  unfold AppState.createGroup
  split
  · exact h
  split
  · exact h
  split
  · exact h
  · unfold Apart addGroup
    rwa [List.flatMap_append, List.flatMap_singleton, List.append_nil]

theorem Apart.renameGroup (h : s.Apart) (id : GroupId) (name : String) :
    (s.renameGroup lowercase id name).1.Apart := by
  unfold AppState.renameGroup
  split
  · exact h
  split
  · exact h
  · unfold Apart
    dsimp only
    rwa [flatMap_replaceF]
    intro g g' hg
    split at hg
    · rw [← Option.some.inj hg]
    · cases hg

theorem Apart.setGroupCollapsed (h : s.Apart) (id : GroupId) (collapsed : Bool) :
    (s.setGroupCollapsed id collapsed).1.Apart := by
  unfold AppState.setGroupCollapsed
  split
  · unfold Apart
    dsimp only
    rwa [flatMap_replaceF]
    intro g g' hg
    split at hg
    · rw [← Option.some.inj hg]
    · cases hg
  · exact h

end Apart

section Calls

variable (lowercase : String → String)

def Adopts (s : AppState) : AppCall → Prop
  | .setGroups specs => (specs.flatMap (·.members)).Nodup
  | i => s.Fits i

theorem Adopts.fits {i : AppCall} (h : s.Adopts i) : s.Fits i := by
  cases i with
  | setGroups => trivial
  | _ => exact h

theorem Apart.arrange (h : s.Apart) {i : AppCall} (hi : arranges i = true) (ha : s.Adopts i) :
    (s.call lowercase i).Apart := by
  cases i with
  | setChannelOrder network order => exact h.of_groups (setChannelOrder_groups s network order)
  | moveConversation id move => exact h.moveConversation id move
  | moveAfter id other => exact h.moveAfter id other
  | setGroups specs => exact setGroups_apart lowercase s ha
  | createGroup name => exact h.createGroup lowercase name
  | renameGroup id name => exact h.renameGroup lowercase id name
  | deleteGroup id => exact h.of_sublist (List.filter_sublist.flatMap _)
  | setGroupCollapsed id collapsed => exact h.setGroupCollapsed id collapsed
  | moveToGroup id group before => exact h.moveToGroup id group before
  | returnToServer id => exact h.returnToServer id
  | _ => cases hi

theorem groups_of_arrangement (h : s'.arrangement = s.arrangement) : s'.groups = s.groups :=
  congrArg (fun a => a.2.2.1) h

theorem addConversation_arrangement (s : AppState) (network : NetworkId) (kind : ConversationKind)
    (name : String) : (s.addConversation network kind name).1.arrangement = s.arrangement := by
  rcases addConversation_eq s network kind name with heq | ⟨-, -, heq⟩
  · rw [heq]
  · rw [heq]
    rfl

theorem ensureChannel_arrangement (s : AppState) (network : NetworkId) (name : String) :
    (s.ensureChannel network name).1.arrangement = s.arrangement := by
  unfold ensureChannel
  split
  · rfl
  · exact addConversation_arrangement s network .channel name

theorem ensureAll_arrangement (s : AppState) (network : NetworkId) (channels : List String) :
    (s.ensureConfiguredChannels network channels).1.arrangement = s.arrangement := by
  unfold ensureConfiguredChannels
  refine List.foldlRecOn (motive := fun r : AppState × Option ConversationId =>
    r.1.arrangement = s.arrangement) channels _ rfl fun r hr name _ => ?_
  refine Eq.trans ?_ hr
  unfold ensureConfiguredChannel
  split
  · rfl
  · exact addConversation_arrangement r.1 network .channel name

theorem forgetAll_arrangement (s : AppState) (network : NetworkId) (ids : List ConversationId) :
    (s.forgetAll network ids).arrangement = s.arrangement := by
  induction ids generalizing s with
  | nil => rfl
  | cons id ids ih => exact ih (s.forgetConversation network id)

theorem repair_arrangement (s : AppState) : s.repairSelection.arrangement = s.arrangement := by
  unfold repairSelection
  dsimp only
  split <;> split <;> rfl

theorem removeConversations_arrangement (s : AppState) (network : NetworkId) :
    (s.removeConversations network).1.arrangement = s.arrangement :=
  forgetAll_arrangement { s with
    conversations := s.conversations.filter (·.network ≠ network)
    channelIds := Map.retain (fun key => key.1 ≠ network) s.channelIds
    casemappings := s.casemappings.erase network } network (s.conversationsOf network)

theorem resetNetwork_arrangement (s : AppState) (network : NetworkId) (channels : List String) :
    (s.resetNetwork network channels).arrangement = s.arrangement := by
  unfold resetNetwork
  split
  · rfl
  · refine (repair_arrangement _).trans (Eq.trans ?_ (removeConversations_arrangement s network))
    exact ensureAll_arrangement _ network channels

theorem Apart.syncNetworks (h : s.Apart) (configs : List NetworkConfig) :
    (s.syncNetworks configs).Apart := by
  have hgone : (((s.networks.map (·.id)).filter fun id => !configs.any (·.id = id)).foldl
      (fun s id => (forgetNetwork s id).1) s).Apart := by
    refine List.foldlRecOn (motive := Apart) _ _ h fun t ht id _ => ?_
    refine ht.of_sublist ?_
    rw [← groups_of_arrangement (removeConversations_arrangement t id)]
    unfold forgetNetwork
    dsimp only
    rw [List.flatMap_map]
    exact List.Sublist.flatMap_right _ fun g _ => List.filter_sublist
  unfold AppState.syncNetworks
  dsimp only
  refine Apart.of_groups ?_ (groups_of_arrangement (repair_arrangement _))
  refine List.foldlRecOn (motive := Apart) _ _ ?_ fun t ht config _ => ?_
  · exact hgone.of_groups rfl
  · exact ht.of_groups (groups_of_arrangement (ensureAll_arrangement t config.id config.channels))

theorem selectChannel_arrangement (s : AppState) (id : ConversationId) :
    (s.selectChannel id).arrangement = s.arrangement := by
  unfold selectChannel
  split <;> rfl

theorem selectServer_arrangement (s : AppState) (id : NetworkId) :
    (s.selectServer id).arrangement = s.arrangement := by
  unfold selectServer
  split <;> rfl

theorem select_arrangement (s : AppState) (target : Selection) :
    (s.select target).arrangement = s.arrangement := by
  cases target with
  | server id => exact selectServer_arrangement s id
  | channel id => exact selectChannel_arrangement s id
  | none => rfl

theorem visitAttention_arrangement (s : AppState) : s.visitAttention.arrangement = s.arrangement := by
  unfold visitAttention
  split
  · rfl
  · exact selectChannel_arrangement _ _

theorem dispatch_arrangement (s : AppState) (command : Command) :
    (s.dispatch command).arrangement = s.arrangement :=
  dispatch_rule (P := fun t => t.arrangement = s.arrangement) command rfl
    (selectChannel_arrangement s) (selectServer_arrangement s) fun _ => visitAttention_arrangement s

theorem joinedChannel_arrangement (s : AppState) (network : NetworkId) (name : String) :
    (s.joinedChannel network name).arrangement = s.arrangement := by
  have he := ensureChannel_arrangement s network name
  unfold joinedChannel
  dsimp only
  split <;> exact he

theorem privateConversation_arrangement (s : AppState) (network : NetworkId) (peerKey name : String)
    (create : Bool) : (s.privateConversation network peerKey name create).1.arrangement = s.arrangement := by
  have ha := addConversation_arrangement s network (.privateTo peerKey) name
  unfold privateConversation
  split
  · rfl
  split
  · rfl
  dsimp only
  split
  · exact ha
  · dsimp only
    split <;> exact ha

theorem renamePrivate_arrangement (s : AppState) (network : NetworkId) (fromKey toKey toName : String) :
    (s.renamePrivate network fromKey toKey toName).1.arrangement = s.arrangement := by
  unfold renamePrivate
  split
  · rfl
  split
  · rfl
  · rfl

theorem closePrivate_arrangement (s : AppState) (id : ConversationId) :
    (s.closePrivate id).1.arrangement = s.arrangement := by
  unfold closePrivate
  split
  · rfl
  · rfl

theorem joinAlert_arrangement (s : AppState) (network : NetworkId) (name text : String)
    (info : MessageMeta) :
    (s.appendRequestedJoinAlertAt network name text info).arrangement = s.arrangement := by
  have he := ensureChannel_arrangement s network name
  unfold appendRequestedJoinAlertAt
  dsimp only
  split
  · exact (appendChannelLineAt_keeps _ network name text .alert info).arrangement.trans he
  · exact he

theorem Sound.call_arrangement (h : s.Sound) {i : AppCall} (ha : arranges i = false)
    (hc : ∀ configs, i ≠ .syncNetworks configs) (hi : s.Fits i) :
    (s.call lowercase i).arrangement = s.arrangement := by
  cases i with
  | syncNetworks configs => exact absurd rfl (hc configs)
  | resetNetwork network channels => exact resetNetwork_arrangement s network channels
  | setCasemapping network mapping => rfl
  | joinedChannel network name => exact joinedChannel_arrangement s network name
  | privateConversation network peerKey name create =>
    exact privateConversation_arrangement s network peerKey name create
  | renamePrivate network fromKey toKey toName =>
    exact renamePrivate_arrangement s network fromKey toKey toName
  | closePrivate id => exact closePrivate_arrangement s id
  | dispatch command => exact dispatch_arrangement s command
  | appendRequestedJoinAlertAt network name text info =>
    exact joinAlert_arrangement s network name text info
  | setChannelOrder | moveConversation | moveAfter | setGroups | createGroup | renameGroup
  | deleteGroup | setGroupCollapsed | moveToGroup | returnToServer => cases ha
  | _ => exact (h.call_keeps lowercase rfl hi).arrangement

theorem Apart.call (h : s.Apart) (hs : s.Sound) (i : AppCall) (hi : s.Adopts i) :
    (s.call lowercase i).Apart := by
  cases ha : arranges i with
  | true => exact h.arrange lowercase ha hi
  | false =>
    by_cases hc : ∀ configs, i ≠ .syncNetworks configs
    · exact h.of_groups (groups_of_arrangement (hs.call_arrangement lowercase ha hc hi.fits))
    · push Not at hc
      obtain ⟨configs, rfl⟩ := hc
      exact h.syncNetworks configs

end Calls

section Moves

/-- A move changes the groups only, or takes a channel that no group shows to another place, all
others as they were. -/
def Shifted (s s' : AppState) (id : ConversationId) : Prop :=
  s.Regrouped s' ∨ s'.isGrouped id = false ∧ s'.conversations.Perm s.conversations ∧
    s'.conversations.filter (·.id ≠ id) = s.conversations.filter (·.id ≠ id) ∧
    ∀ c, s.conversation id = some c → ∀ n ≠ c.network, s'.channelOrder n = s.channelOrder n

theorem Shifted.refl (s : AppState) (id : ConversationId) : s.Shifted s id := Or.inl (.refl s)

theorem Regrouped.shifted (h : s.Regrouped s') (h' : s'.Shifted s'' id) : s.Shifted s'' id := by
  obtain ⟨groups, next, rfl⟩ := h
  rcases h' with h' | h'
  · exact Or.inl (Regrouped.trans ⟨groups, next, rfl⟩ h')
  · exact Or.inr h'

theorem filter_moveItem {α : Type} {l : List α} {p : α → Bool} {source target : ℕ}
    (h : ∀ a, l[source]? = some a → p a = false) :
    (moveItem l source target).filter p = l.filter p := by
  unfold moveItem
  cases hs : l[source]? with
  | none => rfl
  | some a =>
    obtain ⟨hlt, rfl⟩ := List.getElem?_eq_some_iff.mp hs
    have hp := h _ hs
    have he : (l.eraseIdx source).filter p = l.filter p := by
      rw [List.eraseIdx_eq_take_drop_succ, List.filter_append]
      conv_rhs => rw [← List.take_append_drop source l, List.drop_eq_getElem_cons hlt]
      rw [List.filter_append, List.filter_cons_of_neg (by rw [hp]; decide)]
    dsimp only
    rw [← he]
    rcases Nat.lt_or_ge (l.eraseIdx source).length target with hi | hi
    · rw [List.insertIdx_of_length_lt hi]
    · rw [Arrange.insertIdx_eq hi, List.filter_append,
        List.filter_cons_of_neg (by rw [hp]; decide), ← List.filter_append, List.take_append_drop]

theorem conversation_perm (hi : s.Ids) (hp : s'.conversations.Perm s.conversations) :
    s'.conversation id = s.conversation id := by
  have hn : (s'.conversations.map (·.id)).Nodup := (hp.map _).nodup_iff.mpr hi.nodup
  cases hc : s.conversation id with
  | none =>
    refine List.find?_eq_none.mpr fun c hm => ?_
    exact List.find?_eq_none.mp hc c (hp.mem_iff.mp hm)
  | some c =>
    obtain ⟨hm, rfl⟩ := conversation_mem hc
    exact conversation_eq hn (hp.mem_iff.mpr hm)

theorem isGrouped_congr (hc : s'.conversation id = s.conversation id)
    (hg : s'.groups = s.groups) : s'.isGrouped id = s.isGrouped id := by
  unfold isGrouped groupIndexOf
  rw [hc, hg]

theorem moveItem_shifted (hi : s.Ids) (hng : s.isGrouped id = false) {network : NetworkId}
    (hnet : ∀ c, s.conversation id = some c → c.network = network) {source target : ℕ}
    (hs : ∀ c, s.conversations[source]? = some c → c.id = id)
    (ht : target < s.conversations.length) (order : List String) :
    s.Shifted { s with conversations := moveItem s.conversations source target } id ∧
    s.Shifted (({ s with conversations := moveItem s.conversations source target } :
      AppState).storeChannelOrder network order) id := by
  have hp : (moveItem s.conversations source target).Perm s.conversations := moveItem_perm ht
  have hf : (moveItem s.conversations source target).filter (·.id ≠ id) =
      s.conversations.filter (·.id ≠ id) :=
    filter_moveItem fun c hc => decide_eq_false (not_not.mpr (hs c hc))
  constructor
  · have hcv : ({ s with conversations := moveItem s.conversations source target } :
        AppState).conversation id = s.conversation id := conversation_perm hi hp
    exact Or.inr ⟨(isGrouped_congr hcv rfl).trans hng, hp, hf, fun c _ n _ => rfl⟩
  · obtain ⟨hg, hc, ho⟩ := storeChannelOrder_fields
      { s with conversations := moveItem s.conversations source target } network order
    refine Or.inr ⟨?_, hc ▸ hp, hc ▸ hf, fun c hcs n hn => ?_⟩
    · exact (isGrouped_congr (conversation_perm hi (hc ▸ hp)) hg).trans hng
    · exact ho n (hnet c hcs ▸ hn)

theorem moveShown_shifted (hi : s.Ids) (hng : s.isGrouped id = false) (tree : DisplayTree)
    {network : NetworkId} (hnet : ∀ c, s.conversation id = some c → c.network = network)
    (move : MoveTo) : s.Shifted (s.moveShown tree id network move).1 id := by
  unfold moveShown
  dsimp only
  split
  · exact .refl s id
  rename_i source target hplaces
  obtain ⟨range, hrange, hplaces⟩ := Option.bind_eq_some_iff.mp hplaces
  obtain ⟨fromShown, hfrom, hplaces⟩ := Option.bind_eq_some_iff.mp hplaces
  obtain ⟨source', hsource, hplaces⟩ := Option.bind_eq_some_iff.mp hplaces
  obtain ⟨target', htarget, hplaces⟩ := Option.bind_eq_some_iff.mp hplaces
  split at hplaces
  · cases hplaces
  obtain ⟨rfl, rfl⟩ := Prod.mk.inj (Option.some.inj hplaces)
  have hsid : ∀ c, s.conversations[source']? = some c → c.id = id := by
    intro c hc
    obtain ⟨hlt, hp, -⟩ := List.findIdx?_eq_some_iff_getElem.mp hfrom
    rw [List.getElem?_eq_getElem hlt, Option.some.injEq] at hsource
    rw [hsource, hc] at hp
    exact of_decide_eq_true hp
  have htl : target' < s.conversations.length := by
    have hm := moveTarget_mem (fun _ _ h => List.mem_of_find?_eq_some h) htarget
    have hany := (List.mem_filter.mp hm).2
    by_contra hge
    rw [List.getElem?_eq_none (not_lt.mp hge)] at hany
    cases hany
  obtain ⟨h, h'⟩ := moveItem_shifted hi hng hnet hsid htl
    (({ s with conversations := moveItem s.conversations source' target' } :
      AppState).mergedChannelOrder network)
  split
  · exact h'
  · exact h

theorem moveWithin_shifted (hi : s.Ids) (tree : DisplayTree) {network : NetworkId}
    (hnet : ∀ c, s.conversation id = some c → c.network = network) (move : MoveTo) :
    s.Shifted (s.moveWithin tree id network move).1 id := by
  unfold moveWithin
  split
  · exact Or.inl (moveInGroup_regrouped s tree id move)
  · rename_i hng
    exact moveShown_shifted hi (Bool.eq_false_of_not_eq_true hng) tree hnet move

theorem Apart.returned (h : s.Apart) (id : ConversationId) :
    (s.returnToServer id).1.isGrouped id = false := by
  obtain ⟨groups, next, hr⟩ := returnToServer_regrouped s id
  have hcs : (s.returnToServer id).1.conversation id = s.conversation id := by rw [hr]; rfl
  rw [isGrouped, hcs]
  cases hc : s.conversation id with
  | none => rfl
  | some c =>
    have hno : GroupMember.of c ∉ (s.returnToServer id).1.groups.flatMap (·.members) := by
      unfold AppState.returnToServer
      rw [hc]
      exact (h.leave c).2
    rw [Option.any_some, Option.isSome_eq_false_iff, Option.isNone_iff_eq_none]
    refine List.findIdx?_eq_none_iff.mpr fun g hg => ?_
    rw [← Bool.not_eq_true, List.contains_iff_mem]
    exact fun hm => hno (List.mem_flatMap.mpr ⟨g, hg, hm⟩)

theorem relocate_shifted (hi : s.Ids) (ha : s.Apart) (tree : DisplayTree)
    (id other : ConversationId) : s.Shifted (s.relocate tree id other).1 id := by
  unfold relocate
  split
  swap
  · exact .refl s id
  rename_i source parent moved target hsource hparent hmoved htarget
  split
  · exact .refl s id
  split
  · exact Or.inl (moveToGroup_regrouped s id _ _)
  split
  · exact .refl s id
  have hr := returnToServer_regrouped s id
  have hng := ha.returned id
  dsimp only
  obtain ⟨groups, next, heq⟩ := returnToServer_regrouped s id
  have hri : (s.returnToServer id).1.Ids := by
    rw [heq]
    exact hi.congr rfl rfl
  have hmoved' : (s.returnToServer id).1.conversation id = some moved := by
    rw [heq]
    exact hmoved
  split
  · rename_i i j hfi hfj
    refine hr.shifted (moveItem_shifted hri hng (fun c hc => ?_) (fun c hc => ?_) ?_ _).2
    · rw [hmoved'] at hc
      rw [Option.some.inj hc]
    · obtain ⟨hlt, hp, -⟩ := List.findIdx?_eq_some_iff_getElem.mp hfi
      rw [List.getElem?_eq_getElem hlt, Option.some.injEq] at hc
      exact hc ▸ of_decide_eq_true hp
    · have := (List.findIdx?_eq_some_iff_getElem.mp hfj).1
      split <;> omega
  · exact Or.inl hr

theorem moveConversation_shifted (hi : s.Ids) (ha : s.Apart) (id : ConversationId)
    (move : MoveTo) : s.Shifted (s.moveConversation id move).1 id := by
  unfold moveConversation
  split
  · exact .refl s id
  rename_i c hc
  have hnet : ∀ c', s.conversation id = some c' → c'.network = c.network := fun c' hc' => by
    rw [Option.some.inj (hc'.symm.trans hc)]
  dsimp only
  split
  · split
    · split
      · exact relocate_shifted hi ha _ id _
      · exact moveWithin_shifted hi _ hnet _
    · exact .refl s id
  · exact moveWithin_shifted hi _ hnet _

theorem moveAfter_shifted (hi : s.Ids) (ha : s.Apart) (id other : ConversationId) :
    s.Shifted (s.moveAfter id other).1 id := by
  unfold moveAfter
  dsimp only
  split
  swap
  · exact .refl s id
  split
  · exact .refl s id
  split
  · exact .refl s id
  split
  · exact moveConversation_shifted hi ha id _
  · exact .refl s id
  split
  · exact .refl s id
  split
  · exact Or.inl (moveToGroup_regrouped s id _ _)
  split
  · exact .refl s id
  have hr := returnToServer_regrouped s id
  split
  · exact Or.inl hr
  · refine hr.shifted (moveConversation_shifted ?_ (ha.returnToServer id) id .last)
    obtain ⟨groups, next, heq⟩ := hr
    rw [heq]
    exact hi.congr rfl rfl

end Moves

section Runs

variable (lowercase : String → String)

def regroups : AppCall → Bool
  | .setGroups .. | .createGroup .. | .renameGroup .. | .deleteGroup .. | .setGroupCollapsed ..
  | .moveToGroup .. | .returnToServer .. => true
  | _ => false

theorem call_regrouped (s : AppState) {i : AppCall} (hi : regroups i = true) :
    s.Regrouped (s.call lowercase i) := by
  cases i with
  | setGroups specs => exact setGroups_regrouped lowercase s specs
  | createGroup name => exact createGroup_regrouped lowercase s name
  | renameGroup id name => exact renameGroup_regrouped lowercase s id name
  | deleteGroup id => exact regrouped_groups s _
  | setGroupCollapsed id collapsed => exact setGroupCollapsed_regrouped s id collapsed
  | moveToGroup id group before => exact moveToGroup_regrouped s id group before
  | returnToServer id => exact returnToServer_regrouped s id
  | _ => cases hi

theorem parentOf_cases (h : s.Sound) (ha : s.Apart) (hc : c ∈ s.conversations) :
    s.displayTree.parentOf c.id = some (.server c.network) ∨
      ∃ g ∈ s.groups, GroupMember.of c ∈ g.members ∧
        s.displayTree.parentOf c.id = some (.group g.id) := by
  by_cases hin : c.id ∈ s.grouped
  · obtain ⟨g, hg, b, hb, hbid, -, hm, -, hs⟩ := mem_grouped hin
    obtain rfl := List.inj_on_of_nodup_map h.ids.nodup hb hc hbid
    exact Or.inr ⟨g, hg, hm, parentOf_group h.ids ha hg hs⟩
  · exact Or.inl (parentOf_own h hc hin)

theorem withNetworks_groups (configs : List NetworkConfig) : (withNetworks configs).groups = [] := by
  have hrun : ∀ s : AppState, (configs.foldl (fun s config =>
      ({ s with
        networks := s.networks ++ [⟨config.id, config.name⟩]
        statuses := s.statuses.insert config.id (.disconnected "Not connected.") } :
        AppState).ensureConfiguredChannels config.id config.channels |>.1) s).groups =
      s.groups := by
    intro s
    refine List.foldlRecOn (motive := fun t : AppState => t.groups = s.groups) configs _ rfl
      fun t ht config _ => ?_
    exact (groups_of_arrangement (ensureAll_arrangement _ config.id config.channels)).trans ht
  unfold withNetworks
  dsimp only
  split
  · exact hrun _
  · exact hrun _

theorem run_apart (configs : List NetworkConfig) (is : List AppCall)
    (hd : (configs.map (·.id)).Nodup)
    (h : Machine.Along Adopts (AppState.call lowercase) (withNetworks configs) is) :
    (run lowercase configs is).Sound ∧ (run lowercase configs is).Apart := by
  refine Machine.exec_invariant (fun s => s.Sound ∧ s.Apart) (fun s i hs hi => ?_) ⟨?_, ?_⟩ h
  · exact ⟨hs.1.call lowercase i hi.fits, hs.2.call lowercase hs.1 i hi⟩
  · exact withNetworks_sound hd
  · rw [Apart, withNetworks_groups configs]
    exact List.nodup_nil

/-- The tree shows every conversation once, members are in one group at most and operations on groups
leave the rest alone; and where a conversation is shown is what is answered without the tree exactly
when the channels of groups are told apart by their folded names. -/
theorem tree_shows_once (configs : List NetworkConfig) (is : List AppCall)
    (hd : (configs.map (·.id)).Nodup)
    (h : Machine.Along Adopts (AppState.call lowercase) (withNetworks configs) is) :
    let s := run lowercase configs is
    s.displayTree.conversations.Nodup ∧
    (∀ id, id ∈ s.displayTree.conversations ↔ s.Known id) ∧
    (∀ c ∈ s.conversations, s.displayTree.parentOf c.id = some (.server c.network) ∨
      ∃ g ∈ s.groups, GroupMember.of c ∈ g.members ∧
        s.displayTree.parentOf c.id = some (.group g.id)) ∧
    (∀ e ∈ s.displayTree.servers, ∃ cs : List Conversation, cs.Sublist s.conversations ∧
      e.2 = cs.map (·.id) ∧ (∀ c ∈ cs, c.network = e.1) ∧
      cs.Pairwise fun a b => a.isPrivate = true → b.isPrivate = true) ∧
    (s.groups.flatMap (·.members)).Nodup ∧
    (∀ i, regroups i = true → s.Regrouped (s.call lowercase i)) ∧
    (∀ id move, s.Shifted (s.moveConversation id move).1 id) ∧
    (∀ id other, s.Shifted (s.moveAfter id other).1 id) ∧
    ((∀ id, s.displayParent id = s.displayTree.parentOf id) ↔ s.Distinguished) := by
  obtain ⟨hs, ha⟩ := run_apart lowercase configs is hd h
  refine ⟨tree_nodup hs ha, fun id => mem_tree_iff hs, fun c hc => parentOf_cases hs ha hc,
    fun e he => server_order hs he, ha, fun i hi => call_regrouped lowercase _ hi,
    moveConversation_shifted hs.ids ha, moveAfter_shifted hs.ids ha, displayParent_iff hs ha⟩

theorem tree_shows_once_grouped :
    let s := run toAsciiLowercase [⟨1, "a", ["#x", "#y"]⟩] [.createGroup "g", .moveToGroup 1 1 none]
    (∀ id, s.displayParent id = s.displayTree.parentOf id) ↔ s.Distinguished := by
  refine (tree_shows_once toAsciiLowercase _ _ ?_ ?_).2.2.2.2.2.2.2.2
  · decide
  · exact ⟨trivial, trivial, trivial⟩

/-- Of two configured channels that differ in case, the one that was put into a group is shown under
its server and said to be in the group. -/
theorem parent_disagrees :
    ¬ ∀ (configs : List NetworkConfig) (is : List AppCall), (configs.map (·.id)).Nodup →
      Machine.Along Adopts (AppState.call toAsciiLowercase) (withNetworks configs) is →
      ∀ id, (run toAsciiLowercase configs is).displayParent id =
        (run toAsciiLowercase configs is).displayTree.parentOf id := by
  intro h
  have heq := h [⟨1, "a", ["#A", "#a"]⟩] [.createGroup "g", .moveToGroup 1 1 none] (by decide)
    ⟨trivial, trivial, trivial⟩ 1
  revert heq
  decide +kernel

end Runs

end AppState

end CayenChat.App
