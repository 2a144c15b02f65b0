import CayenChat.App.Soundness

/-! # Conversations come and go

A conversation is added behind those it belongs to, one that is removed is
removed from every table, and what is arranged stays where it may be.
-/

namespace CayenChat.App

namespace AppState

variable {s s' s'' : AppState} {id : ConversationId} {network : NetworkId}

section Arranging

def Remembers (s s' : AppState) : Prop :=
  ∀ network order, s'.channelOrders.lookup network = some order →
    s.channelOrders.lookup network = some order ∨ order.length ≤ maxOrderNames

theorem Remembers.of_eq (h : s'.channelOrders = s.channelOrders) : s.Remembers s' := by
  intro n order ho
  exact Or.inl (h ▸ ho)

theorem Remembers.trans (h : s.Remembers s') (h' : s'.Remembers s'') : s.Remembers s'' := by
  intro n order ho
  rcases h' n order ho with ho | ho
  · exact h n order ho
  · exact Or.inr ho

theorem Regrouped.remembers (h : s.Regrouped s') : s.Remembers s' := by
  obtain ⟨groups, next, rfl⟩ := h
  exact .of_eq rfl

theorem storeChannelOrder_remembers (s : AppState) (network : NetworkId) (order : List String) :
    s.Remembers (s.storeChannelOrder network order) := by
  unfold storeChannelOrder
  dsimp only
  split
  · intro n o ho
    dsimp only at ho
    rw [Map.lookup_erase] at ho
    split at ho
    · cases ho
    · exact Or.inl ho
  · intro n o ho
    dsimp only at ho
    rw [Map.lookup_insert] at ho
    split at ho
    · rw [← Option.some.inj ho]
      exact Or.inr (List.length_take_le _ _)
    · exact Or.inl ho

theorem setChannelOrder_remembers (s : AppState) (network : NetworkId) (order : List String) :
    s.Remembers (s.setChannelOrder network order) := by
  refine (storeChannelOrder_remembers s network order).trans (.of_eq ?_)
  unfold setChannelOrder applyChannelOrder
  split
  · rfl
  split
  · rfl
  · rfl

theorem moveWithin_remembers (s : AppState) (tree : DisplayTree) (id : ConversationId)
    (network : NetworkId) (move : MoveTo) :
    s.Remembers (s.moveWithin tree id network move).1 := by
  unfold moveWithin
  split
  · exact (moveInGroup_regrouped s tree id move).remembers
  · unfold moveShown
    dsimp only
    split
    · exact .of_eq rfl
    · split
      · exact Remembers.trans (.of_eq rfl) (storeChannelOrder_remembers _ _ _)
      · exact .of_eq rfl

theorem relocate_remembers (s : AppState) (tree : DisplayTree) (id other : ConversationId) :
    s.Remembers (s.relocate tree id other).1 := by
  unfold relocate
  split
  swap
  · exact .of_eq rfl
  split
  · exact .of_eq rfl
  split
  · exact (moveToGroup_regrouped s id _ _).remembers
  · have hr := (returnToServer_regrouped s id).remembers
    split
    · exact .of_eq rfl
    · dsimp only
      split
      · exact (hr.trans (.of_eq rfl)).trans (storeChannelOrder_remembers _ _ _)
      · exact hr

theorem moveConversation_remembers (s : AppState) (id : ConversationId) (move : MoveTo) :
    s.Remembers (s.moveConversation id move).1 := by
  unfold moveConversation
  split
  · exact .of_eq rfl
  dsimp only
  split
  · split
    · split
      · exact relocate_remembers s _ id _
      · exact moveWithin_remembers s _ id _ _
    · exact .of_eq rfl
  · exact moveWithin_remembers s _ id _ _

theorem moveAfter_remembers (s : AppState) (id other : ConversationId) :
    s.Remembers (s.moveAfter id other).1 := by
  unfold moveAfter
  dsimp only
  split
  swap
  · exact .of_eq rfl
  split
  · exact .of_eq rfl
  split
  · exact .of_eq rfl
  split
  · exact moveConversation_remembers s id _
  · exact .of_eq rfl
  split
  · exact .of_eq rfl
  split
  · exact (moveToGroup_regrouped s id _ _).remembers
  split
  · exact .of_eq rfl
  have hr := (returnToServer_regrouped s id).remembers
  split
  · exact hr
  · exact hr.trans (moveConversation_remembers _ id _)

theorem call_remembers (lowercase : String → String) {i : AppCall} (hi : arranges i = true) :
    s.Remembers (s.call lowercase i) := by
  cases i with
  | setChannelOrder network order => exact setChannelOrder_remembers s network order
  | moveConversation id move => exact moveConversation_remembers s id move
  | moveAfter id other => exact moveAfter_remembers s id other
  | setGroups specs => exact (setGroups_regrouped lowercase s specs).remembers
  | createGroup name => exact (createGroup_regrouped lowercase s name).remembers
  | renameGroup id name => exact (renameGroup_regrouped lowercase s id name).remembers
  | deleteGroup id => exact .of_eq rfl
  | setGroupCollapsed id collapsed =>
    exact (setGroupCollapsed_regrouped s id collapsed).remembers
  | moveToGroup id group before => exact (moveToGroup_regrouped s id group before).remembers
  | returnToServer id => exact (returnToServer_regrouped s id).remembers
  | _ => cases hi

theorem Sound.tidy (h : s.Sound) : s.Tidy := ⟨h.ids.nodup, h.grouped⟩

theorem Sound.arrange (h : s.Sound) (ha : s.Arranged s') (hr : s.Remembers s') : s'.Sound := by
  obtain ⟨cs, orders, ranks, groups, next, hp, hk, rfl⟩ := ha
  have ht : ({ s with conversations := cs } : AppState).Sound := by
    refine h.keep ⟨⟨hp.map _, rfl, rfl, rfl, rfl, rfl, fun t j hj => ?_⟩, hk h.tidy, rfl⟩
    left
    cases t <;> exact hj
  refine ⟨⟨ht.ids.congr rfl rfl, fun t j hj => ?_, ht.selection, ht.keyed, ht.named, ht.peers,
    ht.few, ht.fewPrivate, fun n order ho => ?_⟩, ⟨ht.distinct, ht.homed, ht.grouped⟩, ht.server,
    ht.nothing⟩
  · have hj' : ({ s with conversations := cs } : AppState).Holds j t := by cases t <;> exact hj
    exact ht.tables t j hj'
  · rcases hr n order ho with ho | ho
    · exact h.remembered n order ho
    · exact ho

end Arranging

section Adding

def Precedes (s : AppState) (a b : NetworkId × Bool) : Prop :=
  s.networkPosition a.1 < s.networkPosition b.1 ∨ a.1 = b.1 ∧ (a.2 = true → b.2 = true)

variable {a b c : NetworkId × Bool}

theorem Precedes.trans (h : s.Precedes a b) (h' : s.Precedes b c) : s.Precedes a c := by
  rcases h with h | ⟨hn, hp⟩
  · rcases h' with h' | ⟨hn', -⟩
    · exact Or.inl (h.trans h')
    · exact Or.inl (hn' ▸ h)
  · rcases h' with h' | ⟨hn', hp'⟩
    · exact Or.inl (hn ▸ h')
    · exact Or.inr ⟨hn.trans hn', hp' ∘ hp⟩

theorem Precedes.refl (s : AppState) (a : NetworkId × Bool) : s.Precedes a a :=
  Or.inr ⟨rfl, fun h => h⟩

theorem Grouped.precedes (h : s.Grouped) {i j : ℕ} (hij : i ≤ j)
    (hj : j < s.conversations.length) :
    s.Precedes s.conversations[i].place s.conversations[j].place := by
  rcases hij.eq_or_lt with rfl | hij
  · exact .refl s _
  · have hg := List.pairwise_iff_getElem.mp h
    simp only [List.length_map, List.getElem_map] at hg
    exact hg i j (hij.trans hj) hj hij

theorem Grouped.take_precedes (h : s.Grouped) {i j : ℕ} (hij : i ≤ j + 1)
    (hj : j < s.conversations.length) (ha : s.Precedes s.conversations[j].place a) :
    ∀ c ∈ s.conversations.take i, s.Precedes c.place a := by
  intro c hc
  obtain ⟨k, hk, rfl⟩ := List.getElem_of_mem hc
  rw [List.length_take] at hk
  rw [List.getElem_take]
  exact (h.precedes (by omega) hj).trans ha

theorem Grouped.drop_precedes (h : s.Grouped) {i j : ℕ} (hij : j ≤ i)
    (hj : j < s.conversations.length) (ha : s.Precedes a s.conversations[j].place) :
    ∀ c ∈ s.conversations.drop i, s.Precedes a c.place := by
  intro c hc
  obtain ⟨k, hk, rfl⟩ := List.getElem_of_mem hc
  rw [List.length_drop] at hk
  rw [List.getElem_drop]
  exact ha.trans (h.precedes (by omega) (by omega))

theorem networkPosition_spec (h : s.hasNetwork network = true) :
    ∃ n, s.networks[s.networkPosition network]? = some n ∧ n.id = network := by
  unfold networkPosition
  obtain ⟨n, hn, hid⟩ := List.any_eq_true.mp h
  cases hi : s.networks.findIdx? (·.id = network) with
  | none =>
    rw [List.findIdx?_eq_none_iff.mp hi n hn] at hid
    cases hid
  | some i =>
    obtain ⟨hil, him, -⟩ := List.findIdx?_eq_some_iff_getElem.mp hi
    exact ⟨s.networks[i], List.getElem?_eq_getElem hil, of_decide_eq_true him⟩

theorem networkPosition_inj {m n : NetworkId} (hm : s.hasNetwork m = true)
    (hn : s.hasNetwork n = true) (h : s.networkPosition m = s.networkPosition n) : m = n := by
  obtain ⟨a, ha, rfl⟩ := networkPosition_spec hm
  obtain ⟨b, hb, rfl⟩ := networkPosition_spec hn
  rw [h, hb] at ha
  rw [Option.some.inj ha]

theorem afterLast_spec {p : Conversation → Bool} {i : ℕ} (h : s.afterLast p = some i) :
    ∃ j, ∃ hj : j < s.conversations.length, i = j + 1 ∧ p s.conversations[j] = true ∧
      ∀ k (hk : k < s.conversations.length), j < k → p s.conversations[k] = false := by
  obtain ⟨e, he, rfl⟩ := Option.map_eq_some_iff.mp h
  obtain ⟨hel, hp, hlast⟩ := List.findIdx?_eq_some_iff_getElem.mp he
  rw [List.length_reverse] at hel
  rw [List.getElem_reverse] at hp
  refine ⟨s.conversations.length - 1 - e, by omega, by omega, hp, fun k hk hlt => ?_⟩
  have := hlast (s.conversations.length - 1 - k) (by omega)
  rw [List.getElem_reverse] at this
  simp only [Bool.not_eq_true] at this
  convert this using 3
  omega

theorem afterLast_eq_none {p : Conversation → Bool} (h : s.afterLast p = none) :
    ∀ c ∈ s.conversations, p c = false := by
  intro c hc
  rw [afterLast, Option.map_eq_none_iff] at h
  exact List.findIdx?_eq_none_iff.mp h c (List.mem_reverse.mpr hc)

theorem Placed.empty_precedes (h : s.Placed) (hn : s.hasNetwork network = true) (isPrivate : Bool)
    (hno : ∀ c ∈ s.conversations, c.network ≠ network) :
    (∀ c ∈ s.conversations.take (s.emptyNetworkSlot network),
      s.Precedes c.place (network, isPrivate)) ∧
    ∀ c ∈ s.conversations.drop (s.emptyNetworkSlot network),
      s.Precedes (network, isPrivate) c.place := by
  have hne : ∀ c ∈ s.conversations, ¬ s.networkPosition network < s.networkPosition c.network →
      s.Precedes c.place (network, isPrivate) := by
    intro c hc hle
    refine Or.inl (lt_of_le_of_ne (not_lt.mp hle) fun heq => ?_)
    exact hno c hc (networkPosition_inj (h.homed c hc) hn heq)
  unfold emptyNetworkSlot
  cases hf : s.conversations.findIdx? fun c =>
      s.networkPosition network < s.networkPosition c.network with
  | none =>
    have hall := List.findIdx?_eq_none_iff.mp hf
    constructor
    · intro c hc
      have hc := List.mem_of_mem_take hc
      exact hne c hc (of_decide_eq_false (hall c hc))
    · intro c hc
      rw [Option.getD_none, List.drop_length] at hc
      cases hc
  | some i =>
    obtain ⟨hil, hi, hbefore⟩ := List.findIdx?_eq_some_iff_getElem.mp hf
    constructor
    · intro c hc
      obtain ⟨k, hk, rfl⟩ := List.getElem_of_mem hc
      rw [Option.getD_some, List.length_take] at hk
      rw [List.getElem_take]
      apply hne _ (List.getElem_mem _)
      have := hbefore k (by omega)
      simpa using this
    · exact h.grouped.drop_precedes le_rfl hil (Or.inl (of_decide_eq_true hi))

theorem Placed.index_precedes (h : s.Placed) (hn : s.hasNetwork network = true) (isPrivate : Bool)
    (hp : isPrivate = true ∨
      ∀ c ∈ s.conversations, c.network = network → c.isPrivate = true) {i : ℕ}
    (hi : ((s.afterLast fun c => c.network = network && (isPrivate || !c.isPrivate)).or
      (s.conversations.findIdx? (·.network = network))).getD (s.emptyNetworkSlot network) = i) :
    (∀ c ∈ s.conversations.take i, s.Precedes c.place (network, isPrivate)) ∧
    ∀ c ∈ s.conversations.drop i, s.Precedes (network, isPrivate) c.place := by
  subst hi
  cases ha : s.afterLast fun c => c.network = network && (isPrivate || !c.isPrivate) with
  | some i =>
    obtain ⟨j, hj, rfl, hpj, hlast⟩ := afterLast_spec ha
    simp only [Bool.and_eq_true, decide_eq_true_eq, Bool.or_eq_true, Bool.not_eq_true'] at hpj
    obtain ⟨hjn, hpj⟩ := hpj
    -- behind the last conversation of the network there is no other of it
    obtain rfl : isPrivate = true := by
      rcases hp with hp | hp
      · exact hp
      · rcases hpj with hpj | hpj
        · exact hpj
        · rw [hp _ (List.getElem_mem hj) hjn] at hpj
          cases hpj
    rw [Option.some_or, Option.getD_some]
    constructor
    · exact h.grouped.take_precedes le_rfl hj (Or.inr ⟨hjn, fun _ => rfl⟩)
    · intro c hc
      obtain ⟨k, hk, rfl⟩ := List.getElem_of_mem hc
      rw [List.length_drop] at hk
      have hkn := hlast (j + 1 + k) (by omega) (by omega)
      rw [Bool.true_or, Bool.and_true] at hkn
      rw [List.getElem_drop]
      rcases h.grouped.precedes (show j ≤ j + 1 + k by omega) (by omega) with hlt | ⟨heq, -⟩
      · exact Or.inl (hjn ▸ hlt)
      · exact absurd (heq.symm.trans hjn) (of_decide_eq_false hkn)
  | none =>
    have hnone := afterLast_eq_none ha
    cases hf : s.conversations.findIdx? (·.network = network) with
    | none =>
      exact h.empty_precedes hn isPrivate fun c hc =>
        of_decide_eq_false (List.findIdx?_eq_none_iff.mp hf c hc)
    | some i =>
      -- the first channel goes before the private conversations
      obtain ⟨hil, hi, hbefore⟩ := List.findIdx?_eq_some_iff_getElem.mp hf
      have hin : s.conversations[i].network = network := of_decide_eq_true hi
      obtain rfl : isPrivate = false := by
        have := hnone _ (List.getElem_mem hil)
        rw [hi, Bool.true_and] at this
        exact (Bool.or_eq_false_iff.mp this).1
      rw [Option.none_or, Option.getD_some]
      constructor
      · intro c hc
        obtain ⟨k, hk, rfl⟩ := List.getElem_of_mem hc
        rw [List.length_take] at hk
        rw [List.getElem_take]
        have hkn := hbefore k (by omega)
        rw [Bool.not_eq_true, decide_eq_false_iff_not] at hkn
        rcases h.grouped.precedes (show k ≤ i by omega) hil with hlt | ⟨heq, -⟩
        · exact Or.inl (hin ▸ hlt)
        · exact absurd (heq.trans hin) hkn
      · exact h.grouped.drop_precedes le_rfl hil (Or.inr ⟨hin.symm, fun hf => by cases hf⟩)

theorem Placed.slot_precedes (h : s.Placed) (hn : s.hasNetwork network = true) (isPrivate : Bool)
    (name : String) :
    (∀ c ∈ s.conversations.take (s.conversationSlot network isPrivate name),
      s.Precedes c.place (network, isPrivate)) ∧
    ∀ c ∈ s.conversations.drop (s.conversationSlot network isPrivate name),
      s.Precedes (network, isPrivate) c.place := by
  unfold conversationSlot
  dsimp only
  split
  · rename_i start hstart
    split
    · rename_i hnp
      rw [Bool.not_eq_true'] at hnp
      subst hnp
      obtain ⟨hsl, hs, -⟩ := List.findIdx?_eq_some_iff_getElem.mp hstart
      obtain ⟨hsn, hsp⟩ := Bool.and_eq_true_iff.mp hs
      cases ha : s.afterLast fun c => c.network = network && (false || !c.isPrivate) with
      | none =>
        have := afterLast_eq_none ha _ (List.getElem_mem hsl)
        rw [Bool.false_or, hs] at this
        cases this
      | some i =>
        obtain ⟨j, hj, rfl, hpj, hlast⟩ := afterLast_spec ha
        have hsj : start ≤ j := by
          by_contra hlt
          have := hlast start hsl (by omega)
          rw [Bool.false_or, hs] at this
          cases this
        obtain ⟨hjn, hjp⟩ := Bool.and_eq_true_iff.mp hpj
        rw [Bool.false_or, Bool.not_eq_true'] at hjp
        rw [Bool.not_eq_true'] at hsp
        obtain ⟨hlo, hhi⟩ := channelSlot_mem s network name (show start ≤ j + 1 by omega)
        rw [Option.some_or, Option.getD_some]
        constructor
        · refine h.grouped.take_precedes hhi hj (Or.inr ⟨of_decide_eq_true hjn, fun hf => ?_⟩)
          exact absurd (hf.symm.trans hjp) (by decide)
        · refine h.grouped.drop_precedes hlo hsl (Or.inr ⟨(of_decide_eq_true hsn).symm, ?_⟩)
          exact fun hf => by cases hf
    · rename_i hnp
      rw [Bool.not_eq_true, Bool.not_eq_false'] at hnp
      exact h.index_precedes hn isPrivate (Or.inl hnp) rfl
  · rename_i hstart
    refine h.index_precedes hn isPrivate (Or.inr fun c hc hcn => ?_) rfl
    have := List.findIdx?_eq_none_iff.mp hstart c hc
    simpa [hcn] using this

section New

variable {kind : ConversationKind} {name : String}

def indexed (s : AppState) (network : NetworkId) (kind : ConversationKind) (name : String) :
    Map (NetworkId × String) ConversationId :=
  let key := (network, (s.casemapping network).fold name)
  if kind = .channel ∧ (s.channelIds.lookup key).isNone then
    s.channelIds.insert key s.nextConversationId else s.channelIds

theorem indexed_mono {key : NetworkId × String} {v : ConversationId}
    (h : s.channelIds.lookup key = some v) :
    (s.indexed network kind name).lookup key = some v := by
  unfold indexed
  dsimp only
  split
  · rename_i hc
    rw [AList.lookup_insert_ne, h]
    rintro rfl
    rw [h] at hc
    cases hc.2
  · exact h

theorem of_indexed {key : NetworkId × String} {v : ConversationId}
    (h : (s.indexed network kind name).lookup key = some v) :
    s.channelIds.lookup key = some v ∨
      key = (network, (s.casemapping network).fold name) ∧ v = s.nextConversationId ∧
        kind = .channel := by
  unfold indexed at h
  dsimp only at h
  split at h
  · rename_i hc
    rw [Map.lookup_insert] at h
    split at h
    · exact Or.inr ⟨‹_›, (Option.some.inj h).symm, hc.1⟩
    · exact Or.inl h
  · exact Or.inl h

theorem indexed_new (s : AppState) (network : NetworkId) (name : String) :
    ((s.indexed network .channel name).lookup
      (network, (s.casemapping network).fold name)).isSome := by
  unfold indexed
  dsimp only
  split
  · rw [AList.lookup_insert]
    rfl
  · rename_i hc
    rw [not_and, Option.isNone_iff_eq_none] at hc
    exact Option.isSome_iff_ne_none.mpr (hc rfl)

def newConversation (s : AppState) (network : NetworkId) (kind : ConversationKind) (name : String) :
    Conversation :=
  { id := s.nextConversationId, network, kind, name }

theorem addConversation_eq (s : AppState) (network : NetworkId) (kind : ConversationKind)
    (name : String) :
    s.addConversation network kind name = (s, none) ∨
    s.hasNetwork network = true ∧
      (s.conversations.filter (·.network = network)).length < maxConversationsPerNetwork ∧
      s.addConversation network kind name = ({ s with
        nextConversationId := s.nextConversationId + 1
        channelIds := s.indexed network kind name
        conversations := s.conversations.insertIdx
          (s.conversationSlot network (kind ≠ .channel) name)
          (s.newConversation network kind name) }, some s.nextConversationId) := by
  unfold addConversation
  split
  · exact Or.inl rfl
  · rename_i hc
    rw [Bool.or_eq_true, not_or, Bool.not_eq_true, Bool.not_eq_false', decide_eq_true_eq,
      not_le] at hc
    exact Or.inr ⟨hc.1, hc.2, rfl⟩

def Fresh (s : AppState) (network : NetworkId) (kind : ConversationKind) : Prop :=
  kind = .channel ∨ (∀ c ∈ s.conversations, c.network = network → c.kind ≠ kind) ∧
    (s.conversations.filter fun c => c.network = network && c.isPrivate).length <
      maxPrivateConversationsPerNetwork

theorem Held.add (h : s.Held) (hf : s.Fresh network kind) (name : String) :
    (s.addConversation network kind name).1.Held := by
  have hids := (addConversation_follows s network kind name h.ids).1
  rcases addConversation_eq s network kind name with heq | ⟨-, hroom, heq⟩
  · rwa [heq]
  rw [heq] at hids ⊢
  have hperm : (s.conversations.insertIdx (s.conversationSlot network (kind ≠ .channel) name)
      (s.newConversation network kind name)).Perm
      (s.newConversation network kind name :: s.conversations) :=
    List.perm_insertIdx _ _ (conversationSlot_le s network (kind ≠ .channel) name)
  have hmem : ∀ {c}, c ∈ s.conversations.insertIdx
      (s.conversationSlot network (kind ≠ .channel) name)
      (s.newConversation network kind name) ↔
        c = s.newConversation network kind name ∨ c ∈ s.conversations :=
    hperm.mem_iff.trans List.mem_cons
  have hknown : ∀ {j}, s.Known j → ∃ c ∈ s.conversations.insertIdx
      (s.conversationSlot network (kind ≠ .channel) name)
      (s.newConversation network kind name), c.id = j := by
    rintro j ⟨c, hc, rfl⟩
    exact ⟨c, hmem.mpr (Or.inr hc), rfl⟩
  have hlength : ∀ p : Conversation → Bool, ((s.conversations.insertIdx
      (s.conversationSlot network (kind ≠ .channel) name)
      (s.newConversation network kind name)).filter p).length =
        (s.conversations.filter p).length + if p (s.newConversation network kind name) then 1 else 0 := by
    intro p
    rw [(hperm.filter p).length_eq, List.filter_cons]
    split <;> rfl
  constructor
  · exact hids
  · intro t j hj
    have hj' : s.Holds j t := by cases t <;> exact hj
    exact hknown (h.tables t j hj')
  · intro j hj
    obtain ⟨hk, hm⟩ := h.selection j hj
    exact ⟨hknown hk, hm⟩
  · intro c hc hchan
    rcases hmem.mp hc with rfl | hc
    · obtain rfl : kind = .channel := hchan
      exact indexed_new s network name
    · obtain ⟨v, hv⟩ := Option.isSome_iff_exists.mp (h.keyed c hc hchan)
      exact Option.isSome_iff_exists.mpr ⟨v, indexed_mono hv⟩
  · intro key v hv
    rcases of_indexed hv with hv | ⟨rfl, rfl, rfl⟩
    · obtain ⟨c, hc, hrest⟩ := h.named key v hv
      exact ⟨c, hmem.mpr (Or.inr hc), hrest⟩
    · exact ⟨_, hmem.mpr (Or.inl rfl), rfl, rfl, rfl⟩
  · intro c hc c' hc' hp hn hk
    have hnew : ∀ a ∈ s.conversations, (s.newConversation network kind name).isPrivate = true →
        a.network = network → a.kind = kind → False := by
      intro a ha hap han hak
      rcases hf with rfl | ⟨hno, -⟩
      · exact of_decide_eq_true hap rfl
      · exact hno a ha han hak
    rcases hmem.mp hc with rfl | hc
    · rcases hmem.mp hc' with rfl | hc'
      · rfl
      · exact (hnew c' hc' hp hn.symm hk.symm).elim
    · rcases hmem.mp hc' with rfl | hc'
      · refine (hnew c hc ?_ hn hk).elim
        have hk' : c.kind = (s.newConversation network kind name).kind := hk
        rwa [Conversation.isPrivate, ← hk']
      · exact h.peers c hc c' hc' hp hn hk
  · intro n
    dsimp only
    rw [hlength]
    split
    · rename_i hn
      obtain rfl : network = n := of_decide_eq_true hn
      exact hroom
    · exact h.few n
  · intro n
    dsimp only
    rw [hlength]
    split
    · rename_i hn
      obtain ⟨hn, hp⟩ := Bool.and_eq_true_iff.mp hn
      obtain rfl : network = n := of_decide_eq_true hn
      rcases hf with rfl | ⟨-, hlt⟩
      · exact absurd rfl (of_decide_eq_true hp)
      · exact hlt
    · exact h.fewPrivate n
  · exact h.remembered

theorem Placed.add (h : s.Placed) (kind : ConversationKind) (name : String) :
    (s.addConversation network kind name).1.Placed := by
  rcases addConversation_eq s network kind name with heq | ⟨hn, -, heq⟩
  · rwa [heq]
  rw [heq]
  have hle := conversationSlot_le s network (kind ≠ .channel) name
  constructor
  · exact h.distinct
  · intro c hc
    rcases List.mem_cons.mp ((List.perm_insertIdx _ _ hle).mem_iff.mp hc) with rfl | hc
    · exact hn
    · exact h.homed c hc
  · obtain ⟨hbefore, hbehind⟩ := h.slot_precedes hn (kind ≠ .channel) name
    apply List.pairwise_map.mpr
    exact Arrange.pairwise_insertIdx (List.pairwise_map.mp h.grouped) hle hbefore hbehind

end New

end Adding

section Removing

/-- Conversations are removed, from the tables, the selection and the index too. -/
structure Removes (s s' : AppState) (ids : List ConversationId) : Prop where
  networks : s'.networks = s.networks
  conversations : s'.conversations.Sublist s.conversations
  kept : ∀ c ∈ s.conversations, c ∈ s'.conversations ↔ c.id ∉ ids
  nextConversationId : s'.nextConversationId = s.nextConversationId
  tables : ∀ t j, s'.Holds j t → s.Holds j t ∧ j ∉ ids
  selection : ∀ j, s'.selected = .channel j → s.selected = .channel j ∧ j ∉ ids
  keyOf : ∀ c ∈ s'.conversations, s'.keyOf c = s.keyOf c
  keyed : ∀ c ∈ s'.conversations, c.kind = .channel →
    s'.channelIds.lookup (s.keyOf c) = s.channelIds.lookup (s.keyOf c)
  named : ∀ key j, s'.channelIds.lookup key = some j → s.channelIds.lookup key = some j ∧ j ∉ ids
  remembered : s.Remembers s'

variable {ids : List ConversationId}

theorem Removes.known (h : s.Removes s' ids) {j : ConversationId} (hk : s.Known j) (hj : j ∉ ids) :
    s'.Known j := by
  obtain ⟨c, hc, rfl⟩ := hk
  exact ⟨c, (h.kept c hc).mpr hj, rfl⟩

theorem Held.remove (h : s.Held) (hr : s.Removes s' ids) : s'.Held where
  ids := by
    refine ⟨h.ids.nodup.sublist (hr.conversations.map _), fun c hc => ?_⟩
    rw [hr.nextConversationId]
    exact h.ids.fresh c (hr.conversations.subset hc)
  tables t j hj := by
    obtain ⟨hj, hno⟩ := hr.tables t j hj
    exact hr.known (h.tables t j hj) hno
  selection j hj := by
    obtain ⟨hj, hno⟩ := hr.selection j hj
    obtain ⟨hk, hu, hh⟩ := h.selection j hj
    exact ⟨hr.known hk hno, fun hm => hu (hr.tables .unread j hm).1,
      fun hm => hh (hr.tables .highlighted j hm).1⟩
  keyed c hc hchan := by
    rw [hr.keyOf c hc, hr.keyed c hc hchan]
    exact h.keyed c (hr.conversations.subset hc) hchan
  named key j hj := by
    obtain ⟨hj, hno⟩ := hr.named key j hj
    obtain ⟨c, hc, rfl, hchan, hkey⟩ := h.named key j hj
    have hc' := (hr.kept c hc).mpr hno
    exact ⟨c, hc', rfl, hchan, (hr.keyOf c hc').trans hkey⟩
  peers c hc c' hc' hp hn hk :=
    h.peers c (hr.conversations.subset hc) c' (hr.conversations.subset hc') hp hn hk
  few network := ((hr.conversations.filter _).length_le).trans (h.few network)
  fewPrivate network := ((hr.conversations.filter _).length_le).trans (h.fewPrivate network)
  remembered network order ho := by
    rcases hr.remembered network order ho with ho | ho
    · exact h.remembered network order ho
    · exact ho

theorem Placed.remove (h : s.Placed) (hr : s.Removes s' ids) : s'.Placed where
  distinct := hr.networks ▸ h.distinct
  homed c hc := by
    rw [hasNetwork, hr.networks]
    exact h.homed c (hr.conversations.subset hc)
  grouped := by
    unfold Grouped networkPosition
    rw [hr.networks]
    exact h.grouped.sublist (hr.conversations.map _)

theorem of_forget {t : Table} {j : ConversationId}
    (h : (s.forgetConversation network id).Holds j t) : s.Holds j t ∧ j ≠ id := by
  cases t with
  | unread | highlighted | activeChannels =>
    obtain ⟨hne, hm⟩ := Finset.mem_erase.mp h
    exact ⟨hm, hne⟩
  | attention =>
    obtain ⟨x, hx⟩ := h
    obtain ⟨hm, hne⟩ := List.mem_filter.mp hx
    exact ⟨⟨x, hm⟩, of_decide_eq_true hne⟩
  | duplicates | pendingHistory | historyBlocks | olderHistory | resumePoints =>
    exact Map.of_lookup_erase h
  | previousChannel =>
    dsimp only [Holds, forgetConversation] at h ⊢
    split at h
    · cases h
    · rename_i hne
      exact ⟨h, fun heq => hne (heq ▸ h)⟩

def kept (s : AppState) : List Network × List Conversation × ConversationId ×
    Map (NetworkId × String) ConversationId × Map NetworkId CaseMapping ×
    Map NetworkId (List String) :=
  (s.networks, s.conversations, s.nextConversationId, s.channelIds, s.casemappings,
    s.channelOrders)

def forgetAll (s : AppState) (network : NetworkId) (ids : List ConversationId) : AppState :=
  ids.foldl (fun s id => s.forgetConversation network id) s

theorem forgetAll_kept (s : AppState) (network : NetworkId) (ids : List ConversationId) :
    (s.forgetAll network ids).kept = s.kept := by
  induction ids generalizing s with
  | nil => rfl
  | cons id ids ih => exact ih (s.forgetConversation network id)

theorem of_forgetAll {t : Table} {j : ConversationId} (h : (s.forgetAll network ids).Holds j t) :
    s.Holds j t ∧ j ∉ ids := by
  induction ids generalizing s with
  | nil => exact ⟨h, List.not_mem_nil⟩
  | cons id ids ih =>
    obtain ⟨h, hno⟩ := ih h
    obtain ⟨h, hne⟩ := of_forget h
    exact ⟨h, List.not_mem_cons_of_ne_of_not_mem hne hno⟩

theorem forgetAll_selected (s : AppState) (network : NetworkId) (ids : List ConversationId) :
    (s.forgetAll network ids).selected = .server network ∨
      (s.forgetAll network ids).selected = s.selected ∧
        ∀ j ∈ ids, s.selected ≠ .channel j := by
  induction ids generalizing s with
  | nil => exact Or.inr ⟨rfl, fun j hj => by cases hj⟩
  | cons id ids ih =>
    have hsel : (s.forgetConversation network id).selected =
        if s.selected = .channel id then .server network else s.selected := rfl
    rcases ih (s.forgetConversation network id) with h | ⟨h, hno⟩
    · exact Or.inl h
    · rw [hsel] at h hno
      split at h
      · exact Or.inl h
      · rename_i hne
        rw [if_neg hne] at hno
        refine Or.inr ⟨h, fun j hj => ?_⟩
        rcases List.mem_cons.mp hj with rfl | hj
        · exact hne
        · exact hno j hj

theorem removeConversations_removes (h : s.Held) (network : NetworkId) :
    s.Removes (s.removeConversations network).1 (s.conversationsOf network) := by
  set s₁ : AppState := { s with
    conversations := s.conversations.filter (·.network ≠ network)
    channelIds := Map.retain (fun key => key.1 ≠ network) s.channelIds
    casemappings := s.casemappings.erase network } with hs₁
  change s.Removes (s₁.forgetAll network (s.conversationsOf network)) _
  have hkept := forgetAll_kept s₁ network (s.conversationsOf network)
  simp only [AppState.kept, Prod.mk.injEq] at hkept
  obtain ⟨hn, hc, hx, hi, hm, ho⟩ := hkept
  have hmem : ∀ c, c ∈ s₁.conversations ↔ c ∈ s.conversations ∧ c.network ≠ network := by
    intro c
    rw [hs₁, List.mem_filter, decide_eq_true_eq]
  constructor
  · exact hn
  · rw [hc]
    exact List.filter_sublist
  · intro c hcs
    rw [hc, hmem, mem_conversationsOf h.ids.nodup hcs]
    exact and_iff_right hcs
  · exact hx
  · intro t j hj
    obtain ⟨hj, hno⟩ := of_forgetAll hj
    refine ⟨?_, hno⟩
    cases t <;> exact hj
  · intro j hj
    rcases forgetAll_selected s₁ network (s.conversationsOf network) with hs | ⟨hs, hno⟩
    · rw [hs] at hj
      cases hj
    · rw [hs] at hj
      exact ⟨hj, fun hm => hno j hm hj⟩
  · intro c hcs
    rw [hc, hmem] at hcs
    unfold keyOf casemapping
    rw [hm, hs₁, Map.lookup_erase, if_neg hcs.2]
  · intro c hcs _
    rw [hc, hmem] at hcs
    rw [hi, hs₁, Map.lookup_retain, if_pos]
    exact decide_eq_true hcs.2
  · intro key j hj
    rw [hi, hs₁, Map.lookup_retain] at hj
    split at hj
    · rename_i hkey
      obtain ⟨c, hcs, rfl, -, rfl⟩ := h.named key j hj
      refine ⟨hj, fun hmem => ?_⟩
      exact of_decide_eq_true hkey ((mem_conversationsOf h.ids.nodup hcs).mp hmem)
    · cases hj
  · exact .of_eq ho

theorem closePrivate_removes (h : s.Held) (id : ConversationId) :
    ∃ ids, s.Removes (s.closePrivate id).1 ids := by
  unfold closePrivate
  split
  · refine ⟨[], rfl, .refl _, fun c hc => ?_, rfl, fun t j hj => ⟨hj, List.not_mem_nil⟩,
      fun j hj => ⟨hj, List.not_mem_nil⟩, fun c _ => rfl, fun c _ _ => rfl,
      fun key j hj => ⟨hj, List.not_mem_nil⟩, .of_eq rfl⟩
    exact iff_of_true hc List.not_mem_nil
  rename_i c hf
  have hcid : c.id = id ∧ c.isPrivate = true := by
    have := List.find?_some hf
    exact (Bool.and_eq_true_iff.mp this).imp_left of_decide_eq_true
  refine ⟨[id], rfl, List.eraseP_sublist, fun a ha => ?_, rfl, fun t j hj => ?_, fun j hj => ?_,
    fun a _ => rfl, fun a _ _ => rfl, fun key j hj => ⟨hj, ?_⟩, .of_eq rfl⟩
  · exact (mem_eraseP h.ids.nodup hf a).trans
      ((and_iff_right ha).trans (not_congr List.mem_singleton.symm))
  · obtain ⟨hj, hne⟩ := of_forget hj
    refine ⟨?_, List.mem_singleton.not.mpr hne⟩
    cases t <;> exact hj
  · dsimp only [forgetConversation] at hj
    split at hj
    · cases hj
    · rename_i hne
      exact ⟨hj, fun hm => hne (List.mem_singleton.mp hm ▸ hj)⟩
  · obtain ⟨a, ha, rfl, hchan, -⟩ := h.named key j hj
    rw [List.mem_singleton]
    rintro rfl
    have : c = a := List.inj_on_of_nodup_map h.ids.nodup (List.mem_of_find?_eq_some hf) ha hcid.1
    exact of_decide_eq_true hcid.2 (this ▸ hchan)

end Removing

end AppState

end CayenChat.App
