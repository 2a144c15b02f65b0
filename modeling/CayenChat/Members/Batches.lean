import CayenChat.App.Networks
import CayenChat.Members.Selection
import Mathlib.Data.List.Sort
import Mathlib.Data.Prod.Lex

/-! # Member lists in a batch

The events of a connection are handled in batches. Of a member list that a later one of the channel
replaces only who is not in it matters; all else is the same as if it had been handled in full.
-/

namespace CayenChat.Members
open App Machine

variable {ε σ : Type*}

/-- A member list, what sets how names are compared, or any other event of a connection. -/
inductive WorkerEvent (ε : Type*)
  | names (channel : String) (users : List String)
  | caseMapping (mapping : CaseMapping)
  | transportConnected (e : ε)
  | other (e : ε)

/-- The channels that have a list ahead, and which lists of the batch a later one replaces. -/
def superseded : List (WorkerEvent ε) → Finset String × List Bool
  | [] => (∅, [])
  | .names channel _ :: batch =>
    let later := (superseded batch).1
    (insert channel later, decide (channel ∈ later) :: (superseded batch).2)
  | .caseMapping _ :: batch | .transportConnected _ :: batch => (∅, false :: (superseded batch).2)
  | .other _ :: batch => ((superseded batch).1, false :: (superseded batch).2)

def supersededRosters (batch : List (WorkerEvent ε)) : List Bool := (superseded batch).2

def rosterKey (lower : String → String) (member : String) : Bool ×ₗ String ×ₗ String :=
  toLex (!startsWithAny ['~', '&', '@', '%'] member,
    toLex (lower (nickname member), nickname member))

def sortedMembers (lower : String → String) (members : List String) : List String :=
  (members.filter fun member => nickname member ≠ "").insertionSort fun left right =>
    rosterKey lower left ≤ rosterKey lower right

def handlerCall : AppCall → Bool
  | .syncNetworks .. | .resetNetwork .. | .setCasemapping .. | .closePrivate .. => false
  | .dispatch (.selectChannel _) => true
  | .dispatch _ => false
  | i => !AppState.arranges i

/-- How the other events are handled: which calls are made, how often conversations are accessed,
and what becomes of all that is not modelled. No member list and no choice of members is read. -/
structure Handler (lowercase : String → String) (ε σ : Type*) where
  calls : ε → AppState → σ → List AppCall
  accesses : ε → AppState → σ → ℕ
  rest : ε → AppState → σ → σ
  made : ∀ e s r, s.Sound →
    Along (fun s i => handlerCall i = true ∧ s.Fits i) (AppState.call lowercase) s (calls e s r)

/-- The application state with the member lists, the chosen members, and the rest. -/
structure BatchView (σ : Type*) where
  state : AppState
  /-- Counts the accesses that may change a conversation. -/
  logRevision : ℕ := 0
  rosters : ConversationId → List String
  selection : MemberSelection
  rest : σ

def clears (s : AppState) : AppCall → ConversationId → Bool
  | .partedChannel network name, id => s.channelId network name = some id
  | .setStatus network (.disconnected _), id =>
    s.hasNetwork network && (s.conversation id).any (·.network = network)
  | _, _ => false

namespace BatchView

variable (lower lowercase : String → String) (network : NetworkId) (H : Handler lowercase ε σ)

def setMembers (view : BatchView σ) (name : String) (members : List String) : BatchView σ :=
  match view.state.channelId network name with
  | some id =>
    { view with
      logRevision := view.logRevision + 1
      rosters := if (view.state.conversation id).isSome then
        Function.update view.rosters id (sortedMembers lower members) else view.rosters }
  | none => view

def call (v : AppState × (ConversationId → List String)) (i : AppCall) :
    AppState × (ConversationId → List String) :=
  (v.1.call lowercase i, fun id => if clears v.1 i id then [] else v.2 id)

variable {lowercase}

def handleOther (view : BatchView σ) (e : ε) : BatchView σ :=
  let v := exec (call lowercase) (view.state, view.rosters) (H.calls e view.state view.rest)
  { state := v.1
    logRevision := view.logRevision + H.accesses e view.state view.rest
    rosters := v.2
    selection := view.selection
    rest := H.rest e view.state view.rest }

def handleNames (view : BatchView σ) (channel : String) (users : List String) : BatchView σ :=
  let view := view.setMembers lower network channel users
  match view.state.channelId network channel with
  | some id =>
    if (view.state.conversation id).isSome then
      { view with selection := view.selection.retainPresent id (view.rosters id) }
    else view
  | none => view

def handleEvent (view : BatchView σ) : WorkerEvent ε → BatchView σ
  | .names channel users => view.handleNames lower network channel users
  | .caseMapping mapping => { view with state := view.state.setCasemapping network mapping }
  | .transportConnected e =>
    handleOther H { view with state := view.state.setCasemapping network default } e
  | .other e => view.handleOther H e

def skipNames (view : BatchView σ) (channel : String) (users : List String) : BatchView σ :=
  match view.state.channelId network channel with
  | some id => { view with selection := view.selection.retainPresent id users }
  | none => view

def handleMarked (view : BatchView σ) : WorkerEvent ε × Bool → BatchView σ
  | (.names channel users, true) => view.skipNames network channel users
  | (e, _) => view.handleEvent lower network H e

def handleEvents (view : BatchView σ) (batch : List (WorkerEvent ε)) : BatchView σ :=
  exec (handleMarked lower network H) view (batch.zip (supersededRosters batch))

end BatchView

/-! ## Who is in a roster -/

variable {lower lowercase : String → String} {network : NetworkId} {H : Handler lowercase ε σ}
  {users members present : List String} {key name channel : String} {s : AppState}
  {id : ConversationId} {i : AppCall} {a b : MemberSelection} {later : Finset String}
  {short full : BatchView σ} {e : ε}

theorem keyOf_eq_empty (member : String) : keyOf member = "" ↔ nickname member = "" := by
  rw [keyOf, nicknameKey, CaseMapping.fold, ← String.toList_inj, String.toList_ofList,
    String.toList_empty, List.map_eq_nil_iff, ← String.toList_empty, String.toList_inj]

theorem mem_sortedMembers : key ∈ (sortedMembers lower users).map keyOf ↔
    key ∈ users.map keyOf ∧ key ≠ "" := by
  simp only [sortedMembers, List.mem_map, List.mem_insertionSort, List.mem_filter,
    decide_eq_true_eq, ne_eq, ← keyOf_eq_empty]
  constructor
  · rintro ⟨member, ⟨hmember, hne⟩, rfl⟩
    exact ⟨⟨member, hmember, rfl⟩, hne⟩
  · rintro ⟨⟨member, hmember, rfl⟩, hne⟩
    exact ⟨member, ⟨hmember, hne⟩, rfl⟩

namespace MemberSelection

/-- The same choice but for the empty key, which is no nickname's. -/
structure SameNamed (a b : MemberSelection) : Prop where
  conversation : a.conversation = b.conversation
  chosen : ∀ p : String → Bool, p "" = false → a.chosen.filter p = b.chosen.filter p
  anchor : ∀ p : String → Bool, p "" = false → a.anchor.filter p = b.anchor.filter p

theorem SameNamed.refl (a : MemberSelection) : a.SameNamed a :=
  ⟨rfl, fun _ _ => rfl, fun _ _ => rfl⟩

theorem SameNamed.retain (h : a.SameNamed b) (hkeys : ∀ key, key ≠ "" →
      (key ∈ users.map keyOf ↔ key ∈ members.map keyOf)) :
    (a.retainPresent id users).SameNamed (b.retainPresent id members) := by
  by_cases hconv : b.conversation = some id
  · rw [retainPresent_of_eq (h.conversation.trans hconv), retainPresent_of_eq hconv]
    have hand : ∀ p : String → Bool, p "" = false →
        (fun key => p key && (users.map keyOf).contains key) =
          fun key => p key && (members.map keyOf).contains key := by
      intro p hp
      funext key
      by_cases hkey : key = ""
      · rw [hkey, hp, Bool.false_and, Bool.false_and]
      · rw [List.contains_eq_mem, List.contains_eq_mem, decide_eq_decide.mpr (hkeys key hkey)]
    refine ⟨h.conversation, fun p hp => ?_, fun p hp => ?_⟩
    · rw [List.filter_filter, List.filter_filter, ← hand p hp]
      exact h.chosen _ (by rw [hp, Bool.false_and])
    · have hcomm : (fun key => (users.map keyOf).contains key && p key) =
          fun key => (members.map keyOf).contains key && p key := by
        funext key
        rw [Bool.and_comm, congrFun (hand p hp) key, Bool.and_comm]
      rw [Option.filter_filter, Option.filter_filter, ← hcomm]
      exact h.anchor _ (by rw [hp, Bool.and_false])
  · rw [retainPresent_of_ne (h.conversation ▸ hconv), retainPresent_of_ne hconv]
    exact h

theorem SameNamed.retain_eq (h : a.SameNamed b) (hconv : b.conversation = some id)
    (hkeys : "" ∉ members.map keyOf) : a.retainPresent id members = b.retainPresent id members := by
  have hnone : (members.map keyOf).contains "" = false := by simpa using hkeys
  rw [retainPresent_of_eq (h.conversation.trans hconv), retainPresent_of_eq hconv,
    h.chosen _ hnone, h.anchor _ hnone, h.conversation]

end MemberSelection

/-! ## Names stay names of their conversations -/

theorem handlerCall_channelId (h : s.Sound) (hi : handlerCall i = true) (hf : s.Fits i)
    (hid : s.channelId network name = some id) :
    (s.call lowercase i).channelId network name = some id := by
  have hadd : ∀ (network' : NetworkId) (kind : ConversationKind) (name' : String),
      (s.addConversation network' kind name').1.channelId network name = some id := by
    intro network' kind name'
    obtain heq | ⟨-, -, heq⟩ := s.addConversation_eq network' kind name'
    · rw [heq]
      exact hid
    · rw [heq]
      exact AppState.indexed_mono hid
  have hensure : ∀ (network' : NetworkId) (name' : String),
      (s.ensureChannel network' name').1.channelId network name = some id := by
    intro network' name'
    unfold AppState.ensureChannel
    split
    · exact hid
    · exact hadd ..
  have hkept : ∀ {s s' : AppState}, s.Covers s' → s.channelId network name = some id →
      s'.channelId network name = some id := by
    intro s s' hc hid
    rw [AppState.channelId, AppState.casemapping, hc.channelIds, hc.casemappings]
    exact hid
  cases i with
  | joinedChannel network' name' =>
    have := hensure network' name'
    unfold AppState.call AppState.joinedChannel
    dsimp only
    split <;> exact this
  | privateConversation network' peerKey name' create =>
    unfold AppState.call AppState.privateConversation
    dsimp only
    split
    · exact hid
    · split
      · exact hid
      · have := hadd network' (.privateTo peerKey) name'
        split
        · exact this
        · dsimp only
          split <;> exact this
  | renamePrivate network' fromKey toKey toName =>
    unfold AppState.call AppState.renamePrivate
    dsimp only
    split
    · exact hid
    · split <;> exact hid
  | dispatch command =>
    cases command with
    | selectChannel id =>
      unfold AppState.call AppState.dispatch AppState.selectChannel
      dsimp only
      split <;> exact hid
    | _ => cases hi
  | appendRequestedJoinAlertAt network' name' text info =>
    have := hensure network' name'
    unfold AppState.call AppState.appendRequestedJoinAlertAt
    dsimp only
    split
    · exact hkept
        (AppState.appendChannelLineAt_keeps _ network' name' text .alert info).toCovers this
    · exact this
  | syncNetworks | resetNetwork | setCasemapping | closePrivate => cases hi
  | setChannelOrder | moveConversation | moveAfter | setGroups | createGroup | renameGroup
  | deleteGroup | setGroupCollapsed | moveToGroup | returnToServer => cases hi
  | _ => exact hkept (h.call_keeps lowercase rfl hf).toCovers hid

/-! ## One event -/

namespace BatchView

/-- What handling all member lists and handling those that are not replaced have in common. -/
structure Agree (network : NetworkId) (later : Finset String) (short full : BatchView σ) :
    Prop where
  sound : full.state.Sound
  state : short.state = full.state
  rest : short.rest = full.rest
  revision : short.logRevision ≤ full.logRevision
  rosters : ∀ id, short.rosters id = full.rosters id ∨
    ∃ name ∈ later, full.state.channelId network name = some id
  selection : short.selection = full.selection ∨ short.selection.SameNamed full.selection ∧
    ∃ name ∈ later, full.state.channelId network name = full.selection.conversation ∧
      full.selection.conversation.isSome

theorem handleNames_eq {view : BatchView σ} (hs : view.state.Sound)
    (hid : view.state.channelId network channel = some id) :
    view.handleNames lower network channel users =
      { view with
        logRevision := view.logRevision + 1
        rosters := Function.update view.rosters id (sortedMembers lower users)
        selection := view.selection.retainPresent id (sortedMembers lower users) } := by
  obtain ⟨c, hc, rfl⟩ := hs.toHeld.known_channel hid
  have hsome : (view.state.conversation c.id).isSome = true := by
    rw [AppState.conversation_eq hs.ids.nodup hc]
    rfl
  simp [handleNames, setMembers, hid, hsome]

theorem Agree.names_skipped (h : Agree network later short full) (hm : channel ∈ later) :
    Agree network later (short.skipNames network channel users)
      (full.handleNames lower network channel users) := by
  cases hid : full.state.channelId network channel with
  | none => simpa [skipNames, handleNames, setMembers, h.state, hid] using h
  | some id =>
    have hshort : short.skipNames network channel users =
        { short with selection := short.selection.retainPresent id users } := by
      simp [skipNames, h.state, hid]
    have hkeys : ∀ key, key ≠ "" → (key ∈ users.map keyOf ↔
        key ∈ (sortedMembers lower users).map keyOf) := by
      intro key hne
      simp [mem_sortedMembers, hne]
    rw [handleNames_eq h.sound hid, hshort]
    refine ⟨h.sound, h.state, h.rest, h.revision.trans (Nat.le_succ _), fun other => ?_, ?_⟩
    · by_cases ho : other = id
      · exact .inr ⟨channel, hm, by rw [ho]; exact hid⟩
      · dsimp only
        rw [Function.update_of_ne ho]
        exact h.rosters other
    · by_cases hconv : full.selection.conversation = some id
      · have hsame : short.selection.SameNamed full.selection := by
          obtain heq | ⟨hsame, -⟩ := h.selection
          · rw [heq]
            exact .refl _
          · exact hsame
        refine .inr ⟨hsame.retain hkeys, channel, hm, ?_⟩
        dsimp only
        rw [MemberSelection.retainPresent_of_eq hconv]
        exact ⟨hid.trans hconv.symm, by rw [hconv]; rfl⟩
      · have hshort : short.selection.conversation ≠ some id := by
          obtain heq | ⟨hsame, -⟩ := h.selection
          · rwa [heq]
          · rwa [hsame.conversation]
        dsimp only
        rw [MemberSelection.retainPresent_of_ne hconv, MemberSelection.retainPresent_of_ne hshort]
        exact h.selection

theorem Agree.names (h : Agree network (insert channel later) short full) :
    Agree network later (short.handleNames lower network channel users)
      (full.handleNames lower network channel users) := by
  -- A difference of another conversation is not that of this channel.
  have hother : ∀ {other}, full.state.channelId network channel ≠ some other →
      (∃ name ∈ insert channel later, full.state.channelId network name = some other) →
      ∃ name ∈ later, full.state.channelId network name = some other := by
    rintro other hne ⟨name, hname, hid⟩
    obtain rfl | hname := Finset.mem_insert.mp hname
    · exact absurd hid hne
    · exact ⟨name, hname, hid⟩
  have hchosen : full.state.channelId network channel ≠ full.selection.conversation →
      short.selection = full.selection ∨ short.selection.SameNamed full.selection ∧
        ∃ name ∈ later, full.state.channelId network name = full.selection.conversation ∧
          full.selection.conversation.isSome := by
    intro hne
    obtain heq | ⟨hsame, name, hname, hid, hsome⟩ := h.selection
    · exact .inl heq
    · obtain ⟨other, ho⟩ := Option.isSome_iff_exists.mp hsome
      rw [ho] at hne hid ⊢
      obtain ⟨name, hname, hid⟩ := hother hne ⟨name, hname, hid⟩
      exact .inr ⟨hsame, name, hname, hid, rfl⟩
  cases hid : full.state.channelId network channel with
  | none =>
    have hsame : ∀ {view : BatchView σ}, view.state = full.state →
        view.handleNames lower network channel users = view := by
      intro view hv
      simp [handleNames, setMembers, hv, hid]
    rw [hsame h.state, hsame rfl]
    refine ⟨h.sound, h.state, h.rest, h.revision, fun other => ?_, ?_⟩
    · exact (h.rosters other).imp_right (hother (by rw [hid]; simp))
    · by_cases hconv : full.selection.conversation = none
      · exact h.selection.imp_right fun hs => by simp [hconv] at hs
      · exact hchosen (by rw [hid]; exact fun hn => hconv hn.symm)
  | some id =>
    rw [handleNames_eq h.sound hid, handleNames_eq (h.state ▸ h.sound) (h.state ▸ hid)]
    refine ⟨h.sound, h.state, h.rest, Nat.succ_le_succ h.revision, fun other => ?_, ?_⟩
    · dsimp only
      by_cases ho : other = id
      · rw [ho, Function.update_self, Function.update_self]
        exact .inl rfl
      · rw [Function.update_of_ne ho, Function.update_of_ne ho]
        exact (h.rosters other).imp_right (hother (by simp [hid, Ne.symm ho]))
    · dsimp only
      by_cases hconv : full.selection.conversation = some id
      · obtain heq | ⟨hsame, -⟩ := h.selection
        · exact .inl (by rw [heq])
        · exact .inl (hsame.retain_eq hconv (by simp [mem_sortedMembers]))
      · have hshort : short.selection.conversation ≠ some id := by
          obtain heq | ⟨hsame, -⟩ := h.selection
          · rwa [heq]
          · rwa [hsame.conversation]
        rw [MemberSelection.retainPresent_of_ne hconv, MemberSelection.retainPresent_of_ne hshort]
        exact hchosen (by rw [hid]; exact Ne.symm hconv)

theorem calls_keep {is : List AppCall} {rosters rosters' : ConversationId → List String}
    (hs : s.Sound) (h : Along (fun s i => handlerCall i = true ∧ s.Fits i)
      (AppState.call lowercase) s is) :
    (exec (call lowercase) (s, rosters) is).1.Sound ∧
    (exec (call lowercase) (s, rosters') is).1 = (exec (call lowercase) (s, rosters) is).1 ∧
    (∀ {name id}, s.channelId network name = some id →
      (exec (call lowercase) (s, rosters) is).1.channelId network name = some id) ∧
    ∀ id, rosters' id = rosters id → (exec (call lowercase) (s, rosters') is).2 id =
      (exec (call lowercase) (s, rosters) is).2 id := by
  induction is generalizing s rosters rosters' with
  | nil => exact ⟨hs, rfl, fun h => h, fun _ h => h⟩
  | cons i is ih =>
    obtain ⟨⟨hi, hf⟩, his⟩ := h
    obtain ⟨hsound, hstate, hnames, hrosters⟩ := ih (hs.call lowercase i hf) his
    refine ⟨hsound, hstate, fun hid => hnames (handlerCall_channelId hs hi hf hid),
      fun id heq => hrosters id ?_⟩
    dsimp only
    rw [heq]

theorem Agree.other (h : Agree network later short full) :
    Agree network later (short.handleOther H e) (full.handleOther H e) := by
  obtain ⟨hsound, hstate, hnames, hrosters⟩ := @calls_keep _ network _ _ full.rosters short.rosters
    h.sound (H.made e full.state full.rest h.sound)
  have hkept : ∀ {id}, (∃ name ∈ later, full.state.channelId network name = some id) →
      ∃ name ∈ later, (full.handleOther H e).state.channelId network name = some id := by
    rintro id ⟨name, hname, hid⟩
    exact ⟨name, hname, hnames hid⟩
  unfold handleOther
  rw [h.state, h.rest]
  refine ⟨hsound, hstate, rfl, Nat.add_le_add_right h.revision _, fun id => ?_, ?_⟩
  · exact (h.rosters id).imp (hrosters id) hkept
  · obtain heq | ⟨hsame, name, hname, hid, hsome⟩ := h.selection
    · exact .inl heq
    · obtain ⟨other, ho⟩ := Option.isSome_iff_exists.mp hsome
      exact .inr ⟨hsame, name, hname, (hnames (hid.trans ho)).trans ho.symm, hsome⟩

theorem Agree.of_eq (hs : full.state.Sound) (hstate : short.state = full.state)
    (hrest : short.rest = full.rest) (hrevision : short.logRevision ≤ full.logRevision)
    (hrosters : short.rosters = full.rosters) (hselection : short.selection = full.selection) :
    Agree network later short full :=
  ⟨hs, hstate, hrest, hrevision, fun _ => .inl (by rw [hrosters]), .inl hselection⟩

theorem Agree.eq (h : Agree network ∅ short full) : short.state = full.state ∧
    short.rosters = full.rosters ∧ short.selection = full.selection ∧ short.rest = full.rest := by
  refine ⟨h.state, funext fun id => ?_, ?_, h.rest⟩
  · obtain heq | ⟨name, hname, -⟩ := h.rosters id
    · exact heq
    · cases hname
  · obtain heq | ⟨-, name, hname, -⟩ := h.selection
    · exact heq
    · cases hname

theorem Agree.caseMapping (h : Agree network ∅ short full) (mapping : CaseMapping) :
    Agree network later { short with state := short.state.setCasemapping network mapping }
      { full with state := full.state.setCasemapping network mapping } := by
  obtain ⟨hstate, hrosters, hselection, hrest⟩ := h.eq
  exact .of_eq (h.sound.setCasemapping network mapping) (by rw [hstate]) hrest h.revision hrosters
    hselection

/-! ## A batch -/

theorem Agree.handleEvents {batch : List (WorkerEvent ε)}
    (h : Agree network (superseded batch).1 short full) :
    Agree network ∅ (short.handleEvents lower network H batch)
      (exec (handleEvent lower network H) full batch) := by
  induction batch generalizing short full with
  | nil => exact h
  | cons event batch ih =>
    cases event with
    | names channel users =>
      have hnext : ∀ short', Agree network (superseded batch).1 short'
          (full.handleNames lower network channel users) →
          Agree network ∅ (short'.handleEvents lower network H batch)
            (exec (handleEvent lower network H) full (.names channel users :: batch)) := fun _ => ih
      by_cases hm : channel ∈ (superseded batch).1
      · have hshort : short.handleEvents lower network H (.names channel users :: batch) =
            (short.skipNames network channel users).handleEvents lower network H batch := by
          simp [BatchView.handleEvents, supersededRosters, superseded, hm, handleMarked]
        rw [hshort]
        refine hnext _ (names_skipped ?_ hm)
        rwa [superseded, Finset.insert_eq_of_mem hm] at h
      · have hshort : short.handleEvents lower network H (.names channel users :: batch) =
            (short.handleNames lower network channel users).handleEvents lower network H batch := by
          simp [BatchView.handleEvents, supersededRosters, superseded, hm, handleMarked,
            handleEvent]
        rw [hshort]
        exact hnext _ (Agree.names h)
    | caseMapping mapping => exact ih (Agree.caseMapping h mapping)
    | transportConnected e => exact ih (Agree.caseMapping h default).other
    | other e => exact ih (Agree.other h)

/-- Not handling the member lists that a later one in the batch replaces leaves the same state, the
same member lists, the same chosen members and the same rest. -/
theorem skipping_changes_nothing (lower : String → String) (H : Handler lowercase ε σ)
    (network : NetworkId) (view : BatchView σ) (hs : view.state.Sound)
    (batch : List (WorkerEvent ε)) :
    let short := view.handleEvents lower network H batch
    let full := exec (handleEvent lower network H) view batch
    short.state = full.state ∧ short.rosters = full.rosters ∧ short.selection = full.selection ∧
      short.rest = full.rest ∧ short.logRevision ≤ full.logRevision := by
  have h : Agree network ∅ (view.handleEvents lower network H batch)
      (exec (handleEvent lower network H) view batch) :=
    Agree.handleEvents (.of_eq hs rfl rfl le_rfl rfl rfl)
  obtain ⟨hstate, hrosters, hselection, hrest⟩ := h.eq
  exact ⟨hstate, hrosters, hselection, hrest, h.revision⟩

private def quietHandler : Handler toAsciiLowercase Unit Unit :=
  ⟨fun _ _ _ => [], fun _ _ _ => 0, fun _ _ r => r, fun _ _ _ _ => trivial⟩

private def rosterView : BatchView Unit where
  state := AppState.withNetworks [⟨1, "n", ["#a"]⟩]
  rosters _ := []
  selection := { conversation := some 1, chosen := ["alice", "bob"], anchor := some "alice" }
  rest := ()

private def rosterBatch : List (WorkerEvent Unit) :=
  [.names "#a" ["@bob"], .names "#a" ["alice", "bob"]]

theorem skipping_keeps_bob :
    (rosterView.handleEvents toAsciiLowercase 1 quietHandler rosterBatch).selection =
      (exec (handleEvent toAsciiLowercase 1 quietHandler) rosterView rosterBatch).selection :=
  (skipping_changes_nothing toAsciiLowercase quietHandler 1 rosterView
    (@AppState.withNetworks_sound [⟨1, "n", ["#a"]⟩] (by decide)) rosterBatch).2.2.1

theorem skipping_counts_less :
    (rosterView.handleEvents toAsciiLowercase 1 quietHandler rosterBatch).logRevision ≠
      (exec (handleEvent toAsciiLowercase 1 quietHandler) rosterView rosterBatch).logRevision := by
  decide +kernel

end BatchView

end CayenChat.Members
