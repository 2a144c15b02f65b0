import CayenChat.App.Networks
import CayenChat.Lib.Machine

/-! # Views that follow a typed join

A typed join selects its channels as the server confirms them, unless another view was chosen
meanwhile. What a confirmation does is told by the events before it.
-/

namespace CayenChat.App
open Machine Past

def joinCommandChannels (command : String) : List String :=
  match splitWhitespace command with
  | word :: channels :: _ =>
    if eqIgnoreAsciiCase word "/join" then (splitChar ',' channels).filter validChannel else []
  | _ => []

/-- What a typed join waits for. -/
structure JoinSwitch where
  channels : Finset String
  /-- The selection this request left or set. -/
  expected : Selection
  deriving DecidableEq

/-- The application state and what one session waits for. -/
structure JoinView where
  state : AppState
  joinSwitch : Option JoinSwitch := none

def switchOf (channels : Finset String) (expected : Selection) : Option JoinSwitch :=
  if channels = ∅ then none else some ⟨channels, expected⟩

/-- How a refused join is shown: as the dialog of a key, or as a line of the channel's log. -/
inductive RefusalNotice
  | dialog
  | requested (text : String) (info : MessageMeta)
  | alert (text : String) (info : MessageMeta)

/-- What happens to a session and to the view. -/
inductive JoinEvent
  | typed (command : String)
  | joined (channel : String)
  | replayed (channel : String)
  | refused (channel : String) (notice : RefusalNotice)
  | registered
  | ended
  | caseMapping (mapping : CaseMapping)
  | select (command : Command)

namespace JoinView

variable (network : NetworkId)

/-- One more listed channel: a joined one is selected, and the ones before it are not waited for. -/
def noteTarget (s : AppState) (targets : Option ConversationId × Finset String) (name : String) :
    Option ConversationId × Finset String :=
  match (s.channelId network name).filter fun id => decide (id ∈ s.activeChannels) with
  | some id => (some id, ∅)
  | none => (targets.1, insert ((s.casemapping network).fold name) targets.2)

def joinTargets (s : AppState) (names : List String) : Option ConversationId × Finset String :=
  names.foldl (noteTarget network s) (none, ∅)

/-- A typed command was sent. -/
def noteJoinSwitch (view : JoinView) (command : String) : JoinView :=
  let names := joinCommandChannels command
  if names = [] then view
  else
    let targets := joinTargets network view.state names
    let state := targets.1.elim view.state fun id => view.state.dispatch (.selectChannel id)
    { state, joinSwitch := switchOf targets.2 state.selected }

/-- A join was confirmed. -/
def joinConfirmedSwitch (view : JoinView) (channel : String) : JoinView :=
  let folded := (view.state.casemapping network).fold channel
  match view.joinSwitch with
  | none => view
  | some switch =>
    if folded ∈ switch.channels then
      match view.state.channelId network channel with
      | some id =>
        if switch.expected = view.state.selected then
          { state := view.state.dispatch (.selectChannel id)
            joinSwitch := switchOf (switch.channels.erase folded) (.channel id) }
        else { view with joinSwitch := none }
      | none => { view with joinSwitch := none }
    else view

def joinRefusedSwitch (view : JoinView) (channel : String) : JoinView :=
  { view with
    joinSwitch := view.joinSwitch.bind fun switch =>
      switchOf (switch.channels.erase ((view.state.casemapping network).fold channel))
        switch.expected }

def showRefusal (s : AppState) (channel : String) : RefusalNotice → AppState
  | .dialog => s
  | .requested text info => s.appendRequestedJoinAlertAt network channel text info
  | .alert text info => s.appendChannelAlertAt network channel text info

def step (view : JoinView) : JoinEvent → JoinView
  | .typed command => view.noteJoinSwitch network command
  | .joined channel =>
    joinConfirmedSwitch network { view with state := view.state.joinedChannel network channel }
      channel
  | .replayed channel => { view with state := view.state.joinedChannel network channel }
  | .refused channel notice =>
    let view := view.joinRefusedSwitch network channel
    { view with state := showRefusal network view.state channel notice }
  | .registered | .ended => { view with joinSwitch := none }
  | .caseMapping mapping => { view with state := view.state.setCasemapping network mapping }
  | .select command => { view with state := view.state.dispatch command }

def after (s : AppState) (events : List JoinEvent) : JoinView := exec (step network) { state := s } events

end JoinView

/-! ## What is selected and opened -/

namespace AppState

variable {s : AppState} {network : NetworkId} {name : String} {id : ConversationId}

theorem addConversation_selected {kind : ConversationKind} :
    (s.addConversation network kind name).1.selected = s.selected := by
  unfold addConversation
  split <;> rfl

theorem addConversation_casemappings {kind : ConversationKind} :
    (s.addConversation network kind name).1.casemappings = s.casemappings := by
  unfold addConversation
  split <;> rfl

theorem joinedChannel_selected : (s.joinedChannel network name).selected = s.selected := by
  have hensure : (s.ensureChannel network name).1.selected = s.selected := by
    unfold ensureChannel
    split
    · rfl
    · exact addConversation_selected
  unfold joinedChannel
  dsimp only
  split <;> exact hensure

theorem joinedChannel_casemapping :
    (s.joinedChannel network name).casemapping network = s.casemapping network := by
  have hensure : (s.ensureChannel network name).1.casemappings = s.casemappings := by
    unfold ensureChannel
    split
    · rfl
    · exact addConversation_casemappings
  unfold joinedChannel casemapping
  dsimp only
  split <;> rw [hensure]

theorem joinedChannel_channelId (h : (s.ensureChannel network name).2.isSome = true) :
    ((s.joinedChannel network name).channelId network name).isSome = true := by
  have hensure : ((s.ensureChannel network name).1.channelId network name).isSome = true := by
    unfold ensureChannel at h ⊢
    cases hid : s.channelId network name with
    | some id => simp [hid]
    | none =>
      rw [hid] at h
      dsimp only at h ⊢
      rw [channelId] at hid
      rw [channelId, casemapping, addConversation_casemappings, ← casemapping]
      unfold addConversation at h ⊢
      split at h
      · cases h
      · rename_i hroom
        rw [if_neg hroom]
        simp [hid]
  unfold joinedChannel
  dsimp only
  split <;> exact hensure

theorem selectChannel_casemapping :
    (s.selectChannel id).casemapping network = s.casemapping network := by
  unfold selectChannel
  split <;> rfl

end AppState

open AppState

namespace JoinView

variable {network : NetworkId} {s : AppState} {events before : List JoinEvent} {e : JoinEvent}
  {channel x : String} {switch : JoinSwitch} {view : JoinView} {id : ConversationId}

@[simp] theorem after_nil : after network s [] = { state := s } := rfl

theorem after_snoc (network : NetworkId) (s : AppState) (events : List JoinEvent) (e : JoinEvent) :
    after network s (events ++ [e]) = step network (after network s events) e := by
  rw [after, exec_append]
  rfl

theorem joinConfirmedSwitch_cases (network : NetworkId) (view : JoinView) (channel : String) :
    (joinConfirmedSwitch network view channel = view ∧ ∀ switch, view.joinSwitch = some switch →
      (view.state.casemapping network).fold channel ∉ switch.channels) ∨
    ∃ switch, view.joinSwitch = some switch ∧
      (view.state.casemapping network).fold channel ∈ switch.channels ∧
      ((joinConfirmedSwitch network view channel = { view with joinSwitch := none } ∧
          ∀ id, view.state.channelId network channel = some id →
            switch.expected ≠ view.state.selected) ∨
        ∃ id, view.state.channelId network channel = some id ∧
          switch.expected = view.state.selected ∧
          joinConfirmedSwitch network view channel =
            { state := view.state.selectChannel id
              joinSwitch := switchOf
                (switch.channels.erase ((view.state.casemapping network).fold channel))
                (.channel id) }) := by
  unfold joinConfirmedSwitch
  cases hswitch : view.joinSwitch with
  | none => exact Or.inl ⟨rfl, fun switch h => (by cases h)⟩
  | some switch =>
    by_cases hmem : (view.state.casemapping network).fold channel ∈ switch.channels
    · refine Or.inr ⟨switch, rfl, hmem, ?_⟩
      dsimp only
      rw [if_pos hmem]
      cases hid : view.state.channelId network channel with
      | none => exact Or.inl ⟨rfl, fun id h => (by cases h)⟩
      | some id =>
        by_cases hexpected : switch.expected = view.state.selected
        · exact Or.inr ⟨id, rfl, hexpected, if_pos hexpected⟩
        · exact Or.inl ⟨if_neg hexpected, fun _ _ => hexpected⟩
    · refine Or.inl ⟨?_, ?_⟩
      · dsimp only
        rw [if_neg hmem]
      · intro other h
        cases h
        exact hmem

theorem sound_after (hs : s.Sound) : (after network s events).state.Sound := by
  refine exec_invariant' (fun view : JoinView => view.state.Sound) ?_ hs
  rintro view e h
  cases e with
  | typed command =>
    simp only [step, noteJoinSwitch]
    split_ifs
    · exact h
    · cases (joinTargets network view.state (joinCommandChannels command)).1 with
      | none => exact h
      | some id => exact h.selectChannel id
  | joined channel =>
    have hjoined := h.joinedChannel network channel
    rw [step]
    obtain ⟨heq, -⟩ | ⟨switch, -, -, ⟨heq, -⟩ | ⟨id, -, -, heq⟩⟩ := 
      joinConfirmedSwitch_cases network
        { view with state := view.state.joinedChannel network channel } channel
    · rw [heq]
      exact hjoined
    · rw [heq]
      exact hjoined
    · rw [heq]
      exact hjoined.selectChannel id
  | replayed channel => exact h.joinedChannel network channel
  | refused channel notice =>
    cases notice with
    | dialog => exact h
    | requested text info => exact h.joinAlert network channel text info
    | alert text info =>
      exact h.call (fun t => t) (.appendChannelAlertAt network channel text info) trivial
  | registered => exact h
  | ended => exact h
  | caseMapping mapping => exact h.setCasemapping network mapping
  | select command => exact h.dispatch command

/-! ## The switch and the events -/

def mapping (network : NetworkId) (s : AppState) (events : List JoinEvent) : CaseMapping :=
  (after network s events).state.casemapping network

end JoinView

namespace JoinEvent

def IsJoin (e : JoinEvent) : Prop := ∃ command, e = .typed command ∧ joinCommandChannels command ≠ []

def Ends (e : JoinEvent) : Prop := e = .registered ∨ e = .ended

def Names (m : CaseMapping) (x : String) (e : JoinEvent) : Prop :=
  ∃ command, e = .typed command ∧ ∃ name ∈ joinCommandChannels command, m.fold name = x

def Answers (m : CaseMapping) (x : String) (e : JoinEvent) : Prop :=
  ∃ channel, m.fold channel = x ∧ (e = .joined channel ∨ ∃ notice, e = .refused channel notice)

theorem Names.isJoin {m : CaseMapping} {x : String} {e : JoinEvent} (h : e.Names m x) : e.IsJoin := by
  obtain ⟨command, rfl, name, hname, -⟩ := h
  exact ⟨command, rfl, List.ne_nil_of_mem hname⟩

end JoinEvent

namespace JoinView

/-- The latest typed join of the connection names a channel, and it was not answered since. -/
def Awaited (network : NetworkId) (s : AppState) (events before : List JoinEvent) (x : String) :
    Prop :=
  ∃ command, Since (fun l e => e.Names (mapping network s l) x)
    (fun _ l e => ¬ e.IsJoin ∧ ¬ e.Ends ∧ ¬ e.Answers (mapping network s l) x) events before
    (.typed command)

def Switches (network : NetworkId) (s : AppState) (events : List JoinEvent) (e : JoinEvent) : Prop :=
  ∃ channel, e = .joined channel ∧
    (after network s (events ++ [e])).state.selected ≠ (after network s events).state.selected

/-- The last typed join, or the last switch if one came later, left this selection. -/
def Left (network : NetworkId) (s : AppState) (events : List JoinEvent) (selection : Selection) :
    Prop :=
  ∃ before e, Since (fun l e => e.IsJoin ∨ Switches network s l e)
      (fun _ l e => ¬ e.IsJoin ∧ ¬ Switches network s l e) events before e ∧
    (after network s (before ++ [e])).state.selected = selection

/-- What a switch waits for was asked for and not answered, and it expects what it left. -/
structure Follows (network : NetworkId) (s : AppState) (events : List JoinEvent)
    (switch : JoinSwitch) : Prop where
  awaited : ∀ x ∈ switch.channels, ∃ before, Awaited network s events before x
  left : Left network s events switch.expected

variable {network : NetworkId} {s : AppState} {events before : List JoinEvent} {e : JoinEvent}
  {channel x : String} {switch : JoinSwitch} {view : JoinView} {id : ConversationId}
  {selection : Selection} {channels : Finset String}

theorem Awaited.snoc (h : Awaited network s events before x) (hjoin : ¬ e.IsJoin) (hend : ¬ e.Ends)
    (hanswer : ¬ e.Answers (mapping network s events) x) :
    Awaited network s (events ++ [e]) before x := by
  obtain ⟨command, h⟩ := h
  exact ⟨command, since_snoc.mpr (Or.inr ⟨h, hjoin, hend, hanswer⟩)⟩

theorem Left.snoc (h : Left network s events selection) (hjoin : ¬ e.IsJoin)
    (hswitch : ¬ Switches network s events e) : Left network s (events ++ [e]) selection := by
  obtain ⟨before, i, h, heq⟩ := h
  exact ⟨before, i, since_snoc.mpr (Or.inr ⟨h, hjoin, hswitch⟩), heq⟩

theorem Follows.snoc (h : Follows network s events switch) (hsub : channels ⊆ switch.channels)
    (hjoin : ¬ e.IsJoin) (hend : ¬ e.Ends)
    (hanswer : ∀ x ∈ channels, ¬ e.Answers (mapping network s events) x)
    (hswitch : ¬ Switches network s events e) :
    Follows network s (events ++ [e]) ⟨channels, switch.expected⟩ where
  awaited x hx := by
    obtain ⟨before, hbefore⟩ := h.awaited x (hsub hx)
    exact ⟨before, hbefore.snoc hjoin hend (hanswer x hx)⟩
  left := h.left.snoc hjoin hswitch

theorem switchOf_eq_some : switchOf channels selection = some switch →
    switch = ⟨channels, selection⟩ := by
  unfold switchOf
  split_ifs
  · exact fun h => (by cases h)
  · exact fun h => (Option.some.inj h).symm

theorem not_switches_of_ne (h : ∀ channel, e ≠ .joined channel) : ¬ Switches network s events e := by
  rintro ⟨channel, rfl, -⟩
  exact h channel rfl

theorem not_answers_of_ne (hjoined : ∀ channel, e ≠ .joined channel)
    (hrefused : ∀ channel notice, e ≠ .refused channel notice) (m : CaseMapping) :
    ¬ e.Answers m x := by
  rintro ⟨channel, -, h | ⟨notice, h⟩⟩
  · exact hjoined channel h
  · exact hrefused channel notice h

theorem not_isJoin_of_ne (h : ∀ command, e ≠ .typed command) : ¬ e.IsJoin := by
  rintro ⟨command, rfl, -⟩
  exact h command rfl

theorem Follows.keep (h : Follows network s events switch) (hjoin : ¬ e.IsJoin) (hend : ¬ e.Ends)
    (hjoined : ∀ channel, e ≠ .joined channel)
    (hrefused : ∀ channel notice, e ≠ .refused channel notice) :
    Follows network s (events ++ [e]) switch :=
  h.snoc (Finset.Subset.refl _) hjoin hend (fun _ _ => not_answers_of_ne hjoined hrefused _)
    (not_switches_of_ne hjoined)

theorem mem_noteTarget {targets : Option ConversationId × Finset String} {name : String}
    (hx : x ∈ (noteTarget network s targets name).2) :
    x = (s.casemapping network).fold name ∨ x ∈ targets.2 := by
  unfold noteTarget at hx
  split at hx
  · simp at hx
  · simpa using hx

theorem mem_joinTargets {names : List String} (hx : x ∈ (joinTargets network s names).2) :
    ∃ name ∈ names, (s.casemapping network).fold name = x := by
  rw [joinTargets] at hx
  induction names using List.reverseRecOn with
  | nil => simp at hx
  | append_singleton names name ih =>
    rw [List.foldl_append] at hx
    rcases mem_noteTarget hx with rfl | hx
    · exact ⟨name, by simp, rfl⟩
    · obtain ⟨other, hother, heq⟩ := ih hx
      exact ⟨other, by simp [hother], heq⟩

theorem follows_typed (command : String)
    (ih : ∀ switch, (after network s events).joinSwitch = some switch → Follows network s events switch)
    (hswitch : (after network s (events ++ [.typed command])).joinSwitch = some switch) :
    Follows network s (events ++ [.typed command]) switch := by
  by_cases hnames : joinCommandChannels command = []
  · have hsame : after network s (events ++ [.typed command]) = after network s events := by
      rw [after_snoc, step, noteJoinSwitch, if_pos hnames]
    rw [hsame] at hswitch
    refine (ih switch hswitch).keep ?_ (by rintro (h | h) <;> cases h)
      (fun channel h => by cases h) (fun channel notice h => by cases h)
    rintro ⟨other, h, hne⟩
    cases h
    exact hne hnames
  · have hjoin : (JoinEvent.typed command).IsJoin := ⟨command, rfl, hnames⟩
    have hview := after_snoc network s events (.typed command)
    rw [step, noteJoinSwitch, if_neg hnames] at hview
    rw [hview] at hswitch
    have hswitch := switchOf_eq_some hswitch
    constructor
    · intro x hx
      rw [hswitch] at hx
      obtain ⟨name, hname, heq⟩ := mem_joinTargets hx
      exact ⟨events, command, since_snoc.mpr (Or.inl ⟨rfl, rfl, command, rfl, name, hname, heq⟩)⟩
    · refine ⟨events, _, since_snoc.mpr (Or.inl ⟨rfl, rfl, Or.inl hjoin⟩), ?_⟩
      rw [hview, hswitch]

theorem follows_joined (hs : s.Sound) (channel : String)
    (ih : ∀ switch, (after network s events).joinSwitch = some switch → Follows network s events switch)
    (hswitch : (after network s (events ++ [.joined channel])).joinSwitch = some switch) :
    Follows network s (events ++ [.joined channel]) switch := by
  have hstep := after_snoc network s events (.joined channel)
  rw [step] at hstep
  have hjoin : ¬ (JoinEvent.joined channel).IsJoin := not_isJoin_of_ne fun command h => by cases h
  have hend : ¬ (JoinEvent.joined channel).Ends := by rintro (h | h) <;> cases h
  have hanswers : ∀ {x}, x ≠ (mapping network s events).fold channel →
      ¬ (JoinEvent.joined channel).Answers (mapping network s events) x := by
    rintro x hne ⟨other, rfl, h | ⟨notice, h⟩⟩
    · cases h
      exact hne rfl
    · cases h
  have hmapping : ((after network s events).state.joinedChannel network channel).casemapping network =
      mapping network s events := joinedChannel_casemapping
  obtain ⟨heq, hno⟩ | ⟨old, hold, hmem, ⟨heq, -⟩ | ⟨id, hid, hexpected, heq⟩⟩ :=
    joinConfirmedSwitch_cases network
      { after network s events with
        state := (after network s events).state.joinedChannel network channel } channel
  · -- The channel is not waited for.
    rw [heq] at hstep
    rw [hstep] at hswitch
    have hnot : ¬ Switches network s events (.joined channel) := by
      rintro ⟨_, -, hne⟩
      rw [hstep] at hne
      exact hne joinedChannel_selected
    refine (ih switch hswitch).snoc (Finset.Subset.refl _) hjoin hend ?_ hnot
    intro x hx
    apply hanswers
    rintro rfl
    exact hno switch hswitch (by rwa [hmapping])
  · rw [hstep, heq] at hswitch
    cases hswitch
  · -- The channel is selected.
    rw [heq] at hstep
    rw [hstep] at hswitch
    have hswitch := switchOf_eq_some hswitch
    dsimp only at hexpected hid hmem
    rw [hmapping] at hswitch hmem
    rw [joinedChannel_selected] at hexpected
    have hknown := ((sound_after hs).joinedChannel network channel).known_channel hid
    have hselected : (after network s (events ++ [.joined channel])).state.selected = .channel id := by
      rw [hstep]
      exact selectChannel_selected hknown
    have hfollows := ih old hold
    constructor
    · intro x hx
      rw [hswitch] at hx
      obtain ⟨hne, hx⟩ := Finset.mem_erase.mp hx
      obtain ⟨before, hbefore⟩ := hfollows.awaited x hx
      exact ⟨before, hbefore.snoc hjoin hend (hanswers hne)⟩
    · rw [hswitch]
      by_cases hsw : Switches network s events (.joined channel)
      · exact ⟨events, _, since_snoc.mpr (Or.inl ⟨rfl, rfl, Or.inr hsw⟩), hselected⟩
      · have hsame : old.expected = .channel id := by
          rw [hexpected, ← hselected]
          by_contra hne
          exact hsw ⟨channel, rfl, fun h => hne h.symm⟩
        rw [← hsame]
        exact hfollows.left.snoc hjoin hsw

theorem follows_refused (channel : String) (notice : RefusalNotice)
    (ih : ∀ switch, (after network s events).joinSwitch = some switch → Follows network s events switch)
    (hswitch : (after network s (events ++ [.refused channel notice])).joinSwitch = some switch) :
    Follows network s (events ++ [.refused channel notice]) switch := by
  rw [after_snoc, step, joinRefusedSwitch] at hswitch
  obtain ⟨old, hold, hswitch⟩ := Option.bind_eq_some_iff.mp hswitch
  rw [switchOf_eq_some hswitch]
  refine (ih old hold).snoc (Finset.erase_subset ..) (not_isJoin_of_ne fun command h => by cases h)
    (by rintro (h | h) <;> cases h) ?_ (not_switches_of_ne fun channel h => by cases h)
  rintro x hx ⟨other, rfl, h | ⟨notice, h⟩⟩
  · cases h
  · cases h
    exact Finset.notMem_erase _ _ hx

/-- A switch waits for what the latest typed join of the connection named and nothing answered, and
expects the selection that this join or its last switch left. -/
theorem follows (hs : s.Sound)
    (hswitch : (after network s events).joinSwitch = some switch) :
    Follows network s events switch := by
  induction events using List.reverseRecOn generalizing switch with
  | nil => cases hswitch
  | append_singleton events e ih =>
    cases e with
    | typed command => exact follows_typed command (fun _ => ih) hswitch
    | joined channel => exact follows_joined hs channel (fun _ => ih) hswitch
    | refused channel notice => exact follows_refused channel notice (fun _ => ih) hswitch
    | registered =>
      rw [after_snoc] at hswitch
      cases hswitch
    | ended =>
      rw [after_snoc] at hswitch
      cases hswitch
    | replayed | caseMapping | select =>
      rw [after_snoc] at hswitch
      exact (ih hswitch).keep (not_isJoin_of_ne fun command h => by cases h)
        (by rintro (h | h) <;> cases h) (fun channel h => by cases h)
        (fun channel notice h => by cases h)

def Taken (network : NetworkId) (s : AppState) (events : List JoinEvent) (channel : String) : Prop :=
  ∃ switch, (after network s events).joinSwitch = some switch ∧
    (mapping network s events).fold channel ∈ switch.channels

theorem Taken.awaited (hs : s.Sound) (h : Taken network s events channel) :
    ∃ before, Awaited network s events before ((mapping network s events).fold channel) := by
  obtain ⟨switch, hswitch, hmem⟩ := h
  exact (follows hs hswitch).awaited _ hmem

theorem Awaited.not_answered {mid : List JoinEvent}
    (h : Awaited network s (events ++ e :: mid) before x) (hjoins : ∀ e ∈ mid, ¬ e.IsJoin)
    (hanswer : e.Answers (mapping network s events) x) : False := by
  obtain ⟨command, h⟩ := h
  rcases lt_trichotomy before.length events.length with hlt | heq | hlt
  · exact (h.later rfl hlt).2.2 hanswer
  · obtain ⟨rest, hsplit, -⟩ := h
    obtain ⟨-, htail⟩ := List.append_inj hsplit heq.symm
    cases htail
    obtain ⟨_, -, h | ⟨_, h⟩⟩ := hanswer <;> cases h
  · have hnames := h.holds
    obtain ⟨rest, hsplit, -⟩ := h
    have hprefix : events ++ [e] <+: before :=
      List.prefix_of_prefix_length_le ⟨mid, by simp⟩ ⟨_, hsplit.symm⟩ (by simpa using hlt)
    obtain ⟨gap, rfl⟩ := hprefix
    have hmid : mid = gap ++ .typed command :: rest := by simpa using hsplit
    exact hjoins _ (by simp [hmid]) hnames.isJoin

/-- A confirmation that changes the selection selects the channel it confirms, which the latest
typed join named and nothing answered, while the selection is the one left for it. -/
theorem switch_spec (hs : s.Sound) (h : Switches network s events (.joined channel)) :
    (∃ id, (after network s (events ++ [.joined channel])).state.channelId network channel = some id ∧
      (after network s (events ++ [.joined channel])).state.selected = .channel id) ∧
    Taken network s events channel ∧
    Left network s events (after network s events).state.selected := by
  obtain ⟨_, heq, hne⟩ := h
  cases heq
  have hmapping : ((after network s events).state.joinedChannel network channel).casemapping network =
      mapping network s events := joinedChannel_casemapping
  have hselected : ((after network s events).state.joinedChannel network channel).selected =
      (after network s events).state.selected := joinedChannel_selected
  rw [after_snoc, step] at hne ⊢
  obtain ⟨heq, hno⟩ | ⟨old, hold, hmem, ⟨heq, -⟩ | ⟨id, hid, hexpected, heq⟩⟩ :=
    joinConfirmedSwitch_cases network
      { after network s events with
        state := (after network s events).state.joinedChannel network channel } channel
  · rw [heq] at hne
    exact absurd hselected hne
  · rw [heq] at hne
    exact absurd hselected hne
  · rw [heq]
    dsimp only at hid hexpected hmem hold
    have hknown := ((sound_after hs).joinedChannel network channel).known_channel hid
    refine ⟨⟨id, ?_, selectChannel_selected hknown⟩, ⟨old, hold, by rwa [hmapping] at hmem⟩, ?_⟩
    · have hsame : (((after network s events).state.joinedChannel network channel).selectChannel
          id).channelId network channel =
          ((after network s events).state.joinedChannel network channel).channelId network channel := by
        unfold AppState.selectChannel
        split <;> rfl
      rw [hsame, hid]
    · have := (follows hs hold).left
      rwa [hexpected, hselected] at this

/-! ## The last confirmed channel -/

def waitingNames (network : NetworkId) (s : AppState) (names : List String) : List String :=
  (names.reverse.takeWhile fun name => !(s.channelId network name).any fun id =>
    decide (id ∈ s.activeChannels)).reverse

theorem joinTargets_snd (names : List String) : (joinTargets network s names).2 =
    ((waitingNames network s names).map (s.casemapping network).fold).toFinset := by
  rw [joinTargets]
  induction names using List.reverseRecOn with
  | nil => rfl
  | append_singleton names name ih =>
    rw [List.foldl_append, List.foldl_cons, List.foldl_nil, waitingNames, List.reverse_append,
      List.reverse_singleton, List.singleton_append, noteTarget]
    cases hid : s.channelId network name with
    | none => simp [hid, ih, waitingNames]
    | some id =>
      by_cases hactive : id ∈ s.activeChannels
      · simp [hid, hactive, Option.filter]
      · simp [hid, hactive, ih, waitingNames, Option.filter]

def confirmedNames (m : CaseMapping) (events : List JoinEvent) : List String :=
  events.filterMap fun
    | .joined channel => some (m.fold channel)
    | _ => none

/-- Nothing but confirmations changes the view: no other join is typed, the connection stays, names
are compared as before, and each channel waited for is confirmed and can be shown. -/
structure Undisturbed (network : NetworkId) (s : AppState) (waiting : List String)
    (events : List JoinEvent) (e : JoinEvent) : Prop where
  join : ¬ e.IsJoin
  connection : ¬ e.Ends
  mapping : mapping network s (events ++ [e]) = mapping network s events
  view : (∀ channel, e ≠ .joined channel) →
    (after network s (events ++ [e])).state.selected = (after network s events).state.selected
  accepted : ∀ channel notice, e = .refused channel notice →
    (JoinView.mapping network s events).fold channel ∉ waiting
  room : ∀ channel, e = .joined channel →
    (JoinView.mapping network s events).fold channel ∈ waiting →
    ((after network s events).state.ensureChannel network channel).2.isSome = true

theorem switchOf_of_ne (h : channels ≠ ∅) : switchOf channels selection = some ⟨channels, selection⟩ :=
  if_neg h

/-- What is known of the view while nothing disturbs it. -/
structure Waits (network : NetworkId) (s : AppState) (waiting : List String) (m : CaseMapping)
    (events confirmed : List JoinEvent) : Prop where
  joinSwitch : (after network s events).joinSwitch =
    switchOf (waiting.toFinset \ (confirmedNames m confirmed).toFinset)
      (after network s events).state.selected
  mapping : mapping network s events = m

variable {waiting : List String} {m : CaseMapping} {confirmed : List JoinEvent}

theorem confirmedNames_of_ne (h : ∀ channel, e ≠ .joined channel) :
    confirmedNames m (confirmed ++ [e]) = confirmedNames m confirmed := by
  rw [confirmedNames, List.filterMap_append]
  cases e with
  | joined channel => exact absurd rfl (h channel)
  | _ => exact List.append_nil _

theorem confirmedNames_joined :
    confirmedNames m (confirmed ++ [.joined channel]) = confirmedNames m confirmed ++ [m.fold channel] := by
  rw [confirmedNames, List.filterMap_append]
  rfl

theorem Waits.select (hs : s.Sound) (h : Waits network s waiting m events confirmed)
    (hu : Undisturbed network s waiting events (.joined channel)) (hmem : m.fold channel ∈ waiting)
    (hnew : m.fold channel ∉ confirmedNames m confirmed) :
    Waits network s waiting m (events ++ [.joined channel]) (confirmed ++ [.joined channel]) ∧
      ∃ id, (after network s (events ++ [.joined channel])).state.channelId network channel = some id ∧
        (after network s (events ++ [.joined channel])).state.selected = .channel id := by
  have hmapping : ((after network s events).state.joinedChannel network channel).casemapping network =
      m := joinedChannel_casemapping.trans h.mapping
  have hselected : ((after network s events).state.joinedChannel network channel).selected =
      (after network s events).state.selected := joinedChannel_selected
  have hwaits : m.fold channel ∈ waiting.toFinset \ (confirmedNames m confirmed).toFinset := by
    simp [hmem, hnew]
  have hswitch := h.joinSwitch
  rw [switchOf_of_ne (Finset.ne_empty_of_mem hwaits)] at hswitch
  have hstep := after_snoc network s events (.joined channel)
  rw [step] at hstep
  obtain ⟨-, hno⟩ | ⟨old, hold, -, hcase⟩ := joinConfirmedSwitch_cases network
    { after network s events with
      state := (after network s events).state.joinedChannel network channel } channel
  · exact absurd hwaits (hmapping ▸ hno _ hswitch)
  · obtain rfl : old = _ := Option.some.inj (hold.symm.trans hswitch)
    rcases hcase with ⟨heq, hno⟩ | ⟨id, hid, -, heq⟩
    · have hroom := hu.room channel rfl (h.mapping ▸ hmem)
      obtain ⟨id, hid⟩ := Option.isSome_iff_exists.mp (joinedChannel_channelId hroom)
      exact absurd hselected.symm (hno id hid)
    · have hknown := ((sound_after hs).joinedChannel network channel).known_channel hid
      have hnow : (after network s (events ++ [.joined channel])).state.selected = .channel id := by
        rw [hstep, heq]
        exact selectChannel_selected hknown
      have hsame : (after network s (events ++ [.joined channel])).state.channelId network channel =
          some id := by
        rw [hstep, heq, ← hid]
        unfold AppState.selectChannel
        split <;> rfl
      refine ⟨⟨?_, hu.mapping.trans h.mapping⟩, id, hsame, hnow⟩
      rw [hnow, hstep, heq]
      dsimp only
      rw [hmapping, confirmedNames_joined]
      congr 1
      ext x
      simp only [Finset.mem_erase, Finset.mem_sdiff, List.mem_toFinset, List.mem_append,
        List.mem_singleton]
      tauto

theorem Waits.leave (h : Waits network s waiting m events confirmed)
    (hu : Undisturbed network s waiting events (.joined channel))
    (hold : m.fold channel ∈ waiting → m.fold channel ∈ confirmedNames m confirmed) :
    Waits network s waiting m (events ++ [.joined channel]) (confirmed ++ [.joined channel]) ∧
      (after network s (events ++ [.joined channel])).state.selected =
        (after network s events).state.selected := by
  have hmapping : ((after network s events).state.joinedChannel network channel).casemapping network =
      m := joinedChannel_casemapping.trans h.mapping
  have hselected : ((after network s events).state.joinedChannel network channel).selected =
      (after network s events).state.selected := joinedChannel_selected
  have hwaits : m.fold channel ∉ waiting.toFinset \ (confirmedNames m confirmed).toFinset := by
    simpa using hold
  have hstep := after_snoc network s events (.joined channel)
  rw [step] at hstep
  obtain ⟨heq, -⟩ | ⟨switch, hswitch, hmem, -⟩ := joinConfirmedSwitch_cases network
    { after network s events with
      state := (after network s events).state.joinedChannel network channel } channel
  · rw [heq] at hstep
    refine ⟨⟨?_, hu.mapping.trans h.mapping⟩, by rw [hstep]; exact hselected⟩
    rw [hstep]
    dsimp only
    rw [h.joinSwitch, hselected, confirmedNames_joined]
    congr 1
    ext x
    simp only [Finset.mem_sdiff, List.mem_toFinset, List.mem_append, List.mem_singleton] at hwaits ⊢
    constructor
    · rintro ⟨hx, hno⟩
      refine ⟨hx, ?_⟩
      rintro (hx' | rfl)
      · exact hno hx'
      · exact hwaits ⟨hx, hno⟩
    · rintro ⟨hx, hno⟩
      exact ⟨hx, fun hx' => hno (Or.inl hx')⟩
  · dsimp only at hswitch hmem
    rw [h.joinSwitch] at hswitch
    rw [switchOf_eq_some hswitch, hmapping] at hmem
    exact absurd hmem hwaits

theorem Waits.other (h : Waits network s waiting m events confirmed)
    (hu : Undisturbed network s waiting events e) (hjoined : ∀ channel, e ≠ .joined channel) :
    Waits network s waiting m (events ++ [e]) (confirmed ++ [e]) := by
  have hview := hu.view hjoined
  refine ⟨?_, hu.mapping.trans h.mapping⟩
  rw [hview, confirmedNames_of_ne hjoined, ← h.joinSwitch, after_snoc]
  cases e with
  | joined channel => exact absurd rfl (hjoined channel)
  | registered => exact absurd (Or.inl rfl) hu.connection
  | ended => exact absurd (Or.inr rfl) hu.connection
  | typed command =>
    have hnames : joinCommandChannels command = [] := by
      by_contra hne
      exact hu.join ⟨command, rfl, hne⟩
    rw [step, noteJoinSwitch, if_pos hnames]
  | replayed | caseMapping | select => rfl
  | refused channel notice =>
    have hno := hu.accepted channel notice rfl
    rw [h.mapping] at hno
    change ((after network s events).joinSwitch.bind _) = _
    cases hswitch : (after network s events).joinSwitch with
    | none => rfl
    | some switch =>
      rw [h.joinSwitch] at hswitch
      have heq := switchOf_eq_some hswitch
      have hmapping : (after network s events).state.casemapping network = m := h.mapping
      have hkept : switch.channels.erase (m.fold channel) = switch.channels := by
        apply Finset.erase_eq_of_notMem
        rw [heq]
        simp [hno]
      rw [Option.bind_some, hmapping, hkept, ← hswitch, heq]

def waitingFor (network : NetworkId) (s : AppState) (before : List JoinEvent) (command : String) :
    List String :=
  (waitingNames network (after network s before).state (joinCommandChannels command)).map
    (mapping network s before).fold

variable {command : String} {mid rest : List JoinEvent}

theorem waits_typed (hnames : joinCommandChannels command ≠ []) :
    Waits network s (waitingFor network s before command) (mapping network s before)
      (before ++ [.typed command]) [] := by
  have hview := after_snoc network s before (.typed command)
  rw [step, noteJoinSwitch, if_neg hnames] at hview
  constructor
  · rw [hview]
    dsimp only
    rw [joinTargets_snd, waitingFor, mapping]
    simp [confirmedNames]
  · rw [mapping, hview, mapping]
    dsimp only
    cases (joinTargets network (after network s before).state (joinCommandChannels command)).1 with
    | none => rfl
    | some id => exact selectChannel_casemapping

def RunUndisturbed (network : NetworkId) (s : AppState) (waiting : List String)
    (before events : List JoinEvent) : Prop :=
  ∀ mid e rest, events = mid ++ e :: rest → Undisturbed network s waiting (before ++ mid) e

theorem RunUndisturbed.init (h : RunUndisturbed network s waiting before (events ++ [e])) :
    RunUndisturbed network s waiting before events ∧ Undisturbed network s waiting (before ++ events) e := by
  refine ⟨?_, h events e [] rfl⟩
  rintro mid i rest rfl
  exact h mid i (rest ++ [e]) (by simp)

theorem Waits.run (hs : s.Sound) (h : Waits network s waiting m before [])
    (hu : RunUndisturbed network s waiting before events) :
    Waits network s waiting m (before ++ events) events := by
  induction events using List.reverseRecOn with
  | nil => simpa using h
  | append_singleton events e ih =>
    obtain ⟨hinit, hlast⟩ := hu.init
    have hwaits := ih hinit
    rw [← List.append_assoc]
    by_cases hjoined : ∃ channel, e = .joined channel
    · obtain ⟨channel, rfl⟩ := hjoined
      by_cases hnew : m.fold channel ∈ waiting ∧ m.fold channel ∉ confirmedNames m events
      · exact (hwaits.select hs hlast hnew.1 hnew.2).1
      · refine (hwaits.leave hlast ?_).1
        intro hmem
        by_contra hno
        exact hnew ⟨hmem, hno⟩
    · exact hwaits.other hlast fun channel heq => hjoined ⟨channel, heq⟩

theorem RunUndisturbed.behind (h : RunUndisturbed network s waiting before (mid ++ rest)) :
    RunUndisturbed network s waiting (before ++ mid) rest := by
  rintro first e last rfl
  rw [List.append_assoc]
  exact h (mid ++ first) e last (by simp)

theorem mem_confirmedNames (h : .joined channel ∈ events) :
    m.fold channel ∈ confirmedNames m events :=
  List.mem_filterMap.mpr ⟨_, h, rfl⟩

theorem Waits.selected_run (h : Waits network s waiting m before confirmed)
    (hu : RunUndisturbed network s waiting before events)
    (hold : ∀ x ∈ confirmedNames m events, x ∈ waiting → x ∈ confirmedNames m confirmed) :
    Waits network s waiting m (before ++ events) (confirmed ++ events) ∧
      (after network s (before ++ events)).state.selected = (after network s before).state.selected := by
  induction events using List.reverseRecOn with
  | nil => simpa using h
  | append_singleton events e ih =>
    obtain ⟨hinit, hlast⟩ := hu.init
    have hmem : ∀ x ∈ confirmedNames m events, x ∈ confirmedNames m (events ++ [e]) := by
      intro x hx
      rw [confirmedNames, List.filterMap_append]
      exact List.mem_append_left _ hx
    obtain ⟨hwaits, hselected⟩ := ih hinit fun x hx => hold x (hmem x hx)
    rw [← List.append_assoc, ← List.append_assoc, ← hselected]
    by_cases hjoined : ∃ channel, e = .joined channel
    · obtain ⟨channel, rfl⟩ := hjoined
      apply hwaits.leave hlast
      intro hin
      have := hold _ (mem_confirmedNames (by simp)) hin
      rw [confirmedNames, List.filterMap_append]
      exact List.mem_append_left _ this
    · have hne : ∀ channel, e ≠ .joined channel := fun channel heq => hjoined ⟨channel, heq⟩
      exact ⟨hwaits.other hlast hne, hlast.view hne⟩

theorem last_confirmed_selected (hs : s.Sound)
    (hu : RunUndisturbed network s (waitingFor network s before command)
      (before ++ [.typed command]) (mid ++ .joined channel :: rest))
    (hmem : (mapping network s before).fold channel ∈ waitingFor network s before command)
    (hnew : (mapping network s before).fold channel ∉ confirmedNames (mapping network s before) mid)
    (hlast : ∀ x ∈ confirmedNames (mapping network s before) rest,
      x ∈ waitingFor network s before command →
        x ∈ confirmedNames (mapping network s before) (mid ++ [.joined channel])) :
    ∃ id, (after network s (before ++ .typed command :: mid ++ [.joined channel])).state.channelId
        network channel = some id ∧
      (after network s (before ++ .typed command :: mid ++ .joined channel :: rest)).state.selected =
        .channel id := by
  have hnames : joinCommandChannels command ≠ [] := by
    intro h
    simp [waitingFor, waitingNames, h] at hmem
  have hsplit : mid ++ .joined channel :: rest = mid ++ [.joined channel] ++ rest := by simp
  rw [hsplit] at hu
  have hfirst : RunUndisturbed network s (waitingFor network s before command)
      (before ++ [.typed command]) (mid ++ [.joined channel]) := by
    rintro first e last heq
    exact hu first e (last ++ rest) (by rw [heq]; simp)
  obtain ⟨hinit, hone⟩ := hfirst.init
  have hwaits := (waits_typed hnames).run hs hinit
  obtain ⟨hwaits, id, hid, hselected⟩ := hwaits.select hs hone hmem hnew
  have hrest := hu.behind
  rw [← List.append_assoc] at hrest
  have hkept := (hwaits.selected_run hrest hlast).2
  have hassoc : before ++ .typed command :: mid = before ++ [.typed command] ++ mid := by simp
  refine ⟨id, by rw [hassoc]; exact hid, ?_⟩
  rw [hassoc, ← hselected, ← hkept]
  congr 3
  simp

/-- A confirmation changes the selection only to its channel, which the latest typed join of the
connection named and nothing answered, and only while the selection is the one that join or its last
switch left. An answered channel is not taken again, and the last of the channels waited for that is
confirmed ends up selected. -/
theorem typed_join_keeps_view (hs : s.Sound) :
    (∀ events channel, Switches network s events (.joined channel) →
      (∃ id, (after network s (events ++ [.joined channel])).state.channelId network channel = some id ∧
        (after network s (events ++ [.joined channel])).state.selected = .channel id) ∧
      (∃ before, Awaited network s events before ((mapping network s events).fold channel)) ∧
      Left network s events (after network s events).state.selected) ∧
    (∀ events e mid channel, (∀ e ∈ mid, ¬ e.IsJoin) →
      e.Answers (mapping network s events)
        ((mapping network s (events ++ e :: mid)).fold channel) →
      ¬ Taken network s (events ++ e :: mid) channel) ∧
    ∀ before command mid channel rest,
      RunUndisturbed network s (waitingFor network s before command)
        (before ++ [.typed command]) (mid ++ .joined channel :: rest) →
      (mapping network s before).fold channel ∈ waitingFor network s before command →
      (mapping network s before).fold channel ∉ confirmedNames (mapping network s before) mid →
      (∀ x ∈ confirmedNames (mapping network s before) rest,
        x ∈ waitingFor network s before command →
          x ∈ confirmedNames (mapping network s before) (mid ++ [.joined channel])) →
      ∃ id, (after network s (before ++ .typed command :: mid ++ [.joined channel])).state.channelId
          network channel = some id ∧
        (after network s (before ++ .typed command :: mid ++ .joined channel :: rest)).state.selected =
          .channel id := by
  refine ⟨?_, ?_, ?_⟩
  · intro events channel h
    obtain ⟨hchannel, htaken, hleft⟩ := switch_spec hs h
    exact ⟨hchannel, htaken.awaited hs, hleft⟩
  · rintro events e mid channel hjoins hanswer htaken
    obtain ⟨before, hawaited⟩ := htaken.awaited hs
    exact hawaited.not_answered hjoins hanswer
  · intro before command mid channel rest hu hmem hnew hlast
    exact last_confirmed_selected hs hu hmem hnew hlast

def oneChannel : AppState := withNetworks [⟨1, "net", ["#a"]⟩]

theorem oneChannel_sound : oneChannel.Sound := withNetworks_sound (by decide)

theorem typed_join_selects_new : ∃ id,
    (after 1 oneChannel [.typed "/join #b", .joined "#b"]).state.channelId 1 "#b" = some id ∧
      (after 1 oneChannel [.typed "/join #b", .joined "#b"]).state.selected = .channel id := by
  apply (@typed_join_keeps_view 1 oneChannel oneChannel_sound).2.2 [] "/join #b" [] "#b" []
  · rintro mid e rest heq
    obtain ⟨rfl, htail⟩ : mid = [] ∧ .joined "#b" :: [] = e :: rest := by
      cases mid with
      | nil => exact ⟨rfl, heq⟩
      | cons i mid => simp at heq
    obtain ⟨rfl, rfl⟩ := List.cons.inj htail
    constructor
    · exact not_isJoin_of_ne fun command h => by cases h
    · rintro (h | h) <;> cases h
    · decide
    · exact fun h => absurd rfl (h "#b")
    · intro channel notice h
      cases h
    · intro channel h _
      cases h
      decide
  · decide
  · decide
  · simp [confirmedNames]

/-- Every channel of a typed join is confirmed and no other view is chosen, and the one confirmed
last is not selected. -/
structure Unselected (network : NetworkId) (s : AppState) (command : String)
    (events : List JoinEvent) (channel : String) : Prop where
  sound : s.Sound
  confirmed : ∀ name ∈ joinCommandChannels command, .joined name ∈ events ++ [.joined channel]
  named : channel ∈ joinCommandChannels command
  others : ∀ e ∈ events, ¬ e.IsJoin ∧ ¬ e.Ends ∧ ∀ command, e ≠ .select command
  unselected : ((after network s (.typed command :: events ++ [.joined channel])).state.channelId
      network channel).map Selection.channel ≠
    some (after network s (.typed command :: events ++ [.joined channel])).state.selected

/-- Names that come to be compared otherwise, a refusal before the confirmation, and a channel
listed before one that is joined already. -/
theorem confirmed_joins_left :
    Unselected 1 oneChannel "/join #b[" [.caseMapping .ascii] "#b[" ∧
      Unselected 1 oneChannel "/join #b" [.refused "#b" .dialog] "#b" ∧
      Unselected 1 (after 1 oneChannel [.joined "#a"]).state "/join #b,#a" [.joined "#a"] "#b" := by
  refine ⟨⟨oneChannel_sound, ?_, by decide, ?_, by decide⟩,
    ⟨oneChannel_sound, ?_, by decide, ?_, by decide⟩,
    ⟨sound_after oneChannel_sound, ?_, by decide, ?_, by decide⟩⟩
  · have hnames : joinCommandChannels "/join #b[" = ["#b["] := by decide
    simp [hnames]
  · simp [JoinEvent.IsJoin, JoinEvent.Ends]
  · have hnames : joinCommandChannels "/join #b" = ["#b"] := by decide
    simp [hnames]
  · simp [JoinEvent.IsJoin, JoinEvent.Ends]
  · have hnames : joinCommandChannels "/join #b,#a" = ["#b", "#a"] := by decide
    simp [hnames]
  · simp [JoinEvent.IsJoin, JoinEvent.Ends]

end JoinView

end CayenChat.App
