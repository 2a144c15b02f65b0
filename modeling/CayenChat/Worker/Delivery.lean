import CayenChat.Worker.Queues

/-! # No message is lost silently or sent twice

While the connection lasts, each message given to the worker has been passed
on, is waiting or was refused, and none overtakes another. With the connection
ends what waits: held commands are reported, pasted lines are dropped.
-/

namespace CayenChat

namespace Worker

def Effect.handed? : Effect → Option Message
  | handed m => some m
  | _ => none

def Effect.unsent : Effect → List Message
  | emitted _ unsent => unsent
  | _ => []

def passedOn (w : Worker) : List Message := w.log.filterMap Effect.handed?

def told (w : Worker) : List Message := w.log.flatMap Effect.unsent

def heldMessages (w : Worker) : List Message := w.held.flatMap Outgoing.messages

def queued (w : Worker) : List Message := w.paced ++ w.heldMessages

def waiting (w : Worker) : List Message := if w.running then w.queued else []

def dropped (w : Worker) : List Message := if w.running then [] else w.queued

def Input.messages : Input → List Message
  | command (.outgoing o) => o.messages
  | _ => []

def submitted (e : World) : Worker → List Input → List Message :=
  Machine.collect (fun w i => if w.running then i.messages else []) (step e)

def Unheard (e : World) (w : Worker) : Prop := ∃ n < w.events, e.listens n = false

/-- New messages joined those on their way to be sent. -/
structure Passes (e : World) (w w' : Worker) (ms : List Message) : Prop where
  inOrder : (w'.passedOn ++ w'.paced).Sublist (w.passedOn ++ w.paced ++ ms)
  once : (w'.passedOn ++ w'.paced ++ w'.told).Perm (w.passedOn ++ w.paced ++ w.told ++ ms)
  held : w'.held = w.held
  aliveCheck : w'.aliveCheck = w.aliveCheck
  running : w'.running = false → w.running = false ∨ Unheard e w'
  events : w.events ≤ w'.events

section Passing

variable {e : World} {w w' w'' : Worker} {ms ms' lines : List Message} {m : Message}

theorem Unheard.mono (h : Unheard e w) (hle : w.events ≤ w'.events) : Unheard e w' := by
  obtain ⟨n, hn, hl⟩ := h
  exact ⟨n, by omega, hl⟩

theorem Passes.trans (h : Passes e w w' ms) (h' : Passes e w' w'' ms') :
    Passes e w w'' (ms ++ ms') where
  inOrder := by
    have := h'.inOrder.trans (h.inOrder.append_right ms')
    rwa [List.append_assoc] at this
  once := by
    have := h'.once.trans (h.once.append_right ms')
    rwa [List.append_assoc _ ms ms'] at this
  held := h'.held.trans h.held
  aliveCheck := h'.aliveCheck.trans h.aliveCheck
  running hr := by
    rcases h'.running hr with hr | hu
    · exact (h.running hr).imp_right fun hu => hu.mono h'.events
    · exact .inr hu
  events := h.events.trans h'.events

theorem Passes.and_then (h : Passes e w w' ms) (h' : Passes e w' w'' []) :
    Passes e w w'' ms := by
  rw [← List.append_nil ms]
  exact h.trans h'

theorem sendMessage_passes (hp : w.paced = []) : Passes e w (w.sendMessage e m) [m] where
  inOrder := by simp [passedOn, sendMessage, act, hp, Effect.handed?]
  once := by
    have h : (passedOn w ++ ([m] ++ told w)).Perm (passedOn w ++ (told w ++ [m])) :=
      List.perm_append_comm.append_left _
    simpa [passedOn, told, sendMessage, act, hp, Effect.handed?, Effect.unsent] using h
  held := rfl
  aliveCheck := rfl
  running hr := .inr ⟨w.events, Nat.lt_succ_self _, hr⟩
  events := Nat.le_succ _

theorem sendFirst_passes {rest : List Message} {burst ready readings : ℕ}
    (hp : w.paced = m :: rest) :
    Passes e w (sendMessage e
      { w with paced := rest, burst := burst, pacedReady := ready, readings := readings } m) [] where
  inOrder := by simp [passedOn, sendMessage, act, hp, Effect.handed?]
  once := by simp [passedOn, told, sendMessage, act, hp, Effect.handed?, Effect.unsent]
  held := rfl
  aliveCheck := rfl
  running hr := .inr ⟨w.events, Nat.lt_succ_self _, hr⟩
  events := Nat.le_succ _

theorem Passes.refl : Passes e w w [] where
  inOrder := by simp
  once := by simp
  held := rfl
  aliveCheck := rfl
  running := .inl
  events := le_rfl

theorem readings_passes (n : ℕ) : Passes e w { w with readings := n } [] :=
  { Passes.refl (w := w) with }

theorem sendPacedLines_passes (l : List Message) (hp : w.paced = l) :
    Passes e w (sendPacedLines e l w) [] := by
  induction l generalizing w with
  | nil => exact .refl
  | cons m rest ih =>
    rw [sendPacedLines]
    dsimp only
    split_ifs with hd hr
    · exact (sendFirst_passes hp).trans (ih rfl)
    · exact sendFirst_passes hp
    · exact readings_passes _

theorem joinPaced_passes (burst readings : ℕ) :
    Passes e w { w with burst, paced := w.paced ++ lines, readings } lines where
  inOrder := by simp [passedOn]
  once := by
    have h : (passedOn w ++ (w.paced ++ (lines ++ told w))).Perm
        (passedOn w ++ (w.paced ++ (told w ++ lines))) :=
      (List.perm_append_comm.append_left _).append_left _
    simpa [passedOn, told] using h
  held := rfl
  aliveCheck := rfl
  running := .inl
  events := le_rfl

theorem refuse_passes (event : Event) : Passes e w (w.emit e event lines) lines where
  inOrder := by simp [passedOn, emit, notify, act, List.filterMap_cons, Effect.handed?]
  once := by simp [passedOn, told, emit, notify, act, List.filterMap_cons, Effect.handed?,
    Effect.unsent]
  held := rfl
  aliveCheck := rfl
  running hr := .inr ⟨w.events, Nat.lt_succ_self _, hr⟩
  events := Nat.le_succ _

theorem queueLines_passes : Passes e w (w.queueLines e lines) lines := by
  by_cases hm : maxPacedLines < w.paced.length + lines.length
  · rw [queueLines, if_pos hm]
    exact refuse_passes _
  · rw [queueLines, if_neg hm]
    exact (joinPaced_passes _ _).and_then (sendPacedLines_passes _ rfl)

theorem onCommand_passes (ha : w.aliveCheck = none) (o : Outgoing) :
    Passes e w (w.onCommand e (.outgoing o)) o.messages := by
  cases o with
  | lines ms =>
    simp only [onCommand, ha, Option.isSome_none, Bool.false_eq_true, if_false]
    exact queueLines_passes
  | message m =>
    simp only [onCommand, ha, Option.isSome_none, Bool.false_eq_true, if_false]
    split_ifs with hp
    · exact queueLines_passes
    · exact sendMessage_passes (not_not.mp hp)

end Passing

/-- Every message given so far has been passed on, is queued or was told to be not sent; none
overtook another. -/
structure Counted (w : Worker) (sub : List Message) : Prop where
  inOrder : (w.passedOn ++ w.queued).Sublist sub
  once : (w.passedOn ++ w.queued ++ w.told).Perm sub

/-- Between two turns nothing is held without a check, and a worker that ended has reported what it
held. -/
structure Accounted (e : World) (w : Worker) (sub : List Message) : Prop extends
    Counted w sub where
  idle : w.running = true → w.aliveCheck = none → w.held = []
  ended : w.running = false → w.held = [] ∨ Unheard e w

section Accounting

variable {e : World} {w w' : Worker} {sub ms : List Message}

@[simp] theorem passedOn_act (effect : Effect) :
    (w.act effect).passedOn = w.passedOn ++ effect.handed?.toList := by
  cases effect <;> simp [passedOn, act, List.filterMap_cons, Effect.handed?]

@[simp] theorem told_act (effect : Effect) : (w.act effect).told = w.told ++ effect.unsent := by
  simp [told, act]

theorem queued_of_idle (h : w.held = []) : w.queued = w.paced := by
  simp [queued, heldMessages, h]

theorem Counted.congr (h : Counted w sub) (hp : w'.passedOn = w.passedOn) (hq : w'.queued = w.queued)
    (ht : w'.told = w.told) : Counted w' sub := by
  constructor
  · rw [hp, hq]
    exact h.inOrder
  · rw [hp, hq, ht]
    exact h.once

theorem Passes.counted (hp : Passes e w w' ms)
    (hi : (w.passedOn ++ w.paced ++ ms ++ w.heldMessages).Sublist sub)
    (ho : (w.passedOn ++ w.paced ++ ms ++ w.heldMessages ++ w.told).Perm sub) :
    Counted w' sub := by
  have hh : w'.heldMessages = w.heldMessages := congrArg (List.flatMap Outgoing.messages) hp.held
  constructor
  · rw [queued, hh, ← List.append_assoc]
    exact (hp.inOrder.append_right _).trans hi
  · rw [queued, hh]
    refine .trans (List.perm_iff_count.mpr fun m => ?_) ho
    have h := List.perm_iff_count.mp hp.once m
    simp only [List.count_append] at h ⊢
    omega

theorem Counted.passes (h : Counted w sub) (hh : w.held = []) (hp : Passes e w w' ms) :
    Counted w' (sub ++ ms) := by
  have hm : w.heldMessages = [] := congrArg (List.flatMap Outgoing.messages) hh
  have hi := h.inOrder
  have ho := h.once
  rw [queued, hm, List.append_nil] at hi ho
  apply hp.counted
  · rw [hm, List.append_nil]
    exact hi.append_right ms
  · rw [hm, List.append_nil]
    refine .trans (List.perm_iff_count.mpr fun m => ?_) (ho.append_right ms)
    simp only [List.count_append]
    omega

theorem Counted.accounted (h : Counted w sub) (hh : w.held = []) : Accounted e w sub where
  toCounted := h
  idle _ _ := hh
  ended _ := .inl hh

theorem flushHeldCommands_accounted (l : List Outgoing) (h : Counted w sub) (hl : w.held = l)
    (ha : w.aliveCheck = none) (hr : w.running = true) :
    Accounted e (flushHeldCommands e l w) sub := by
  induction l generalizing w with
  | nil => exact h.accounted hl
  | cons o rest ih =>
    have hp : Passes e { w with held := rest } (onCommand e { w with held := rest } (.outgoing o))
        o.messages := onCommand_passes (w := { w with held := rest }) ha o
    have hq : w.queued = w.paced ++ (o.messages ++ rest.flatMap Outgoing.messages) := by
      simp [queued, heldMessages, hl]
    have hc : Counted (onCommand e { w with held := rest } (.outgoing o)) sub := by
      have hi := h.inOrder
      have ho := h.once
      rw [hq, ← List.append_assoc, ← List.append_assoc] at hi ho
      exact hp.counted hi ho
    rw [flushHeldCommands]
    split_ifs with hr'
    · exact ih hc hp.held (hp.aliveCheck.trans ha) hr'
    · have hu := (hp.running (Bool.eq_false_iff.mpr hr')).resolve_left (by simp [hr])
      exact ⟨hc, fun h => absurd h hr', fun _ => .inr hu⟩

theorem startAliveCheck_accounted (h : Accounted e w sub) (hr : w.running = true) (timeout : ℕ) :
    Accounted e (w.startAliveCheck e timeout) sub := by
  unfold startAliveCheck
  dsimp only
  split_ifs with hs hw
  · exact h
  all_goals
    have hh : w.held = [] := h.idle hr (by simp_all)
    refine Counted.accounted (h.toCounted.congr ?_ rfl ?_) hh
  · simp [note, passedOn, act, List.filterMap_cons, Effect.handed?]
  · simp [note, told, act, Effect.unsent]
  · simp [disconnect, notify, passedOn, act, List.filterMap_cons, Effect.handed?]
  · simp [disconnect, notify, told, act, Effect.unsent]

/-- What a branch of the loop leaves, before the hold is flushed. -/
structure Settled (e : World) (w : Worker) (sub : List Message) : Prop extends Counted w sub where
  ended : w.running = false → w.held = [] ∨ Unheard e w

theorem refuse_settled (h : Counted w sub) (event : Event) :
    Settled e (w.emit e event ms) (sub ++ ms) where
  inOrder := by
    have hp : (w.emit e event ms).passedOn = w.passedOn := by
      simp [passedOn, emit, notify, act, List.filterMap_cons, Effect.handed?]
    rw [hp]
    exact h.inOrder.trans (List.sublist_append_left sub ms)
  once := by
    have hp : (w.emit e event ms).passedOn = w.passedOn := by
      simp [passedOn, emit, notify, act, List.filterMap_cons, Effect.handed?]
    have ht : (w.emit e event ms).told = w.told ++ ms := by
      simp [told, emit, notify, act, Effect.unsent]
    rw [hp, ht, ← List.append_assoc]
    exact h.once.append_right ms
  ended hr := .inr ⟨w.events, Nat.lt_succ_self _, hr⟩

theorem hold_settled (h : Counted w sub) (hr : w.running = true) (o : Outgoing) :
    Settled e { w with held := w.held ++ [o] } (sub ++ o.messages) where
  inOrder := by
    have hq : queued { w with held := w.held ++ [o] } = w.queued ++ o.messages := by
      simp [queued, heldMessages]
    rw [hq, ← List.append_assoc]
    exact h.inOrder.append_right _
  once := by
    have hq : queued { w with held := w.held ++ [o] } = w.queued ++ o.messages := by
      simp [queued, heldMessages]
    rw [hq]
    refine .trans (List.perm_iff_count.mpr fun m => ?_) (h.once.append_right o.messages)
    simp only [List.count_append, passedOn, told]
    omega
  ended he := by rw [hr] at he; cases he

theorem aliveCheckAnswered_settled (h : Accounted e w sub) (first : String)
    (second : Option String) : Settled e (w.aliveCheckAnswered first second) sub := by
  unfold aliveCheckAnswered
  split_ifs
  · refine ⟨h.toCounted.congr ?_ rfl ?_, h.ended⟩
    · simp [note, passedOn, act, List.filterMap_cons, Effect.handed?]
    · simp [note, told, act, Effect.unsent]
  · exact ⟨h.toCounted, h.ended⟩

theorem onAliveDeadline_settled (h : Counted w sub) : Settled e w.onAliveDeadline sub := by
  have hh : w.onAliveDeadline.held = [] := by
    simp only [onAliveDeadline, reportHeld]
    split_ifs <;> rfl
  have hp : w.onAliveDeadline.passedOn = w.passedOn := by
    simp only [onAliveDeadline, reportHeld]
    split_ifs <;> simp [disconnect, note, notify, passedOn, act, List.filterMap_cons, Effect.handed?]
  have ht : w.onAliveDeadline.told = w.told ++ w.heldMessages := by
    simp only [onAliveDeadline, reportHeld]
    split_ifs with hl
    · simp [disconnect, note, notify, told, act, Effect.unsent, heldMessages]
    · have hl : w.held = [] := by simpa using hl
      simp [disconnect, note, notify, told, act, Effect.unsent, heldMessages, hl]
  have hq : w.onAliveDeadline.queued = w.paced := by
    rw [queued_of_idle hh]
    simp only [onAliveDeadline, reportHeld]
    split_ifs <;> rfl
  refine ⟨⟨?_, ?_⟩, fun _ => .inl hh⟩
  · rw [hp, hq]
    exact ((List.sublist_append_left w.paced w.heldMessages).append_left _).trans h.inOrder
  · rw [hp, hq, ht]
    refine .trans (List.perm_iff_count.mpr fun m => ?_) h.once
    simp only [List.count_append, queued]
    omega

theorem onCommand_settled (h : Accounted e w sub) (hr : w.running = true) (c : Command) :
    Settled e (w.onCommand e c) (sub ++ (Input.command c).messages) := by
  cases c with
  | checkAlive timeout =>
    have ha := startAliveCheck_accounted (e := e) h hr timeout
    rw [show (Input.command (.checkAlive timeout)).messages = [] from rfl, List.append_nil]
    exact ⟨ha.toCounted, ha.ended⟩
  | outgoing o =>
    by_cases ha : w.aliveCheck = none
    · have hp := onCommand_passes (e := e) ha o
      have hh := h.idle hr ha
      exact ⟨h.toCounted.passes hh hp, fun _ => .inl (hp.held.trans hh)⟩
    · have hs : w.aliveCheck.isSome = true := Option.isSome_iff_ne_none.mpr ha
      cases o <;> simp only [onCommand, hs, if_true]
      all_goals
        split_ifs with hf
        · exact refuse_settled h.toCounted _
        · exact hold_settled h.toCounted hr _

theorem branch_settled (h : Accounted e w sub) (hr : w.running = true) (i : Input) :
    Settled e (w.branch e i) (sub ++ i.messages) := by
  cases i with
  | command c => exact onCommand_settled h hr c
  | welcome =>
    rw [show Input.welcome.messages = [] from rfl, List.append_nil]
    exact ⟨h.toCounted.congr rfl rfl rfl, h.ended⟩
  | pong first second =>
    rw [show (Input.pong first second).messages = [] from rfl, List.append_nil]
    exact aliveCheckAnswered_settled h first second
  | pacedTimer =>
    rw [branch]
    split_ifs with hd
    · have ha : w.aliveCheck = none := by
        by_contra ha
        simp [pacedDeadline, ha] at hd
      have hp := sendPacedLines_passes (e := e) w.paced rfl
      have hh := h.idle hr ha
      exact ⟨h.toCounted.passes hh hp, fun _ => .inl (hp.held.trans hh)⟩
    · rw [show Input.pacedTimer.messages = [] from rfl, List.append_nil]
      exact ⟨h.toCounted, h.ended⟩
  | aliveTimer =>
    rw [show Input.aliveTimer.messages = [] from rfl, List.append_nil, branch]
    split_ifs with hd
    · exact onAliveDeadline_settled h.toCounted
    · exact ⟨h.toCounted, h.ended⟩

theorem step_accounted (h : Accounted e w sub) (i : Input) :
    Accounted e (w.step e i) (sub ++ if w.running then i.messages else []) := by
  by_cases hr : w.running = true
  · have hb := branch_settled h hr i
    simp only [step, hr, if_true]
    split_ifs with hf
    · exact flushHeldCommands_accounted _ hb.toCounted rfl hf.2.1 hf.1
    · refine ⟨hb.toCounted, fun hr' ha => ?_, hb.ended⟩
      by_contra hh
      exact hf ⟨hr', ha, hh⟩
  · simp only [step, hr]
    simpa using h

theorem new_accounted (e : World) (nonce : String) : Accounted e (new e nonce) [] :=
  Counted.accounted ⟨List.Sublist.refl [], List.Perm.refl []⟩ rfl

end Accounting

/-- Messages are passed on in the order they were given, and each is at any time passed on once,
waiting, told to be not sent, or dropped with the worker; while the application listens only lines
that waited for their turn are dropped. -/
theorem messages_accounted (e : World) (nonce : String) (is : List Input) :
    let w := Machine.exec (step e) (new e nonce) is
    let given := submitted e (new e nonce) is
    w.passedOn.Sublist given ∧
      (w.passedOn ++ w.waiting ++ w.told ++ w.dropped).Perm given ∧
      (Unheard e w ∨ w.dropped.Sublist w.paced) := by
  intro w given
  have h : Accounted e w given :=
    Machine.collect_invariant (Accounted e) (fun _ _ _ h => step_accounted h _)
      (new_accounted e nonce)
  refine ⟨(List.sublist_append_left _ _).trans h.inOrder, ?_, ?_⟩
  · refine .trans (List.perm_iff_count.mpr fun m => ?_) h.once
    rw [waiting, dropped]
    split_ifs <;> simp only [List.count_append, List.count_nil] <;> omega
  · rw [dropped]
    split_ifs with hr
    · exact .inr (List.nil_sublist _)
    · refine (h.ended (Bool.eq_false_iff.mpr hr)).symm.imp_right fun hh => ?_
      rw [queued_of_idle hh]

/-- A paste is waiting for its turn when a check is not answered: its last line goes with the
worker. -/
theorem last_line_dropped :
    let e : World := { clock := fun _ => 0, listens := fun _ => true, writes := fun _ => true }
    let line (text : String) : Message := { target := "#c", text, displayText := text }
    let paste := ["1", "2", "3", "4", "5"].map line
    let is := [.welcome, .command (.outgoing (.lines paste)), .command (.checkAlive 0), .aliveTimer]
    let w := Machine.exec (step e) (new e "0") is
    w.dropped = [line "5"] ∧
      ¬ (w.passedOn ++ w.waiting ++ w.told).Perm (submitted e (new e "0") is) := by
  refine ⟨by decide, fun h => ?_⟩
  exact absurd h.length_eq (by decide)

end Worker

end CayenChat
