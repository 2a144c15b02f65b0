import CayenChat.Reconnect.Sound

/-! # Neither too much nor too little

A run is watched: whether the user has ruled out a connection or asked for one
since, whether the server refused it, and how many errors were shown before.
-/

namespace CayenChat.Reconnect

open Machine

namespace Chat

def Retries (c : Chat) : Prop :=
  c.session.retryPending = true ∧ c.session.retryToken ∈ c.timers ∧
    c.session.manualDisconnect = false ∧ c.session.asleep = false

def SleepMarked (c : Chat) : Prop :=
  c.session.asleep = true ∧ c.session.manualDisconnect = false ∧ c.session.activeConfig = true

def ReadsSaved (c : Chat) : Prop :=
  c.session.activeConfig = false ∧ (.saved ∈ c.reads ∨ .startup ∈ c.reads)

def Starting (c : Chat) : Prop :=
  .reconnect c.session.retryToken ∈ c.reads ∧ c.session.manualDisconnect = false ∨ c.ReadsSaved

/-- There is a connection, something that will start one, or something the user was shown: a
dialog, or an error since so many were shown. -/
def Ready (c : Chat) (mark : ℕ) : Prop :=
  c.session.irc ≠ none ∨ c.Retries ∨ c.SleepMarked ∨ c.Starting ∨ c.prompt ≠ none ∨ mark < c.errors

def Replaceable (c : Chat) : Prop :=
  c.session.manualDisconnect = false ∧
    (c.session.irc ≠ none → c.quitting = true → c.session.asleep = true)

/-- What dialogs and reads may rely on while nobody interferes with them. -/
structure Steady (c : Chat) : Prop where
  fresh : ∀ p, c.prompt = some p → p.resume = .fresh → c.session.irc = none
  prompt : ∀ p, c.prompt = some p → p.resume = .reconnect → c.Replaceable
  read : .reconnect c.session.retryToken ∈ c.reads → c.session.manualDisconnect = false →
    c.Replaceable
  keys : ∀ p, c.prompt = some p → p.submitting = true → ∀ resume, .keys resume ∈ c.reads →
    resume = .fresh ∨ resume = p.resume

end Chat

def Act.connects (c : Chat) : Act → Bool
  | .connect .. | .reconnect _ | .submit .. => true
  | .retryNickname _ => c.session.irc.isNone
  | .disconnect | .quit | .cancel => false

namespace Input

def connects (c : Chat) : Input → Bool
  | .act a => c.offers a && a.connects c
  | _ => false

def bars (c : Chat) : Input → Bool
  | .act .disconnect => c.offers .disconnect
  | .act .cancel => c.offers .cancel
  | _ => false

def quits (c : Chat) : Input → Bool
  | .act .quit => c.offers .quit
  | _ => false

def refuses (c : Chat) : Input → Bool
  | .ended generation (.refused password changed) =>
    c.hasEnded generation (.refused password changed)
  | _ => false

end Input

structure Watch where
  chat : Chat
  /-- The user ruled out a connection, and has not asked for one since. -/
  barred : Bool := false
  /-- The last such act of the user asked for a connection. -/
  wanted : Bool := false
  /-- The server refused the connection since. -/
  refused : Bool := false
  /-- How many errors were shown before that act, or the last start. -/
  mark : ℕ := 0

namespace Watch

def step (w : Watch) (i : Input) : Watch :=
  let chat := w.chat.step i
  let started := chat.attempts ≠ w.chat.attempts
  { chat
    barred := if i.bars w.chat then true else if i.connects w.chat then false else w.barred
    wanted := if i.connects w.chat then true else if i.bars w.chat || i.quits w.chat then false
      else w.wanted
    refused := if i.connects w.chat || started then false else w.refused || i.refuses w.chat
    mark := if started then chat.errors else if i.connects w.chat then w.chat.errors else w.mark }

/-- No dialog and no read is left behind that would act on what the user did afterwards. -/
def Undisturbed (w : Watch) : Input → Prop
  | .act .disconnect => w.chat.prompt = none ∧ ¬w.chat.ReadsSaved
  | .act .cancel => ¬w.chat.ReadsSaved
  | .act .quit => w.chat.prompt = none ∧ .reconnect w.chat.session.retryToken ∉ w.chat.reads
  | .act (.submit ..) => ∀ resume, .keys resume ∉ w.chat.reads
  | _ => True

/-- What holds along an undisturbed run. -/
structure Kept (w : Watch) : Prop where
  sound : w.chat.Sound
  steady : w.chat.Steady
  connected : w.wanted = true → w.chat.session.irc ≠ none → w.chat.Replaceable
  ready : w.wanted = true → w.refused = false → w.chat.Ready w.mark
  barred : w.barred = true → w.chat.session.manualDisconnect = true ∧ w.chat.prompt = none ∧
    ¬w.chat.ReadsSaved
  mark : w.mark ≤ w.chat.errors

end Watch

/-! ## Starts -/

namespace Chat

variable {c c' : Chat}

/-- A connection was started, or its retry. -/
structure Begun (c c' : Chat) : Prop where
  attempts : c'.attempts = c.attempts + 1
  prompt : c'.prompt = none
  manual : c'.session.manualDisconnect = false
  config : c'.session.activeConfig = true
  link : c'.session.irc ≠ none ∧ c'.quitting = false ∨ c'.session.irc = none ∧ c'.Retries

theorem startReconnectWith_begun (hm : c.session.manualDisconnect = false)
    (hc : c.session.activeConfig = true) (fails : Bool) : Begun c (c.startReconnectWith fails) := by
  constructor <;> grind [startReconnectWith, takeConnection, start, scheduleRetry, Retries]

theorem applyConnection_begun (c : Chat) (fails : Bool) : Begun c (c.applyConnection fails) := by
  constructor <;> grind [applyConnection, takeConnection, start, scheduleRetry, Retries]

theorem Begun.replaceable (h : Begun c c') : c'.Replaceable := by
  refine ⟨h.manual, fun hirc hquit => ?_⟩
  rcases h.link with ⟨-, hnot⟩ | ⟨hnone, -⟩
  · exact absurd (hnot.symm.trans hquit) (by decide)
  · exact absurd hnone hirc

theorem Begun.ready (h : Begun c c') (mark : ℕ) : c'.Ready mark := by
  rcases h.link with ⟨hirc, -⟩ | ⟨-, hretry⟩
  · exact .inl hirc
  · exact .inr (.inl hretry)

theorem Begun.steady (h : Begun c c') : c'.Steady where
  fresh p hp := by
    rw [h.prompt] at hp
    cases hp
  prompt p hp := by
    rw [h.prompt] at hp
    cases hp
  read _ _ := h.replaceable
  keys p hp := by
    rw [h.prompt] at hp
    cases hp

end Chat

namespace Watch

variable {w : Watch} {i : Input}

theorem Kept.step_mark (h : w.Kept) (i : Input) : (w.step i).mark ≤ (w.step i).chat.errors := by
  have herrors : w.chat.errors ≤ (w.chat.step i).errors := Chat.step_errors le_rfl i
  have hmark := h.mark
  grind [step]

theorem Kept.begun (h : w.Kept) (hb : Chat.Begun w.chat (w.chat.step i))
    (hbar : (w.step i).barred = false) : (w.step i).Kept where
  sound := Chat.step_sound h.sound i
  steady := hb.steady
  connected _ _ := hb.replaceable
  ready _ _ := hb.ready _
  barred hb' := absurd (hbar.symm.trans hb') (by decide)
  mark := h.step_mark i

end Watch

end CayenChat.Reconnect
