import CayenChat.History.Reply
import CayenChat.Lib.Machine

/-! # Calls of the request queue

The operations the connection's worker calls, in any order and with any
arguments, and what each of them gives back.
-/

namespace CayenChat

/-- A call, with the line or the time it is given. -/
inductive HistoryCall
  | setCasemapping (casemapping : CaseMapping)
  | isupport (m : IrcMessage)
  | enqueue (channel : String)
  | enqueueTargets (since now : SystemTime)
  | enqueueOlder (channel : String) (request : ℕ) (reference : MessageReference) (limit : ℕ)
  | forget (channel : String)
  | nextRequest (now : Instant)
  | tick (now : Instant)
  | reset
  | observe (m : IrcMessage)

namespace HistoryRequests

/-- The state a call leaves behind. -/
def next (h : HistoryRequests) : HistoryCall → HistoryRequests
  | .setCasemapping casemapping => h.setCasemapping casemapping
  | .isupport m => h.isupport m
  | .enqueue channel => (h.enqueue channel).1
  | .enqueueTargets since now => h.enqueueTargets since now
  | .enqueueOlder channel request reference limit =>
    (h.enqueueOlder channel request reference limit).1
  | .forget channel => (h.forget channel).1
  | .nextRequest now => (h.nextRequest now).1
  | .tick now => (h.tick now).1
  | .reset => h.reset.1
  | .observe m => (h.observe m).1

def reported (h : HistoryRequests) : HistoryCall → List Finished
  | .forget channel => (h.forget channel).2
  | .tick now => (h.tick now).2.toList.flatMap Observed.ended
  | .reset => h.reset.2
  | .observe m => (h.observe m).2.ended
  | _ => []

end HistoryRequests

end CayenChat

/-! ## Every request ends once

The requests handed in, waiting, being answered and reported as ended balance
over every sequence of calls. Each line or tick ends the outstanding request or
leaves it alone, and adds to the queue only requests for the latest lines.
-/

namespace CayenChat

def Queued.request (q : Queued) : String × Page := (q.channel, q.page)
def Outstanding.request (o : Outstanding) : String × Page := (o.channel, o.page)
def Finished.request (f : Finished) : String × Page := (f.channel, f.page)

def olderRequests (l : List (String × Page)) : List ℕ := l.filterMap (·.2.request)

@[simp] theorem olderRequests_append (l r : List (String × Page)) :
    olderRequests (l ++ r) = olderRequests l ++ olderRequests r := List.filterMap_append

theorem olderRequests_latest {l : List (String × Page)} (h : ∀ r ∈ l, r.2.isLatest = true) :
    olderRequests l = [] := by
  refine List.filterMap_eq_nil_iff.mpr fun r hr => ?_
  have hl := h r hr
  cases hp : r.2 <;> simp [hp, Page.isLatest, Page.request] at hl ⊢

namespace HistoryRequests

def beingAnswered (h : HistoryRequests) : List (String × Page) :=
  h.outstanding.toList.map Outstanding.request

def waiting (h : HistoryRequests) : List (String × Page) := h.queue.map Queued.request

def pendingOlder (h : HistoryRequests) : List ℕ := olderRequests (h.beingAnswered ++ h.waiting)

def accepted (h : HistoryRequests) : HistoryCall → List ℕ
  | .enqueueOlder channel request reference limit =>
    match (h.enqueueOlder channel request reference limit).2 with
    | .ok () => [request]
    | .error _ => []
  | _ => []

def reportedOlder (h : HistoryRequests) (c : HistoryCall) : List ℕ :=
  olderRequests ((h.reported c).map Finished.request)

def handedOut (h : HistoryRequests) : HistoryCall → List (String × Page)
  | .nextRequest now => (h.nextRequest now).2.toList.map fun (channel, page, _) => (channel, page)
  | _ => []

/-- The requests handed out that a call reports as ended: a withdrawal reports them first, leaving
a channel reports only queued ones. -/
def answered (h : HistoryRequests) : HistoryCall → List (String × Page)
  | .forget _ => []
  | .reset => (h.reset.2.take h.beingAnswered.length).map Finished.request
  | c => (h.reported c).map Finished.request

/-- What a line or a tick does to the requests, given those it ends. -/
structure Settles (h h' : HistoryRequests) (ended : List (String × Page)) : Prop where
  outstanding : h.beingAnswered = ended ++ h'.beingAnswered
  queue : ∃ extra, h'.waiting = h.waiting ++ extra ∧ ∀ r ∈ extra, r.2.isLatest = true

namespace Settles

variable {h h₁ h₂ : HistoryRequests} {o : Outstanding} {m : IrcMessage} {r s : List (String × Page)}

theorem keep (ho : h₁.beingAnswered = h.beingAnswered) (hq : h₁.queue = h.queue) :
    Settles h h₁ [] :=
  ⟨ho.symm, [], by rw [waiting, hq, waiting, List.append_nil], by simp⟩

theorem refl : Settles h h [] := keep rfl rfl

theorem trans (h01 : Settles h h₁ r) (h12 : Settles h₁ h₂ s) : Settles h h₂ (r ++ s) := by
  obtain ⟨ho, extra, hq, he⟩ := h01
  obtain ⟨ho', extra', hq', he'⟩ := h12
  refine ⟨by rw [ho, ho', List.append_assoc], extra ++ extra', ?_, ?_⟩
  · rw [hq', hq, List.append_assoc]
  · exact fun r hr => (List.mem_append.mp hr).elim (he r) (he' r)

theorem pendingOlder (hs : Settles h h₁ r) :
    h.pendingOlder = olderRequests r ++ h₁.pendingOlder := by
  obtain ⟨ho, extra, hq, he⟩ := hs
  simp [HistoryRequests.pendingOlder, ho, hq, olderRequests_latest he]

theorem push {channel selector : String} {page : Page} {limit : ℕ}
    (ho : h₁.beingAnswered = h.beingAnswered)
    (hq : h₁.queue = h.queue ++ [⟨channel, page, selector, limit⟩]) (hp : page.isLatest = true) :
    Settles h h₁ [] :=
  ⟨ho.symm, [(channel, page)], by rw [waiting, hq, waiting, List.map_append]; rfl, by simpa using hp⟩

theorem enqueue (h : HistoryRequests) (channel : String) : Settles h (h.enqueue channel).1 [] := by
  have htake : (h.takeResume channel).1.outstanding = h.outstanding ∧
      (h.takeResume channel).1.queue = h.queue := by
    unfold takeResume
    split <;> exact ⟨rfl, rfl⟩
  unfold HistoryRequests.enqueue
  split_ifs
  · exact refl
  · exact refl
  · dsimp only
    split
    · exact push (by rw [beingAnswered, htake.1, beingAnswered]) (by rw [htake.2]) rfl
    · exact push (by rw [beingAnswered, htake.1, beingAnswered]) (by rw [htake.2]) rfl

theorem enqueuePeers (peers : List String) (h : HistoryRequests) :
    Settles h (h.enqueuePeers peers).1 [] := by
  induction peers generalizing h with
  | nil => exact refl
  | cons peer peers ih =>
    have he := enqueue h peer
    unfold HistoryRequests.enqueuePeers
    split
    · rename_i h₁ heq
      rw [heq] at he
      exact he.trans (ih h₁)
    · rename_i heq
      rwa [heq] at he

theorem fallBack (h : HistoryRequests) (f : Finished) : Settles h (h.fallBack f) [] := by
  unfold HistoryRequests.fallBack
  split_ifs
  · exact push rfl rfl rfl
  · exact refl

theorem end_outstanding (ho : h.outstanding = some o) (h' : h₁.outstanding = none)
    (hq : h₁.queue = h.queue) : Settles h h₁ [o.request] :=
  ⟨by simp [beingAnswered, ho, h'], [], by simp [waiting, hq], by simp⟩

theorem keep_outstanding {o' : Outstanding} (ho : h.outstanding = some o)
    (h' : h₁.outstanding = some o') (hr : o'.request = o.request) (hq : h₁.queue = h.queue) :
    Settles h h₁ [] :=
  keep (by simp [beingAnswered, ho, h', hr]) hq

theorem finish (ho : h.outstanding = some o) :
    Settles h (h.finish o).1 [(h.finish o).2.request] := by
  have he : Settles h { h with outstanding := none } [o.request] := end_outstanding ho rfl rfl
  unfold HistoryRequests.finish
  cases o.page.isTargets with
  | true => exact he.trans (enqueuePeers _ _)
  | false => exact he

theorem observeClose (h : HistoryRequests) (reference : String) :
    Settles h (h.observeClose reference).1
      ((h.observeClose reference).2.ended.map Finished.request) := by
  unfold HistoryRequests.observeClose
  split_ifs
  · exact keep rfl rfl
  · cases ho : h.outstanding with
    | none => exact refl
    | some o =>
      dsimp only
      split_ifs
      · exact keep_outstanding ho rfl rfl rfl
      · exact finish ho
      · exact refl

theorem observeReply (h : HistoryRequests) (reference target : String) (ended : Bool) :
    Settles h (h.observeReply reference target ended).1
      ((h.observeReply reference target ended).2.ended.map Finished.request) := by
  unfold HistoryRequests.observeReply
  split
  · rename_i o ho
    exact keep_outstanding (Option.filter_eq_some_iff.mp ho).1 rfl rfl rfl
  · split_ifs
    · exact keep rfl rfl
    · exact refl

theorem observeRoot (h : HistoryRequests) (reference : String) (kind : Option String)
    (params : Option (List String)) (ended : Bool) :
    Settles h (h.observeRoot reference kind params ended).1
      ((h.observeRoot reference kind params ended).2.ended.map Finished.request) := by
  unfold HistoryRequests.observeRoot
  split_ifs
  · split
    · rename_i o ho
      exact keep_outstanding (Option.filter_eq_some_iff.mp ho).1 rfl rfl rfl
    · exact refl
  · split
    · exact refl
    · exact observeReply ..
  · exact refl

theorem observeNested {reference : String} {parent : Option String}
    (hn : h.observeNested reference parent = some h₁) : Settles h h₁ [] := by
  obtain ⟨p, -, hn⟩ := Option.bind_eq_some_iff.mp hn
  split at hn
  · obtain rfl := Option.some.inj hn
    split_ifs
    · exact keep rfl rfl
    · exact refl
  · obtain ⟨o, ho, rfl⟩ := Option.map_eq_some_iff.mp hn
    refine keep_outstanding (Option.filter_eq_some_iff.mp ho).1 rfl ?_ rfl
    unfold Outstanding.nest
    split_ifs <;> rfl

theorem observeBatch (h : HistoryRequests) (reference : String) (kind : Option String)
    (params : Option (List String)) (parent : Option String) (ended : Bool) :
    Settles h (h.observeBatch reference kind params parent ended).1
      ((h.observeBatch reference kind params parent ended).2.ended.map Finished.request) := by
  unfold HistoryRequests.observeBatch
  split
  · exact observeClose ..
  · split
    · exact refl
    · split_ifs
      · exact refl
      · split
        · rename_i hn
          exact observeNested hn
        · exact observeRoot ..

theorem observeInReply (ho : h.outstanding = some o) :
    Settles h (h.observeInReply o m).1
      ((h.observeInReply o m).2.ended.map Finished.request) := by
  unfold HistoryRequests.observeInReply
  split
  · split
    · dsimp only
      split
      · exact keep_outstanding ho rfl rfl rfl
      · exact refl
    · exact refl
  · split
    · split
      · exact keep_outstanding ho rfl rfl rfl
      · exact keep_outstanding ho rfl rfl rfl
    · exact refl

theorem observeOutside (ho : h.outstanding = some o) :
    Settles h (h.observeOutside o m).1
      ((h.observeOutside o m).2.ended.map Finished.request) := by
  unfold HistoryRequests.observeOutside
  split
  · have he : Settles h { h with outstanding := none } [o.request] := end_outstanding ho rfl rfl
    exact he.trans (fallBack _ _)
  · exact refl

theorem observe (h : HistoryRequests) (m : IrcMessage) :
    Settles h (h.observe m).1 ((h.observe m).2.ended.map Finished.request) := by
  unfold HistoryRequests.observe
  split
  · exact refl
  · split
    · exact observeBatch ..
    · split
      · exact refl
      · cases ho : h.outstanding with
        | none => exact refl
        | some o =>
          dsimp only
          split_ifs
          · exact observeInReply ho
          · exact observeOutside ho

theorem tick (h : HistoryRequests) (now : Instant) :
    Settles h (h.tick now).1
      (((h.tick now).2.toList.flatMap Observed.ended).map Finished.request) := by
  unfold HistoryRequests.tick
  cases ho : h.outstanding with
  | none => exact refl
  | some o =>
    dsimp only
    split_ifs
    · exact refl
    · have he : Settles h (h.giveUp o) [o.request] := by
        unfold giveUp
        split <;> exact end_outstanding ho rfl rfl
      exact he.trans (fallBack _ _)

end Settles

variable (h : HistoryRequests)

theorem filterMap_unsent (l : List Queued) :
    olderRequests ((l.filterMap unsent).map Finished.request) =
      olderRequests (l.map Queued.request) := by
  induction l with
  | nil => rfl
  | cons q l ih =>
    cases hp : q.page <;>
      simp_all [unsent, olderRequests, Page.isBefore, Page.request, Finished.failure,
        Finished.request, Queued.request]

theorem forget_ledger (channel : String) :
    h.pendingOlder.Perm (olderRequests ((h.forget channel).2.map Finished.request) ++
      (h.forget channel).1.pendingOlder) := by
  let left := fun q : Queued => h.casemapping.same q.channel channel
  have hp : (olderRequests (h.queue.map Queued.request)).Perm
      (olderRequests ((h.queue.filter left).map Queued.request) ++
        olderRequests ((h.queue.filter (!left ·)).map Queued.request)) := by
    rw [← olderRequests_append, ← List.map_append]
    exact ((List.filter_append_perm left h.queue).map _).filterMap _ |>.symm
  simp only [pendingOlder, olderRequests_append, forget, filterMap_unsent, waiting, beingAnswered]
  refine (hp.append_left _).trans ?_
  rw [← List.append_assoc, ← List.append_assoc]
  exact List.perm_append_comm.append_right _

theorem reset_ledger :
    h.pendingOlder = olderRequests (h.reset.2.map Finished.request) ++ h.reset.1.pendingOlder := by
  have ho : (h.outstanding.toList.map fun o => Finished.failure o.channel o.page none).map
      Finished.request = h.beingAnswered := by
    rw [List.map_map]; rfl
  have he : h.reset.1.pendingOlder = [] := rfl
  rw [he, List.append_nil, reset, List.map_append, ho, olderRequests_append, filterMap_unsent,
    pendingOlder, olderRequests_append, waiting]

theorem enqueueOlder_cases (channel : String) (request : ℕ) (reference : MessageReference)
    (limit : ℕ) :
    (∃ f, h.enqueueOlder channel request reference limit = (h, .error f)) ∨
      ∃ selector, h.enqueueOlder channel request reference limit =
        ({ h with queue := ⟨channel, .before request, selector, max limit 1⟩ :: h.queue },
          .ok ()) := by
  unfold enqueueOlder
  split
  · exact Or.inl ⟨_, rfl⟩
  · split_ifs
    · exact Or.inl ⟨_, rfl⟩
    · exact Or.inl ⟨_, rfl⟩
    · exact Or.inr ⟨_, rfl⟩

theorem enqueueOlder_ledger (channel : String) (request : ℕ) (reference : MessageReference)
    (limit : ℕ) :
    (h.pendingOlder ++ h.accepted (.enqueueOlder channel request reference limit)).Perm
      (h.enqueueOlder channel request reference limit).1.pendingOlder := by
  rcases h.enqueueOlder_cases channel request reference limit with ⟨f, he⟩ | ⟨selector, he⟩
  · simp [accepted, he]
  · simp only [accepted, he, pendingOlder, waiting, beingAnswered, List.map_cons,
      olderRequests_append, List.append_assoc]
    exact List.perm_append_comm.append_left _

theorem nextRequest_ledger (now : Instant) :
    h.pendingOlder = (h.nextRequest now).1.pendingOlder ∧
      h.beingAnswered ++ h.handedOut (.nextRequest now) = (h.nextRequest now).1.beingAnswered := by
  unfold handedOut nextRequest
  split
  · rename_i q queue ho hq
    simp [pendingOlder, beingAnswered, waiting, ho, hq, Outstanding.request, Queued.request]
  · simp

theorem enqueueTargets_ledger (since now : SystemTime) :
    (h.enqueueTargets since now).pendingOlder = h.pendingOlder ∧
      (h.enqueueTargets since now).outstanding = h.outstanding := by
  unfold enqueueTargets
  split_ifs
  · exact ⟨rfl, rfl⟩
  · simp [pendingOlder, waiting, beingAnswered, olderRequests, Queued.request, Page.request]

theorem older_balance (c : HistoryCall) :
    (h.pendingOlder ++ h.accepted c).Perm (h.reportedOlder c ++ (h.next c).pendingOlder) := by
  cases c with
  | setCasemapping => simp [accepted, reportedOlder, reported, next, setCasemapping, pendingOlder,
      waiting, beingAnswered, olderRequests]
  | isupport m =>
    obtain ⟨limit, types, he⟩ := h.isupport_eq m
    simp [accepted, reportedOlder, reported, next, pendingOlder, waiting, beingAnswered, he,
      olderRequests]
  | enqueue channel =>
    have hs := (Settles.enqueue h channel).pendingOlder
    simp [accepted, reportedOlder, reported, next, hs]
  | enqueueTargets since now =>
    simp [accepted, reportedOlder, reported, next, (h.enqueueTargets_ledger since now).1,
      olderRequests]
  | enqueueOlder channel request reference limit =>
    exact h.enqueueOlder_ledger channel request reference limit
  | forget channel =>
    simp only [accepted, List.append_nil]
    exact h.forget_ledger channel
  | nextRequest now =>
    simp [accepted, reportedOlder, reported, next, ← (h.nextRequest_ledger now).1, olderRequests]
  | tick now =>
    have hs := (Settles.tick h now).pendingOlder
    simp [accepted, reportedOlder, reported, next, hs]
  | reset =>
    simp only [accepted, List.append_nil]
    exact List.Perm.of_eq h.reset_ledger
  | observe m =>
    have hs := (Settles.observe h m).pendingOlder
    simp [accepted, reportedOlder, reported, next, hs]

theorem handedOut_balance (c : HistoryCall) :
    h.beingAnswered ++ h.handedOut c = h.answered c ++ (h.next c).beingAnswered := by
  cases c with
  | setCasemapping => simp [handedOut, answered, reported, next, setCasemapping, beingAnswered]
  | isupport m =>
    obtain ⟨limit, types, he⟩ := h.isupport_eq m
    simp [handedOut, answered, reported, next, beingAnswered, he]
  | enqueue channel =>
    simpa [handedOut, answered, reported, next] using (Settles.enqueue h channel).outstanding
  | enqueueTargets since now =>
    simp [handedOut, answered, reported, next, beingAnswered, (h.enqueueTargets_ledger since now).2]
  | enqueueOlder channel request reference limit =>
    rcases h.enqueueOlder_cases channel request reference limit with ⟨f, he⟩ | ⟨selector, he⟩ <;>
      simp [handedOut, answered, reported, next, he, beingAnswered]
  | forget channel => simp [handedOut, answered, next, forget, beingAnswered]
  | nextRequest now => exact (h.nextRequest_ledger now).2
  | tick now => simpa [handedOut, answered, reported, next] using (Settles.tick h now).outstanding
  | reset =>
    cases ho : h.outstanding <;>
      simp [handedOut, answered, next, reset, beingAnswered, ho, Outstanding.request,
        Finished.request, Finished.failure]
  | observe m =>
    simpa [handedOut, answered, reported, next] using (Settles.observe h m).outstanding

end HistoryRequests

open HistoryRequests in
/-- Every older-page request accepted is reported as often as it is no longer pending; the requests
handed out are the ones answered so far, in order, and at most one outstanding one. -/
theorem requests_end_once (resume : List HistoryResume) (wire : Option Encoding)
    (calls : List HistoryCall) :
    let start := withResume resume wire
    let final := Machine.exec next start calls
    (∀ request, (Machine.collect accepted next start calls).count request =
      (Machine.collect reportedOlder next start calls).count request +
        final.pendingOlder.count request) ∧
    Machine.collect handedOut next start calls =
      Machine.collect answered next start calls ++ final.beingAnswered ∧
    final.beingAnswered.length ≤ 1 := by
  refine ⟨fun request => ?_, ?_, ?_⟩
  · have hb := Machine.collect_count older_balance (withResume resume wire) calls request
    simpa [withResume, pendingOlder, beingAnswered, waiting, olderRequests] using hb
  · have hb := Machine.collect_balance handedOut_balance (withResume resume wire) calls
    simpa [withResume, beingAnswered] using hb
  · unfold beingAnswered
    cases (Machine.exec next (withResume resume wire) calls).outstanding <;> simp

end CayenChat
