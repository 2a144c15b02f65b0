import Mathlib
import CayenChat.Lib.Machine
import CayenChat.Echo.Echoes

/-! # Every message is settled once

Messages tracked, settled, dropped and waiting balance over every sequence of
calls. Labels are numbered, so that none is issued twice, and a line with a
label leaves every message under another one alone.
-/

namespace CayenChat

/-- A call, with the time or the line it is given. -/
inductive EchoCall
  | track (localId : ℕ) (target : String) (notice : Bool) (text : String) (keepText labeled : Bool)
      (now : Instant)
  | untrack (localId : ℕ)
  | expire (now : Instant)
  | reset
  | observe (m : IrcMessage) (currentNick : String) (labeled : Bool)

section Labels

theorem fromDigit_inj : ∀ d < 36, ∀ e < 36, fromDigit d = fromDigit e → d = e := by decide

theorem map_fromDigit_inj {l l' : List ℕ} (hl : ∀ d ∈ l, d < 36) (hl' : ∀ d ∈ l', d < 36)
    (h : l.map fromDigit = l'.map fromDigit) : l = l' := by
  induction l generalizing l' with
  | nil => exact (List.map_eq_nil_iff.mp h.symm).symm
  | cons d l ih =>
    cases l' with
    | nil => cases h
    | cons d' l' =>
      obtain ⟨hd, hr⟩ := List.cons.inj h
      rw [fromDigit_inj d (hl d List.mem_cons_self) d' (hl' d' List.mem_cons_self) hd,
        ih (fun x hx => hl x (List.mem_cons_of_mem _ hx))
          (fun x hx => hl' x (List.mem_cons_of_mem _ hx)) hr]

theorem ofDigits_labelDigits {fuel n : ℕ} (h : n < fuel) :
    Nat.ofDigits 36 (labelDigits fuel n) = n := by
  induction fuel generalizing n with
  | zero => omega
  | succ fuel ih =>
    unfold labelDigits
    split_ifs with hn
    · simp only [Nat.ofDigits_cons, Nat.ofDigits_nil]; omega
    · rw [Nat.ofDigits_cons, ih (by omega)]
      omega

theorem lt_of_mem_labelDigits {fuel n d : ℕ} (h : d ∈ labelDigits fuel n) : d < 36 := by
  induction fuel generalizing n with
  | zero => cases h
  | succ fuel ih =>
    unfold labelDigits at h
    rcases List.mem_cons.mp h with rfl | h
    · omega
    · split_ifs at h
      · cases h
      · exact ih h

theorem labelFor_injective : Function.Injective labelFor := by
  intro a b h
  have hd : (labelDigits (a + 1) a).map fromDigit = (labelDigits (b + 1) b).map fromDigit := by
    have h := congrArg String.toList h
    simpa [labelFor] using h
  have hl := map_fromDigit_inj (fun _ => lt_of_mem_labelDigits) (fun _ => lt_of_mem_labelDigits) hd
  rw [← ofDigits_labelDigits (Nat.lt_succ_self a), hl, ofDigits_labelDigits (Nat.lt_succ_self b)]

end Labels

namespace Echoes

def next (e : Echoes) : EchoCall → Echoes
  | .track localId target notice text keepText labeled now =>
    (e.track localId target notice text keepText labeled now).1
  | .untrack localId => e.untrack localId
  | .expire now => (e.expire now).1
  | .reset => e.reset.1
  | .observe m currentNick labeled => (e.observe m currentNick labeled).1

def tracked (e : Echoes) : EchoCall → List ℕ
  | .track localId target notice text keepText labeled now =>
    (e.track localId target notice text keepText labeled now).2.toList.map fun _ => localId
  | _ => []

def issued (e : Echoes) : EchoCall → List String
  | .track localId target notice text keepText labeled now =>
    (e.track localId target notice text keepText labeled now).2.toList.flatMap Option.toList
  | _ => []

def untracked (e : Echoes) : EchoCall → List ℕ
  | .untrack localId => e.outstanding.filter (· == localId)
  | _ => []

def settled (e : Echoes) : EchoCall → List ℕ
  | .expire now => (e.expire now).2.map EchoEvent.localId
  | .reset => e.reset.2.map EchoEvent.localId
  | .observe m currentNick labeled =>
    ((e.observe m currentNick labeled).2.getD []).map EchoEvent.localId
  | _ => []

variable {e : Echoes} {m : IrcMessage} {matching : Pending → Bool}
  {event : Pending → Option EchoEvent}

theorem confirmed_localId (p : Pending) (m : Option IrcMessage) :
    (confirmed p m).localId = p.localId := by
  unfold confirmed
  split <;> rfl

theorem labeledEvent_localId {currentNick : String} {p : Pending} {ev : EchoEvent}
    (h : labeledEvent m currentNick p = some ev) : ev.localId = p.localId := by
  unfold labeledEvent at h
  split at h
  · split_ifs at h; rw [← Option.some.inj h, confirmed_localId]
  · split_ifs at h; rw [← Option.some.inj h, confirmed_localId]
  · split_ifs at h
    · rw [← Option.some.inj h, confirmed_localId]
    · rw [← Option.some.inj h]; rfl
  · split_ifs at h; rw [← Option.some.inj h]; rfl
  · cases h

theorem settleFirst_cases (hid : ∀ p ev, event p = some ev → ev.localId = p.localId) :
    e.settleFirst matching event = (e, none) ∨ ∃ before p after ev,
      e.pending = before ++ p :: after ∧ matching p = true ∧ ev.localId = p.localId ∧
        e.settleFirst matching event = ({ e with pending := before ++ after }, some [ev]) := by
  unfold settleFirst
  split
  · rename_i ev h
    obtain ⟨p, hf, he⟩ := Option.bind_eq_some_iff.mp h
    obtain ⟨hp, before, after, hl, hb⟩ := List.find?_eq_some_iff_append.mp hf
    refine Or.inr ⟨before, p, after, ev, hl, hp, hid p ev he, ?_⟩
    rw [hl, List.eraseP_append_right _ (by simpa using hb), List.eraseP_cons_of_pos hp]
  · exact Or.inl rfl

theorem settleFirst_ledger (hid : ∀ p ev, event p = some ev → ev.localId = p.localId) :
    e.outstanding.Perm ((((e.settleFirst matching event).2.getD []).map EchoEvent.localId) ++
      (e.settleFirst matching event).1.outstanding) := by
  rcases settleFirst_cases (e := e) hid with
    h | ⟨before, p, after, ev, hl, -, hev, h⟩
  · rw [h]; exact List.Perm.refl _
  · rw [h]
    simp only [outstanding, hl, List.map_append, List.map_cons, Option.getD_some, List.map_nil, hev,
      List.singleton_append]
    exact List.perm_middle

theorem observeBatch_pending (e : Echoes) (m : IrcMessage) (reference : String) :
    (e.observeBatch m reference).1.pending = e.pending ∧
      (e.observeBatch m reference).2.getD [] = [] := by
  unfold observeBatch
  repeat' split
  all_goals exact ⟨rfl, rfl⟩

theorem observe_ledger (e : Echoes) (m : IrcMessage) (currentNick : String) (labeled : Bool) :
    e.outstanding.Perm ((((e.observe m currentNick labeled).2.getD []).map EchoEvent.localId) ++
      (e.observe m currentNick labeled).1.outstanding) := by
  unfold observe
  split
  · rename_i reference _ _ _
    obtain ⟨hp, he⟩ := e.observeBatch_pending m reference
    rw [he, outstanding, outstanding, hp]
    exact List.Perm.refl _
  · split
    · exact settleFirst_ledger fun p ev => labeledEvent_localId
    · split
      · split_ifs
        · refine settleFirst_ledger fun p ev h => ?_
          rw [← Option.some.inj h, confirmed_localId]
        · exact List.Perm.refl _
      · exact List.Perm.refl _

theorem balance (e : Echoes) (c : EchoCall) : (e.outstanding ++ e.tracked c).Perm
    ((e.settled c ++ e.untracked c) ++ (e.next c).outstanding) := by
  cases c with
  | track localId target notice text keepText labeled now =>
    simp only [tracked, settled, untracked, next, track]
    split_ifs <;> simp [outstanding]
  | untrack localId =>
    have hp : e.pending.Perm (e.pending.filter (·.localId == localId) ++
        e.pending.filter (·.localId != localId)) :=
      (List.filter_append_perm _ _).symm
    simp only [tracked, settled, untracked, next, untrack, outstanding, List.append_nil,
      List.nil_append, List.filter_map]
    exact (hp.map Pending.localId).trans (by rw [List.map_append]; rfl)
  | expire now =>
    simp only [tracked, settled, untracked, next, expire, outstanding, List.append_nil, List.map_map]
    exact List.Perm.of_eq (by
      conv_lhs => rw [← List.takeWhile_append_dropWhile (l := e.pending)
        (p := fun p => decide (pendingTtl ≤ now - p.sent))]
      rw [List.map_append]
      rfl)
  | reset =>
    simp [tracked, settled, untracked, next, reset, outstanding, Function.comp_def,
      EchoEvent.localId]
  | observe m currentNick labeled =>
    simpa [tracked, untracked, settled, next] using e.observe_ledger m currentNick labeled

theorem length_pending_next (h : e.pending.length ≤ maxPending) (c : EchoCall) :
    (e.next c).pending.length ≤ maxPending := by
  have hle := (e.balance c).length_eq
  cases c with
  | track localId target notice text keepText labeled now =>
    simp only [next, track]
    by_cases hf : maxPending ≤ e.pending.length
    · rwa [if_pos hf]
    · rw [if_neg hf]
      simp only [List.length_append, List.length_singleton]
      omega
  | _ =>
    simp only [tracked, outstanding, List.length_append, List.length_map, List.length_nil] at hle
    omega

theorem observe_nextLabel (e : Echoes) (m : IrcMessage) (currentNick : String) (labeled : Bool) :
    (e.observe m currentNick labeled).1.nextLabel = e.nextLabel := by
  have hs (matching : Pending → Bool) (event : Pending → Option EchoEvent) :
      (e.settleFirst matching event).1.nextLabel = e.nextLabel := by
    unfold settleFirst
    split <;> rfl
  unfold observe observeBatch
  split
  · repeat' split
    all_goals rfl
  · split
    · exact hs _ _
    · split
      · split
        · exact hs _ _
        · rfl
      · rfl

theorem issued_next (c : EchoCall) : (e.issued c = [] ∧ (e.next c).nextLabel = e.nextLabel) ∨
    (e.issued c = [labelFor (e.nextLabel + 1)] ∧ (e.next c).nextLabel = e.nextLabel + 1) := by
  cases c with
  | track localId target notice text keepText labeled now =>
    simp only [issued, next, track]
    by_cases hf : maxPending ≤ e.pending.length
    · exact Or.inl (by simp [hf])
    · cases labeled with
      | true => exact Or.inr (by simp [hf])
      | false => exact Or.inl (by simp [hf])
  | observe m currentNick labeled => exact Or.inl ⟨rfl, e.observe_nextLabel m currentNick labeled⟩
  | _ => exact Or.inl ⟨rfl, rfl⟩

theorem labels_nodup (calls : List EchoCall) :
    (Machine.collect issued next e calls).Nodup ∧
      ∀ l ∈ Machine.collect issued next e calls, ∃ n, e.nextLabel < n ∧ l = labelFor n := by
  induction calls generalizing e with
  | nil => simp
  | cons c cs ih =>
    obtain ⟨hn, hl⟩ := ih (e := e.next c)
    rw [Machine.collect_cons]
    rcases e.issued_next c with ⟨hi, hc⟩ | ⟨hi, hc⟩
    · rw [hi, List.nil_append, ← hc]
      exact ⟨hn, hl⟩
    · rw [hi, List.singleton_append]
      rw [hc] at hl
      refine ⟨List.nodup_cons.mpr ⟨fun hm => ?_, hn⟩, fun l hm => ?_⟩
      · obtain ⟨n, hlt, he⟩ := hl _ hm
        rw [labelFor_injective he] at hlt
        exact lt_irrefl _ hlt
      · rcases List.mem_cons.mp hm with rfl | hm
        · exact ⟨_, Nat.lt_succ_self _, rfl⟩
        · obtain ⟨n, hlt, he⟩ := hl _ hm
          exact ⟨n, by omega, he⟩

end Echoes

end CayenChat
