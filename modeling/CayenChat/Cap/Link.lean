import CayenChat.Cap.Effects

/-! # The link to the server

The requests of a client and the lines of a server in flight, each direction in
order. The server answers a request by what it offers at that moment. What the
two sides hold about a capability is compared through what is in flight.
-/

namespace CayenChat

open Capability

/-- A request in flight. It is crossed when a withdrawal of the capability was sent before the
server handles it. -/
inductive Ask
  | ls
  | on (name : String) (crossed : Bool)
  | off (name : String)
  deriving DecidableEq, Repr

def Ask.crossBy (names : List String) : Ask → Ask
  | .on name crossed => .on name (crossed || decide (name ∈ names))
  | ask => ask

/-- A line of the server in flight. -/
inductive ServerLine
  | offers (final : Bool) (tokens : List String)
  | ack (token : String)
  | nak (name : String)
  | new (tokens : List String)
  | del (names : List String)
  | other (m : IrcMessage)
  deriving DecidableEq, Repr

namespace ServerLine

def announces : ServerLine → List String
  | offers _ tokens | new tokens => tokens.map CapNegotiation.offerName
  | _ => []

def withdraws : ServerLine → List String
  | del names => names
  | _ => []

def disables : ServerLine → Bool
  | ack token => (stripFirst '-' token).isSome
  | _ => false

@[simp] theorem withdraws_ack (token : String) : (ack token).withdraws = [] := rfl
@[simp] theorem withdraws_nak (name : String) : (nak name).withdraws = [] := rfl
@[simp] theorem withdraws_new (tokens : List String) : (new tokens).withdraws = [] := rfl
@[simp] theorem withdraws_del (names : List String) : (del names).withdraws = names := rfl
@[simp] theorem withdraws_other (m : IrcMessage) : (other m).withdraws = [] := rfl
@[simp] theorem withdraws_offers (final : Bool) (tokens : List String) :
    (offers final tokens).withdraws = [] := rfl
@[simp] theorem announces_ack (token : String) : (ack token).announces = [] := rfl
@[simp] theorem announces_nak (name : String) : (nak name).announces = [] := rfl
@[simp] theorem announces_del (names : List String) : (del names).announces = [] := rfl
@[simp] theorem announces_other (m : IrcMessage) : (other m).announces = [] := rfl

end ServerLine

/-- What a client holds about capabilities. -/
structure View where
  offered : Finset String
  enabled : Finset String
  pending : List String

/-- A client and a server with what is in flight between them. -/
structure Link where
  view : View
  /-- What the server offers. -/
  offered : Finset String
  /-- What the server considers enabled on this connection. -/
  enabled : Finset String := ∅
  requests : List Ask := []
  replies : List ServerLine := []

def offeredAfter (name : String) : Bool → List ServerLine → Bool
  | now, [] => now
  | now, line :: lines => offeredAfter name
      ((now || decide (name ∈ line.announces)) && decide (name ∉ line.withdraws)) lines

/-- Whether the server has a capability enabled once the requests are handled; a crossed request
is refused. -/
def enabledAfter (name : String) : Bool → List Ask → Bool
  | now, [] => now
  | now, .on other crossed :: asks => enabledAfter name (now || decide (other = name) && !crossed) asks
  | now, .off other :: asks => enabledAfter name (now && decide (other ≠ name)) asks
  | now, .ls :: asks => enabledAfter name now asks

def RefusalsDue (name : String) : Bool → List ServerLine → Prop
  | _, [] => True
  | now, line :: lines => (line = .nak name → now = false) ∧ RefusalsDue name
      ((now || decide (name ∈ line.announces)) && decide (name ∉ line.withdraws)) lines

section Folds

variable {name : String} {now b : Bool} {lines more : List ServerLine} {asks : List Ask}

@[simp] theorem offeredAfter_append : offeredAfter name now (lines ++ more) =
    offeredAfter name (offeredAfter name now lines) more := by
  induction lines generalizing now with
  | nil => rfl
  | cons line lines ih => exact ih

theorem offeredAfter_mono (h : now = true → b = true) (ho : offeredAfter name now lines = true) :
    offeredAfter name b lines = true := by
  induction lines generalizing now b with
  | nil => exact h ho
  | cons line lines ih =>
    refine ih (fun hn => ?_) ho
    simp only [Bool.and_eq_true, Bool.or_eq_true] at hn ⊢
    exact ⟨hn.1.imp_left h, hn.2⟩

theorem offeredAfter_kept (h : ∀ line ∈ lines, name ∉ line.withdraws) :
    offeredAfter name true lines = true := by
  induction lines with
  | nil => rfl
  | cons line lines ih =>
    have hl := h line (by simp)
    simp only [offeredAfter, Bool.true_or, hl, not_false_eq_true, decide_true, Bool.and_self]
    exact ih fun x hx => h x (by simp [hx])

theorem refusalsDue_append (h : RefusalsDue name now lines)
    (hm : RefusalsDue name (offeredAfter name now lines) more) :
    RefusalsDue name now (lines ++ more) := by
  induction lines generalizing now with
  | nil => exact hm
  | cons line lines ih => exact ⟨h.1, ih h.2 hm⟩

theorem refusalsDue_mono (h : b = true → now = true) (hr : RefusalsDue name now lines) :
    RefusalsDue name b lines := by
  induction lines generalizing now b with
  | nil => trivial
  | cons line lines ih =>
    refine ⟨fun hl => ?_, ih (fun hb => ?_) hr.2⟩
    · have := hr.1 hl
      grind
    · simp only [Bool.and_eq_true, Bool.or_eq_true] at hb ⊢
      exact ⟨hb.1.imp_left h, hb.2⟩

@[simp] theorem enabledAfter_append (more : List Ask) : enabledAfter name now (asks ++ more) =
    enabledAfter name (enabledAfter name now asks) more := by
  induction asks generalizing now with
  | nil => rfl
  | cons ask asks ih => cases ask <;> exact ih

theorem enabledAfter_crossed (h : ∀ crossed, .on name crossed ∈ asks → crossed = true) :
    enabledAfter name false asks = false := by
  induction asks with
  | nil => rfl
  | cons ask asks ih =>
    have ih := ih fun crossed hc => h crossed (by simp [hc])
    cases ask with
    | ls => exact ih
    | on other crossed =>
      rw [enabledAfter]
      by_cases ho : other = name
      · subst ho
        rw [h crossed (by simp)]
        simpa using ih
      · simpa [ho] using ih
    | off other => simpa [enabledAfter] using ih

theorem enabledAfter_requests {names : List String} {crossed : String → Bool} :
    enabledAfter name now (names.map fun x => .on x (crossed x)) =
      (now || decide (name ∈ names) && !crossed name) := by
  induction names generalizing now with
  | nil => simp [enabledAfter]
  | cons x names ih =>
    rw [List.map_cons, enabledAfter, ih]
    by_cases hx : x = name
    · subst hx
      cases now <;> cases crossed x <;> simp
    · have : name ≠ x := Ne.symm hx
      simp [hx, this]

theorem enabledAfter_drops {names : List String} :
    enabledAfter name now (names.map .off) = (now && decide (name ∉ names)) := by
  induction names generalizing now with
  | nil => simp [enabledAfter]
  | cons x names ih =>
    rw [List.map_cons, enabledAfter, ih]
    by_cases hx : x = name
    · subst hx
      simp
    · have : name ≠ x := Ne.symm hx
      simp [hx, this]

end Folds

/-- What the two sides hold about a capability agrees, up to what is in flight. -/
structure Link.Consistent (l : Link) : Prop where
  requested : ∀ name ∈ l.view.pending, name ∈ l.view.offered
  believed : ∀ name, offeredAfter name (decide (name ∈ l.view.offered)) l.replies = true →
    name ∈ l.offered
  status : ∀ name, enabledAfter name (decide (name ∈ l.enabled)) l.requests =
    (decide (name ∈ l.view.enabled ∨ name ∈ l.view.pending) &&
      decide (∀ line ∈ l.replies, name ∉ line.withdraws))
  fresh : ∀ name, .on name false ∈ l.requests →
    name ∈ l.offered ∧ ∀ line ∈ l.replies, name ∉ line.withdraws
  refusals : ∀ name, RefusalsDue name (decide (name ∈ l.view.offered)) l.replies
  waiting : ∀ name ∈ l.view.pending, (∃ crossed, .on name crossed ∈ l.requests) ∨
    .ack name ∈ l.replies ∨ .nak name ∈ l.replies
  plain : ∀ name crossed, .on name crossed ∈ l.requests → Plain name
  dependent : ∀ name, .off name ∈ l.requests ∨ .ack ("-" ++ name) ∈ l.replies →
    needsBatch name = true
  /-- While a capability is being disabled, batch is off at the client. -/
  disabling : (∃ name, .off name ∈ l.requests) ∨ (∃ line ∈ l.replies, line.disables) →
    batch ∉ l.view.enabled
  /-- A grant of batch in flight was sent after the withdrawals the client has not read. -/
  granted : l.replies.Pairwise fun x y => batch ∈ x.withdraws → y ≠ .ack batch
  /-- Batch is granted after everything disabled before is acknowledged. -/
  grantedLast : l.replies.Pairwise fun x y => x = .ack batch → y.disables = false
  grantedAfter : (∃ name, .off name ∈ l.requests) → .ack batch ∉ l.replies
  askedAfter : l.requests.Pairwise fun x y => x = .on batch false → ∀ name, y ≠ .off name

namespace Link.Consistent

variable {v : View} {offered enabled : Finset String} {asks : List Ask}
  {lines : List ServerLine} {line : ServerLine} {names : List String} {name : String}

theorem agree (h : Consistent ⟨v, offered, enabled, [], []⟩) : v.enabled = enabled := by
  ext x
  have hw : x ∉ v.pending := fun hx => by
    have := h.waiting x hx
    simp at this
  have := h.status x
  simp only [enabledAfter, hw, or_false, List.not_mem_nil, false_imp_iff, implies_true,
    decide_true, Bool.and_true] at this
  exact (decide_eq_decide.mp this).symm

/-! ## The client's moves -/

theorem ask (h : Consistent ⟨v, offered, enabled, asks, lines⟩) (names : List String)
    (hn : ∀ x ∈ names, x ∈ v.offered ∧ x ∉ v.enabled ∧ x ∉ v.pending ∧ Plain x) :
    Consistent ⟨{ v with pending := v.pending ++ names }, offered, enabled,
      asks ++ names.map fun x => .on x (decide (∃ line ∈ lines, x ∈ line.withdraws)), lines⟩ where
  requested x hx := by
    rcases List.mem_append.mp hx with hx | hx
    · exact h.requested x hx
    · exact (hn x hx).1
  believed := h.believed
  status x := by
    rw [enabledAfter_append, h.status x, enabledAfter_requests]
    by_cases hx : x ∈ names
    · obtain ⟨-, he, hp, -⟩ := hn x hx
      rw [Bool.eq_iff_iff]
      simp [hx, he, hp]
    · simp [hx]
  fresh x hx := by
    rcases List.mem_append.mp hx with hx | hx
    · exact h.fresh x hx
    · obtain ⟨y, hy, he⟩ := List.mem_map.mp hx
      obtain ⟨rfl, hf⟩ := Ask.on.inj he
      have hw : ∀ line ∈ lines, y ∉ line.withdraws := by simpa using hf
      refine ⟨h.believed y ?_, hw⟩
      rw [show decide (y ∈ v.offered) = true from decide_eq_true (hn y hy).1]
      exact offeredAfter_kept hw
  refusals := h.refusals
  waiting x hx := by
    rcases List.mem_append.mp hx with hx | hx
    · exact (h.waiting x hx).imp_left fun ⟨crossed, hc⟩ => ⟨crossed, List.mem_append_left _ hc⟩
    · exact .inl ⟨_, List.mem_append_right _ (List.mem_map_of_mem hx)⟩
  plain x crossed hx := by
    rcases List.mem_append.mp hx with hx | hx
    · exact h.plain x crossed hx
    · obtain ⟨y, hy, he⟩ := List.mem_map.mp hx
      exact (Ask.on.inj he).1 ▸ (hn y hy).2.2.2
  dependent x hx := h.dependent x (hx.imp_left fun hx => by simpa using hx)
  disabling hx := h.disabling (hx.imp_left fun ⟨x, hx⟩ => ⟨x, by simpa using hx⟩)
  granted := h.granted
  grantedLast := h.grantedLast
  grantedAfter := fun ⟨x, hx⟩ => h.grantedAfter ⟨x, by simpa using hx⟩
  askedAfter := by
    refine List.pairwise_append.mpr ⟨h.askedAfter, ?_, ?_⟩
    · rw [List.pairwise_map]
      exact List.pairwise_of_forall (by simp)
    · intro x _ y hy _ z hz
      obtain ⟨w, -, rfl⟩ := List.mem_map.mp hy
      cases hz

theorem drop (h : Consistent ⟨v, offered, enabled, asks, lines⟩) (names : List String)
    (hn : ∀ x ∈ names, needsBatch x = true) (hb : names ≠ [] → batch ∉ v.enabled)
    (ha : names ≠ [] → .ack batch ∉ lines ∧ .on batch false ∉ asks) :
    Consistent ⟨{ v with
        enabled := v.enabled.filter fun x => x ∉ names
        pending := v.pending.filter fun x => decide (x ∉ names) },
      offered, enabled, asks ++ names.map .off, lines⟩ where
  requested x hx := h.requested x (List.mem_of_mem_filter hx)
  believed := h.believed
  status x := by
    rw [enabledAfter_append, h.status x, enabledAfter_drops]
    by_cases hx : x ∈ names <;> simp [hx]
  fresh x hx := h.fresh x (by simpa using hx)
  refusals := h.refusals
  waiting x hx := (h.waiting x (List.mem_of_mem_filter hx)).imp_left fun ⟨crossed, hc⟩ =>
    ⟨crossed, List.mem_append_left _ hc⟩
  plain x crossed hx := h.plain x crossed (by simpa using hx)
  dependent x hx := by
    rcases hx with hx | hx
    · rcases List.mem_append.mp hx with hx | hx
      · exact h.dependent x (.inl hx)
      · exact hn x (by simpa using hx)
    · exact h.dependent x (.inr hx)
  disabling hx := by
    rw [Finset.mem_filter]
    by_cases hnames : names = []
    · subst hnames
      exact fun hb => h.disabling (by simpa using hx) hb.1
    · exact fun he => hb hnames he.1
  granted := h.granted
  grantedLast := h.grantedLast
  grantedAfter := fun ⟨x, hx⟩ => by
    by_cases hnames : names = []
    · subst hnames
      exact h.grantedAfter ⟨x, by simpa using hx⟩
    · exact (ha hnames).1
  askedAfter := by
    refine List.pairwise_append.mpr ⟨h.askedAfter, ?_, ?_⟩
    · rw [List.pairwise_map]
      exact List.pairwise_of_forall (by simp)
    · intro x hx y hy he z _
      obtain ⟨w, hw, rfl⟩ := List.mem_map.mp hy
      exact (ha (List.ne_nil_of_mem hw)).2 (he ▸ hx)

theorem read (h : Consistent ⟨v, offered, enabled, asks, line :: lines⟩) {o : Finset String}
    (hw : line.withdraws = []) (hsub : ∀ x ∈ o, x ∈ v.offered ∨ x ∈ line.announces)
    (hsup : v.offered ⊆ o) (ha : ∀ x ∈ v.pending, line ≠ .ack x ∧ line ≠ .nak x) :
    Consistent ⟨{ v with offered := o }, offered, enabled, asks, lines⟩ := by
  have hmono : ∀ x, decide (x ∈ o) = true →
      ((decide (x ∈ v.offered) || decide (x ∈ line.announces)) &&
        decide (x ∉ line.withdraws)) = true := by
    intro x hx
    simpa [hw] using hsub x (of_decide_eq_true hx)
  exact {
    requested := fun x hx => hsup (h.requested x hx)
    believed := fun x hx => h.believed x
      (show offeredAfter x (_ && _) lines = true from offeredAfter_mono (hmono x) hx)
    status := fun x => by simpa [hw] using h.status x
    fresh := fun x hx => ⟨(h.fresh x hx).1, fun l hl => (h.fresh x hx).2 l (by simp [hl])⟩
    refusals := fun x => refusalsDue_mono (hmono x) (h.refusals x).2
    waiting := fun x hx => by
      have := h.waiting x hx
      simpa [Ne.symm (ha x hx).1, Ne.symm (ha x hx).2] using this
    plain := h.plain
    dependent := fun x hx => h.dependent x (hx.imp_right (List.mem_cons_of_mem _))
    disabling := fun hx => h.disabling
      (hx.imp_right fun ⟨l, hl, hd⟩ => ⟨l, List.mem_cons_of_mem _ hl, hd⟩)
    granted := (List.pairwise_cons.mp h.granted).2
    grantedLast := (List.pairwise_cons.mp h.grantedLast).2
    grantedAfter := fun hx hm => h.grantedAfter hx (List.mem_cons_of_mem _ hm)
    askedAfter := h.askedAfter }

theorem grant (h : Consistent ⟨v, offered, enabled, asks, .ack name :: lines⟩)
    (hn : v.pending.Nodup) (hp : name ∈ v.pending) :
    Consistent ⟨{ v with pending := v.pending.erase name, enabled := insert name v.enabled },
      offered, enabled, asks, lines⟩ where
  requested x hx := h.requested x (List.mem_of_mem_erase hx)
  believed x hx := h.believed x (by simpa [offeredAfter] using hx)
  status x := by
    have he : (x ∈ insert name v.enabled ∨ x ∈ v.pending.erase name) =
        (x ∈ v.enabled ∨ x ∈ v.pending) := by
      rw [Finset.mem_insert, hn.mem_erase_iff]
      by_cases hx : x = name
      · subst hx; simp [hp]
      · simp [hx]
    have := h.status x
    simp only [List.forall_mem_cons, ServerLine.withdraws_ack, List.not_mem_nil,
      not_false_eq_true, true_and] at this
    rw [this]
    simp only [he]
  fresh x hx := ⟨(h.fresh x hx).1, fun l hl => (h.fresh x hx).2 l (by simp [hl])⟩
  refusals x := by
    have := (h.refusals x).2
    simpa using this
  waiting x hx := by
    have hne : x ≠ name := (hn.mem_erase_iff.mp hx).1
    have := h.waiting x (List.mem_of_mem_erase hx)
    simpa [hne] using this
  plain := h.plain
  dependent x hx := h.dependent x (hx.imp_right (List.mem_cons_of_mem _))
  disabling hx hb := by
    rcases Finset.mem_insert.mp hb with rfl | hb
    · rcases hx with hx | ⟨l, hl, hd⟩
      · exact h.grantedAfter hx (by simp)
      · rw [(List.pairwise_cons.mp h.grantedLast).1 l hl rfl] at hd
        cases hd
    · refine h.disabling (hx.imp_right ?_) hb
      rintro ⟨l, hl, hd⟩
      exact ⟨l, List.mem_cons_of_mem _ hl, hd⟩
  granted := (List.pairwise_cons.mp h.granted).2
  grantedLast := (List.pairwise_cons.mp h.grantedLast).2
  grantedAfter hx hm := h.grantedAfter hx (List.mem_cons_of_mem _ hm)
  askedAfter := h.askedAfter

theorem withdraw (h : Consistent ⟨v, offered, enabled, asks, .del names :: lines⟩) :
    Consistent ⟨⟨v.offered.filter fun x => x ∉ names, v.enabled.filter fun x => x ∉ names,
      v.pending.filter fun x => decide (x ∉ names)⟩, offered, enabled, asks, lines⟩ := by
  have hoffered : ∀ x, decide (x ∈ v.offered.filter fun x => x ∉ names) =
      ((decide (x ∈ v.offered) || decide (x ∈ (ServerLine.del names).announces)) &&
        decide (x ∉ (ServerLine.del names).withdraws)) := by
    intro x
    rw [Bool.eq_iff_iff]
    simp only [Bool.and_eq_true, Bool.or_eq_true, decide_eq_true_eq]
    simp
  exact {
    requested := fun x hx => by
      obtain ⟨hx, hn⟩ := List.mem_filter.mp hx
      exact Finset.mem_filter.mpr ⟨h.requested x hx, of_decide_eq_true hn⟩
    believed := fun x hx => h.believed x (by rw [hoffered] at hx; exact hx)
    status := fun x => by
      have := h.status x
      by_cases hx : x ∈ names <;> simpa [hx] using this
    fresh := fun x hx => ⟨(h.fresh x hx).1, fun l hl => (h.fresh x hx).2 l (by simp [hl])⟩
    refusals := fun x => by rw [hoffered]; exact (h.refusals x).2
    waiting := fun x hx => by simpa using h.waiting x (List.mem_of_mem_filter hx)
    plain := h.plain
    dependent := fun x hx => h.dependent x (hx.imp_right (List.mem_cons_of_mem _))
    disabling := fun hx hb => h.disabling
      (hx.imp_right fun ⟨l, hl, hd⟩ => ⟨l, List.mem_cons_of_mem _ hl, hd⟩)
      (Finset.mem_filter.mp hb).1
    granted := (List.pairwise_cons.mp h.granted).2
    grantedLast := (List.pairwise_cons.mp h.grantedLast).2
    grantedAfter := fun hx hm => h.grantedAfter hx (List.mem_cons_of_mem _ hm)
    askedAfter := h.askedAfter }

/-! ## The server's moves -/

theorem post (h : Consistent ⟨v, offered, enabled, asks, lines⟩) (line : ServerLine)
    {o : Finset String}
    (hw : line.withdraws = []) (ho : offered ⊆ o) (ha : ∀ x ∈ line.announces, x ∈ o)
    (hnak : ∀ x, line = .nak x → x ∉ offered)
    (hack : line = .ack batch →
      (∀ l ∈ lines, batch ∉ l.withdraws) ∧ ∀ name, .off name ∉ asks)
    (hdis : line.disables → batch ∉ v.enabled ∧ .ack batch ∉ lines)
    (hdep : ∀ name, line = .ack ("-" ++ name) → needsBatch name = true) :
    Consistent ⟨v, o, enabled, asks, lines ++ [line]⟩ where
  requested := h.requested
  believed x hx := by
    have hx : offeredAfter x (decide (x ∈ v.offered)) (lines ++ [line]) = true := hx
    rw [offeredAfter_append, offeredAfter, offeredAfter, Bool.and_eq_true, Bool.or_eq_true,
      decide_eq_true_eq] at hx
    exact hx.1.elim (fun hx => ho (h.believed x hx)) (ha x)
  status x := by simpa [hw, or_imp, forall_and] using h.status x
  fresh x hx := by
    refine ⟨ho (h.fresh x hx).1, fun l hl => ?_⟩
    rcases List.mem_append.mp hl with hl | hl
    · exact (h.fresh x hx).2 l hl
    · rw [List.mem_singleton.mp hl, hw]
      simp
  refusals x := by
    refine refusalsDue_append (h.refusals x) ⟨fun hl => ?_, trivial⟩
    by_contra hx
    exact hnak x hl (h.believed x (by simpa using hx))
  waiting x hx := by
    refine (h.waiting x hx).imp_right fun hx => ?_
    exact hx.imp (List.mem_append_left _) (List.mem_append_left _)
  plain := h.plain
  dependent x hx := by
    rcases hx with hx | hx
    · exact h.dependent x (.inl hx)
    · rcases List.mem_append.mp hx with hx | hx
      · exact h.dependent x (.inr hx)
      · exact hdep x (List.mem_singleton.mp hx).symm
  disabling hx := by
    rcases hx with hx | ⟨l, hl, hd⟩
    · exact h.disabling (.inl hx)
    · rcases List.mem_append.mp hl with hl | hl
      · exact h.disabling (.inr ⟨l, hl, hd⟩)
      · exact (hdis (List.mem_singleton.mp hl ▸ hd)).1
  granted := by
    refine List.pairwise_append.mpr ⟨h.granted, List.pairwise_singleton _ _, fun x hx y hy hb => ?_⟩
    rw [List.mem_singleton.mp hy]
    exact fun hl => (hack hl).1 x hx hb
  grantedLast := by
    refine List.pairwise_append.mpr
      ⟨h.grantedLast, List.pairwise_singleton _ _, fun x hx y hy hb => ?_⟩
    rw [List.mem_singleton.mp hy, ← Bool.not_eq_true]
    exact fun hd => (hdis hd).2 (hb ▸ hx)
  grantedAfter := fun ⟨x, hx⟩ hm => by
    rcases List.mem_append.mp hm with hm | hm
    · exact h.grantedAfter ⟨x, hx⟩ hm
    · exact (hack (List.mem_singleton.mp hm).symm).2 x hx
  askedAfter := h.askedAfter

theorem handleLs (h : Consistent ⟨v, offered, enabled, .ls :: asks, lines⟩) :
    Consistent ⟨v, offered, enabled, asks, lines⟩ where
  requested := h.requested
  believed := h.believed
  status := h.status
  fresh x hx := h.fresh x (List.mem_cons_of_mem _ hx)
  refusals := h.refusals
  waiting x hx := by simpa using h.waiting x hx
  plain x crossed hx := h.plain x crossed (List.mem_cons_of_mem _ hx)
  dependent x hx := h.dependent x (hx.imp_left (List.mem_cons_of_mem _))
  disabling hx := h.disabling (hx.imp_left fun ⟨x, hx⟩ => ⟨x, List.mem_cons_of_mem _ hx⟩)
  granted := h.granted
  grantedLast := h.grantedLast
  grantedAfter := fun ⟨x, hx⟩ => h.grantedAfter ⟨x, List.mem_cons_of_mem _ hx⟩
  askedAfter := (List.pairwise_cons.mp h.askedAfter).2

theorem handleOn {crossed : Bool}
    (h : Consistent ⟨v, offered, enabled, .on name crossed :: asks, lines⟩)
    (ha : .ack name ∈ lines ∨ .nak name ∈ lines) :
    Consistent ⟨v, offered, if crossed then enabled else insert name enabled, asks, lines⟩ where
  requested := h.requested
  believed := h.believed
  status x := by
    have := h.status x
    rw [← this, enabledAfter]
    congr 1
    by_cases hx : x = name
    · subst hx; cases crossed <;> simp
    · cases crossed <;> simp [hx, Ne.symm hx]
  fresh x hx := h.fresh x (List.mem_cons_of_mem _ hx)
  refusals := h.refusals
  waiting x hx := by
    by_cases hn : x = name
    · rw [hn]; exact .inr ha
    · have := h.waiting x hx
      simpa [hn] using this
  plain x crossed hx := h.plain x crossed (List.mem_cons_of_mem _ hx)
  dependent x hx := h.dependent x (hx.imp_left (List.mem_cons_of_mem _))
  disabling hx := h.disabling (hx.imp_left fun ⟨x, hx⟩ => ⟨x, List.mem_cons_of_mem _ hx⟩)
  granted := h.granted
  grantedLast := h.grantedLast
  grantedAfter := fun ⟨x, hx⟩ => h.grantedAfter ⟨x, List.mem_cons_of_mem _ hx⟩
  askedAfter := (List.pairwise_cons.mp h.askedAfter).2

theorem handleOff (h : Consistent ⟨v, offered, enabled, .off name :: asks, lines⟩) :
    Consistent ⟨v, offered, enabled.erase name, asks, lines⟩ where
  requested := h.requested
  believed := h.believed
  status x := by
    have := h.status x
    rw [← this, enabledAfter]
    congr 1
    by_cases hx : x = name
    · subst hx; simp
    · simp [hx, Ne.symm hx]
  fresh x hx := h.fresh x (List.mem_cons_of_mem _ hx)
  refusals := h.refusals
  waiting x hx := by simpa using h.waiting x hx
  plain x crossed hx := h.plain x crossed (List.mem_cons_of_mem _ hx)
  dependent x hx := h.dependent x (hx.imp_left (List.mem_cons_of_mem _))
  disabling hx := h.disabling (hx.imp_left fun ⟨x, hx⟩ => ⟨x, List.mem_cons_of_mem _ hx⟩)
  granted := h.granted
  grantedLast := h.grantedLast
  grantedAfter := fun ⟨x, hx⟩ => h.grantedAfter ⟨x, List.mem_cons_of_mem _ hx⟩
  askedAfter := (List.pairwise_cons.mp h.askedAfter).2

theorem serveFresh (h : Consistent ⟨v, offered, enabled, .on name false :: asks, lines⟩) :
    Consistent ⟨v, offered, insert name enabled, asks, lines ++ [.ack name]⟩ := by
  have hplain := (h.plain name false (by simp)).1
  have hposted := h.post (.ack name) rfl (Finset.Subset.refl _) (by simp) (by simp)
    (fun hl => by
      obtain rfl : name = batch := ServerLine.ack.inj hl
      refine ⟨(h.fresh batch (by simp)).2, fun x hx => ?_⟩
      rcases List.mem_cons.mp hx with hx | hx
      · cases hx
      · exact (List.pairwise_cons.mp h.askedAfter).1 _ hx rfl x rfl)
    (fun hd => by simp [ServerLine.disables, hplain] at hd)
    (fun x hx => by
      rw [ServerLine.ack.inj hx, show stripFirst '-' ("-" ++ x) = some x from
        stripFirst_append '-' x] at hplain
      cases hplain)
  exact hposted.handleOn (.inl (by simp))

theorem serveCrossed (h : Consistent ⟨v, offered, enabled, .on name true :: asks, lines⟩)
    (hn : name ∉ offered) :
    Consistent ⟨v, offered, enabled, asks, lines ++ [.nak name]⟩ :=
  (h.post (.nak name) rfl (Finset.Subset.refl _) (by simp)
    (fun x hx => ServerLine.nak.inj hx ▸ hn) (by simp) (by simp [ServerLine.disables])
    (by simp)).handleOn (.inr (by simp))

theorem serveOff (h : Consistent ⟨v, offered, enabled, .off name :: asks, lines⟩) :
    Consistent ⟨v, offered, enabled.erase name, asks, lines ++ [.ack ("-" ++ name)]⟩ :=
  (h.post (.ack ("-" ++ name)) rfl (Finset.Subset.refl _) (by simp) (by simp)
    (fun hl => by
      have hs : stripFirst '-' ("-" ++ name) = some name := stripFirst_append '-' name
      rw [ServerLine.ack.inj hl] at hs
      cases hs)
    (fun _ => ⟨h.disabling (.inl ⟨name, by simp⟩), h.grantedAfter ⟨name, by simp⟩⟩)
    (fun x hx => by
      have hs : stripFirst '-' ("-" ++ name) = some name := stripFirst_append '-' name
      rw [ServerLine.ack.inj hx, show stripFirst '-' ("-" ++ x) = some x from
        stripFirst_append '-' x] at hs
      exact Option.some.inj hs ▸ h.dependent name (.inl (by simp)))).handleOff

theorem mem_crossBy_fresh : .on name false ∈ asks.map (Ask.crossBy names) ↔
    .on name false ∈ asks ∧ name ∉ names := by
  constructor
  · intro h
    obtain ⟨ask, ha, he⟩ := List.mem_map.mp h
    cases ask with
    | on other crossed =>
      obtain ⟨rfl, hc⟩ := Ask.on.inj he
      obtain ⟨rfl, hn⟩ : crossed = false ∧ other ∉ names := by simpa using hc
      exact ⟨ha, hn⟩
    | _ => cases he
  · rintro ⟨h, hn⟩
    exact List.mem_map.mpr ⟨_, h, by simp [Ask.crossBy, hn]⟩

theorem mem_crossBy_off : .off name ∈ asks.map (Ask.crossBy names) ↔ .off name ∈ asks := by
  constructor
  · intro h
    obtain ⟨ask, ha, he⟩ := List.mem_map.mp h
    cases ask with
    | off other => exact Ask.off.inj he ▸ ha
    | _ => cases he
  · exact fun h => List.mem_map.mpr ⟨_, h, rfl⟩

theorem enabledAfter_crossBy {now : Bool} (hn : name ∉ names) :
    enabledAfter name now (asks.map (Ask.crossBy names)) = enabledAfter name now asks := by
  induction asks generalizing now with
  | nil => rfl
  | cons ask asks ih =>
    cases ask with
    | on other crossed =>
      rw [List.map_cons, Ask.crossBy, enabledAfter, enabledAfter, ih]
      by_cases ho : other = name
      · subst ho; simp [hn]
      · simp [ho]
    | _ => exact ih

theorem serverWithdraw (h : Consistent ⟨v, offered, enabled, asks, lines⟩) :
    Consistent ⟨v, offered.filter fun x => x ∉ names, enabled.filter fun x => x ∉ names,
      asks.map (Ask.crossBy names), lines ++ [.del names]⟩ where
  requested := h.requested
  believed x hx := by
    have hx : offeredAfter x (decide (x ∈ v.offered)) (lines ++ [.del names]) = true := hx
    rw [offeredAfter_append, offeredAfter, offeredAfter, Bool.and_eq_true, Bool.or_eq_true] at hx
    exact Finset.mem_filter.mpr ⟨h.believed x (hx.1.resolve_right (by simp)), of_decide_eq_true hx.2⟩
  status x := by
    by_cases hx : x ∈ names
    · have hoff : enabledAfter x false (asks.map (Ask.crossBy names)) = false :=
        enabledAfter_crossed fun crossed hc => by
          by_contra hf
          rw [Bool.not_eq_true] at hf
          exact (mem_crossBy_fresh.mp (hf ▸ hc)).2 hx
      simp [hx, hoff]
    · rw [enabledAfter_crossBy hx]
      simpa [hx, or_imp, forall_and] using h.status x
  fresh x hx := by
    obtain ⟨hx, hn⟩ := mem_crossBy_fresh.mp hx
    refine ⟨Finset.mem_filter.mpr ⟨(h.fresh x hx).1, hn⟩, fun l hl => ?_⟩
    rcases List.mem_append.mp hl with hl | hl
    · exact (h.fresh x hx).2 l hl
    · rw [List.mem_singleton.mp hl]
      exact hn
  refusals x := refusalsDue_append (h.refusals x) ⟨by simp, trivial⟩
  waiting x hx := by
    rcases h.waiting x hx with ⟨crossed, hc⟩ | hx
    · exact .inl ⟨_, List.mem_map.mpr ⟨_, hc, rfl⟩⟩
    · exact .inr (hx.imp (List.mem_append_left _) (List.mem_append_left _))
  plain x crossed hx := by
    obtain ⟨ask, ha, he⟩ := List.mem_map.mp hx
    cases ask with
    | on other crossed => exact (Ask.on.inj he).1 ▸ h.plain other crossed ha
    | _ => cases he
  dependent x hx := h.dependent x (by
    rw [mem_crossBy_off] at hx
    simpa using hx)
  disabling hx := h.disabling (by
    simp only [mem_crossBy_off, List.mem_append, List.mem_singleton] at hx
    refine hx.imp_right fun ⟨l, hl, hd⟩ => ⟨l, hl.resolve_right fun he => ?_, hd⟩
    rw [he] at hd
    cases hd)
  granted := List.pairwise_append.mpr ⟨h.granted, List.pairwise_singleton _ _, by simp⟩
  grantedLast := List.pairwise_append.mpr ⟨h.grantedLast, List.pairwise_singleton _ _, by
    simp [ServerLine.disables]⟩
  grantedAfter := fun ⟨x, hx⟩ hm =>
    h.grantedAfter ⟨x, mem_crossBy_off.mp hx⟩ (by simpa using hm)
  askedAfter := by
    refine List.pairwise_map.mpr (h.askedAfter.imp fun {x y} hxy hx name hy => ?_)
    have hx : .on batch false ∈ [x].map (Ask.crossBy names) := by simp [hx]
    have hy : .off name ∈ [y].map (Ask.crossBy names) := by simp [hy]
    exact hxy (List.mem_singleton.mp (mem_crossBy_fresh.mp hx).1).symm name
      (List.mem_singleton.mp (mem_crossBy_off.mp hy)).symm

end Link.Consistent

end CayenChat
