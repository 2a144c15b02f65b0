import CayenChat.App.Streamed

/-! # Pages that settle

A page that ends is settled: its lines go in the order of their times, and every
other line stays where it is.
-/

namespace CayenChat.App

namespace AppState

variable {s : AppState} {id : ConversationId} {request : ℕ} {above : ℤ} {taken : List Message}

section Finishing

/-- What settling leaves of a log: the lines of the page in the order of their times, with new
sequences, and everything else as it was. -/
structure SettledAs (s s' : AppState) (id : ConversationId) (held rest block : List Message)
    (first : ℤ) (order : List ℕ) : Prop where
  before : s.log id = held ++ rest
  after : s'.log id = block ++ rest
  ordered : TimeOrder held order
  renumbered : block = (order.filterMap (held[·]?)).mapIdx fun place m =>
    { m with sequence := first + place }
  others : ∀ source ≠ .conversation id, s'.lines source = s.lines source

theorem finishOlderHistory_count (h : s.olderHistoryInFlight id = some request) (beginning : Bool) :
    (s.finishOlderHistory id request beginning).2 = (s.historyBlocks.lookup id).elim 0 fun k =>
      if k.request = request then
        (settled k.start historyReserve none
          (arrived (s.log id) k.start (k.start + historyReserve))).length
      else 0 := by
  have hstop : ∀ first : ℤ, (first + (historyReserve : ℤ) - first).toNat = historyReserve := by
    intro first
    rw [add_sub_cancel_left, Int.toNat_natCast]
  have hend : ∀ r : AppState × ℕ, (if beginning || r.2 = 0 then
      (({ r.1 with olderHistory := r.1.olderHistory.insert id { finished := true } } : AppState), r.2)
      else r).2 = r.2 := by
    intro r
    split <;> rfl
  unfold finishOlderHistory
  rw [if_neg (not_not.mpr h)]
  refine (hend _).trans ?_
  cases hk : s.historyBlocks.lookup id with
  | none => rfl
  | some k =>
    dsimp only [Option.elim_some]
    by_cases hr : k.request = request
    swap
    · rw [if_neg fun hand => hr hand.1, if_neg hr]
    rw [if_pos hr]
    split
    · change (settled k.start (k.start + historyReserve - k.start).toNat none _).length = _
      rw [hstop]
      rfl
    · rename_i hno
      have hc : ¬ (s.conversation id).isSome := fun hc => hno ⟨hr, hc⟩
      rw [(settle_nothing s k.start (k.start + historyReserve) hc).2.1]
      rfl

theorem finishOlderHistory_page (hk : s.SessionKept) (h : s.olderHistoryInFlight id = some request)
    (beginning : Bool) :
    (s.finishOlderHistory id request beginning).1.olderHistory.lookup id =
      some ⟨none, beginning || decide ((s.finishOlderHistory id request beginning).2 = 0)⟩ := by
  obtain ⟨page, hpage, hin⟩ := Option.bind_eq_some_iff.mp h
  have hfin := hk.paging id page hpage (by rw [hin]; rfl)
  set s₁ : AppState := { s with
    olderHistory := Map.adjust s.olderHistory id fun state => { state with inFlight := none }
    historyBlocks := s.historyBlocks.erase id } with hs₁
  have hlookup : s₁.olderHistory.lookup id = some ⟨none, false⟩ := by
    change (Map.adjust s.olderHistory id _).lookup id = _
    rw [Map.lookup_adjust, if_pos rfl, hpage, Option.map_some, hfin]
  have hend : ∀ r : AppState × ℕ, r.1.session = s₁.session → (if beginning || r.2 = 0 then
      (({ r.1 with olderHistory := r.1.olderHistory.insert id { finished := true } } : AppState), r.2)
      else r).1.olderHistory.lookup id = some ⟨none, beginning || decide ((if beginning || r.2 = 0
      then (({ r.1 with olderHistory := r.1.olderHistory.insert id { finished := true } } :
        AppState), r.2) else r).2 = 0)⟩ := by
    intro r hr
    have hold : r.1.olderHistory = s₁.olderHistory := congrArg (fun x => x.2.1) hr
    split
    · rename_i hfinished
      dsimp only
      rw [Map.lookup_insert, if_pos rfl, hfinished]
    · rename_i hgoes
      rw [hold, hlookup, Bool.eq_false_of_not_eq_true hgoes]
  unfold finishOlderHistory
  rw [if_neg (not_not.mpr h)]
  apply hend
  split
  · split
    · exact settleBlock_session s₁ id _ _ none
    · rfl
  · rfl

theorem filterMap_inTimeOrder (l : List Message) :
    inTimeOrder l = (serverTimeOrder (l.map (·.timestamp))).filterMap (l[·]?) := rfl

theorem finishOlderHistory_settled (hi : s.Ids) (ho : s.shelf.Ordered)
    (hp : s.shelf.Page id request above taken) (h : s.olderHistoryInFlight id = some request)
    (beginning : Bool) : ∃ held rest block first order,
      SettledAs s (s.finishOlderHistory id request beginning).1 id held rest block first order ∧
      held.map unnumbered <:+ taken ∧ (∀ m ∈ held ++ block, m.sequence < above) ∧
      (∀ m ∈ rest, above ≤ m.sequence) ∧
      (s.finishOlderHistory id request beginning).2 = block.length := by
  have hs := (finishOlderHistory_follows s id request beginning hi).2
  rw [settleEvents, if_pos h] at hs
  change _ = s.shelf.settle id request at hs
  have hlines : ∀ source, (s.finishOlderHistory id request beginning).1.lines source =
      (s.shelf.settle id request).lines source := congrFun (congrArg Shelf.lines hs)
  have hcount := finishOlderHistory_count h beginning
  by_cases hblock : ∃ k, s.historyBlocks.lookup id = some k ∧ k.request = request
  swap
  · -- no line of the page has arrived
    have hno : ∀ k, s.historyBlocks.lookup id = some k → k.request ≠ request := fun k hk hr =>
      hblock ⟨k, hk, hr⟩
    have hkept : (s.shelf.settle id request).lines = s.shelf.lines := by
      unfold Shelf.settle
      dsimp only
      split
      · rfl
      · rename_i k hk
        rw [if_neg (hno k hk)]
    refine ⟨[], s.log id, [], 0, [], ⟨rfl, ?_, ⟨List.Perm.refl _, List.Pairwise.nil⟩, rfl, ?_⟩,
      List.nil_suffix, fun m hm => (by cases hm), fun m hm => ?_, ?_⟩
    · exact (hlines (.conversation id)).trans (congrFun hkept _)
    · exact fun source _ => (hlines source).trans (congrFun hkept _)
    · exact hp.rest m hm fun k hk hr => absurd hr (hno k hk)
    · rw [hcount]
      cases hk : s.historyBlocks.lookup id with
      | none => rfl
      | some k => exact if_neg (hno k hk)
  obtain ⟨k, hk, hr⟩ := hblock
  have hkb : s.shelf.blocks id = some k := hk
  obtain ⟨hlow, hheld⟩ := hp.leads k hkb hr
  have hbelow := hp.below k hkb hr
  have hasc : Ascending (s.log id) := ho.ascending (.conversation id)
  have hres : k.start ≤ k.start + historyReserve := by
    have := (Nat.cast_nonneg historyReserve : (0 : ℤ) ≤ historyReserve)
    omega
  set held := arrived (s.log id) k.start (k.start + historyReserve) with hdef
  set rest := (s.log id).filter fun m => !decide (m.sequence < k.start + historyReserve)
  have hnothing : (s.log id).filter (fun m => decide (m.sequence < k.start)) = [] := by
    refine List.filter_eq_nil_iff.mpr fun m hm => ?_
    have := hlow m hm
    rw [decide_eq_true_eq]
    omega
  have hfilter : held = (s.log id).filter (·.sequence < k.start + historyReserve) := by
    rw [hdef, arrived_eq hasc hres]
    refine List.filter_congr fun m hm => ?_
    rw [decide_eq_true (hlow m hm), Bool.true_and]
  have hfit : held.length ≤ historyReserve := by
    have hlen := ho.arrived_length hkb
    have hfill := (ho.pages id k hkb).filled
    have hroom := (ho.pages id k hkb).room
    have heq : (arrived (s.shelf.log id) k.start (k.start + historyReserve)).length =
      held.length := rfl
    omega
  have hsettled : settled k.start historyReserve none held = (inTimeOrder held).mapIdx
      fun offset m => { m with sequence := k.start + offset } := settled_eq hfit
  rw [hk, Option.elim_some, if_pos hr] at hcount
  refine ⟨held, rest, settled k.start historyReserve none held, k.start,
    serverTimeOrder (held.map (·.timestamp)), ⟨?_, ?_, serverTimeOrder_spec held, ?_, ?_⟩, ?_, ?_, ?_,
    hcount⟩
  · have hsplit := hasc.split_eq hres
    rwa [hnothing, List.nil_append] at hsplit
  · refine (hlines (.conversation id)).trans ?_
    rw [Shelf.settle_eq hkb request hr]
    refine (Function.update_self ..).trans ((ho.settledLines_eq hkb).trans ?_)
    have hlog : s.shelf.log id = s.log id := rfl
    rw [hlog, hnothing, List.nil_append, ← hsettled]
  · rw [hsettled, filterMap_inTimeOrder]
  · intro source hne
    refine (hlines source).trans ?_
    rw [Shelf.settle_eq hkb request hr]
    exact Function.update_of_ne hne ..
  · rwa [hfilter]
  · intro m hm
    rcases List.mem_append.mp hm with hm | hm
    · rw [hfilter] at hm
      have := of_decide_eq_true (List.mem_filter.mp hm).2
      omega
    · rw [hsettled] at hm
      obtain ⟨n, hn, rfl⟩ := List.mem_mapIdx.mp hm
      rw [(inTimeOrder_perm held).length_eq] at hn
      change k.start + n < above
      omega
  · intro m hm
    obtain ⟨hm, hout⟩ := List.mem_filter.mp hm
    refine hp.rest m hm fun k' hk' _ => ?_
    cases hkb.symm.trans hk'
    simpa using hout

end Finishing

section Runs

variable (lowercase : String → String) (configs : List NetworkConfig)

/-- In every run in which a page is streamed, other calls in between, its end leaves the lines of
the page that are held in the order of their times before everything its conversation held when it
began, leaves every other line where it is, returns how many they are, and ends the paging exactly
when it is said to be the last or no line is left. -/
theorem page_settles (is js : List AppCall) (id : ConversationId) (request : ℕ) (beginning : Bool)
    (hno : ∀ k, (run lowercase configs is).historyBlocks.lookup id = some k → k.request ≠ request)
    (hs : Machine.Along (Streaming id request) (call lowercase) (run lowercase configs is) js)
    (hin : (run lowercase configs (is ++ js)).olderHistoryInFlight id = some request) :
    let s := run lowercase configs (is ++ js)
    let r := s.finishOlderHistory id request beginning
    ∃ held rest block first order, SettledAs s r.1 id held rest block first order ∧
      held.map unnumbered <:+ Machine.collect (streamed id request) (call lowercase)
        (run lowercase configs is) js ∧
      (∀ m ∈ held ++ block, m.sequence < (run lowercase configs is).olderSequenceFloor) ∧
      (∀ m ∈ rest, (run lowercase configs is).olderSequenceFloor ≤ m.sequence) ∧
      (∀ m ∈ (run lowercase configs is).log id,
        (run lowercase configs is).olderSequenceFloor ≤ m.sequence) ∧
      r.2 = block.length ∧
      r.1.olderHistory.lookup id = some ⟨none, beginning || block.isEmpty⟩ ∧
      (s.olderHistoryFailed id request).olderHistory.lookup id = some ⟨none, true⟩ := by
  dsimp only
  have h : (run lowercase configs is).Ids ∧ (run lowercase configs is).shelf.Ordered :=
    ⟨(run_shelf lowercase configs is).1, run_ordered lowercase configs is⟩
  have h' : (run lowercase configs (is ++ js)).Ids ∧ (run lowercase configs (is ++ js)).shelf.Ordered :=
    ⟨(run_shelf lowercase configs (is ++ js)).1, run_ordered lowercase configs (is ++ js)⟩
  have hkept := run_sessionKept lowercase configs (is ++ js)
  have hp := page_exec lowercase h (page_begins h.2 hno) hs
  have hrun : run lowercase configs (is ++ js) =
      Machine.exec (call lowercase) (run lowercase configs is) js := Machine.exec_append
  rw [← hrun, List.nil_append] at hp
  obtain ⟨held, rest, block, first, order, hset, hheld, hbelow, habove, hcount⟩ :=
    finishOlderHistory_settled h'.1 h'.2 hp hin beginning
  refine ⟨held, rest, block, first, order, hset, hheld, hbelow, habove, fun m hm => ?_, hcount,
    ?_, ?_⟩
  · exact (h.2.given (.conversation id) m hm).1
  · rw [finishOlderHistory_page hkept hin beginning, hcount]
    cases block with
    | nil => rfl
    | cons m block => rfl
  · exact finishOlderHistory_page hkept hin true

def pageAsked : List AppCall :=
  [.setStatus 1 .registered, .joinedChannel 1 "#a", .setHistoryPaging 1 true,
    .appendConversationMessage 1 "bob" "now" .message { serverTime := some 9000000 } false,
    .requestOlderHistory 1]

def pageStreams : List AppCall :=
  [.pushOlderHistoryLine 1 1 (pastLine "third" 3000000),
    .appendConversationMessage 1 "bob" "live" .message { serverTime := some 9000001 } false,
    .pushOlderHistoryLine 1 1 (pastLine "first" 1000000),
    .pushOlderHistoryLine 1 1 (pastLine "second" 2000000)]

theorem page_settles_reordered :
    let s := run toAsciiLowercase [⟨1, "net", ["#a"]⟩] (pageAsked ++ pageStreams)
    let r := s.finishOlderHistory 1 1 false
    (∃ held rest block first order, SettledAs s r.1 1 held rest block first order ∧
      r.2 = block.length) ∧
    (r.1.log 1).map (·.text) = ["first", "second", "third", "now", "live"] := by
  refine ⟨?_, by decide +kernel⟩
  have hin : ∀ n : Fin 5, (run toAsciiLowercase [⟨1, "net", ["#a"]⟩]
      (pageAsked ++ pageStreams.take n)).olderHistoryInFlight 1 = some 1 := by decide +kernel
  have hnone : (run toAsciiLowercase [⟨1, "net", ["#a"]⟩] pageAsked).historyBlocks.lookup 1 =
      none := Option.isNone_iff_eq_none.mp (by decide +kernel)
  obtain ⟨held, rest, block, first, order, h, -, -, -, -, hcount, -⟩ :=
    page_settles toAsciiLowercase [⟨1, "net", ["#a"]⟩] pageAsked pageStreams 1 1 false
      (fun k hk => by rw [hnone] at hk; cases hk)
      ⟨⟨hin 0, trivial⟩, ⟨hin 1, trivial⟩, ⟨hin 2, trivial⟩, ⟨hin 3, trivial⟩, trivial⟩ (hin 4)
  exact ⟨held, rest, block, first, order, h, hcount⟩

end Runs

end AppState

end CayenChat.App
