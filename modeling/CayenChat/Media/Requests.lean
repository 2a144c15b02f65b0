import CayenChat.Media.Accounts

/-! # Requests keep the books

What every call is to keep, and that a request does: it leaves a record as it
is, or queues it and drops what the limits do not allow.
-/

namespace CayenChat.Media

namespace PreviewCache

variable {T R K : Type*} [DecidableEq K] {c : PreviewCache T R K} {k : K} {r : Record T R}
  {running : List (Job K)}

/-- What a call keeps. -/
structure Kept (c c' : PreviewCache T R K) (running : List (Job K)) (gained : Multiset T) :
    Prop where
  accounts : c'.Accounts running
  bounded : c'.Bounded
  held : c'.held = c.held + gained
  /-- Loads begin under new numbers only. -/
  loads : ∀ job, c'.Loads job → c.Loads job ∨ c.jobs < job.serial
  jobs : c.jobs ≤ c'.jobs
  limits : c'.limits = c.limits

omit [DecidableEq K] in
theorem Bounded.mono {c' : PreviewCache T R K} (h : c.Bounded) (hl : c'.limits = c.limits)
    (hq : c'.queue.length ≤ c.queue.length) (hf : c'.inFlight ≤ c.inFlight)
    (hr : c'.records.entries.length ≤ c.records.entries.length)
    (hb : c'.readyBytes ≤ c.readyBytes)
    (hc : Map.count (fun r : Record T R => r.state.isReady) c'.records ≤
      Map.count (fun r : Record T R => r.state.isReady) c.records) : c'.Bounded := by
  constructor
  · rw [hl]
    exact hq.trans h.queue
  · rw [hl]
    exact hf.trans h.slots
  · rw [hl]
    exact hr.trans h.records
  · intro hlt
    rw [hl] at hlt
    exact hc.trans (h.budget (hlt.trans_le hb))

theorem Kept.refl (h : c.Accounts running) (hb : c.Bounded) : Kept c c running 0 :=
  ⟨h, hb, (add_zero _).symm, fun _ hj => .inl hj, le_rfl, rfl⟩

theorem Kept.modify {c' : PreviewCache T R K} (r' : Record T R) (h : c.Accounts running)
    (hb : c.Bounded) (hk : c.records.lookup k = some r) (hs : outline r'.state = outline r.state)
    (hrec : c'.records = c.records.insert k r') (hp : c'.queue.Perm c.queue)
    (hf : c'.inFlight = c.inFlight) (hy : c'.readyBytes = c.readyBytes)
    (hg : c'.generation = c.generation) (hj : c'.jobs = c.jobs) (he : c'.enabled = c.enabled)
    (hrel : c'.released = c.released) (hl : c'.limits = c.limits) : Kept c c' running 0 := by
  obtain ⟨-, hready, -, himage, hload⟩ := outline_spec hs
  refine ⟨h.modify hk hs hrec hp hf hy hg hj he, ?_, ?_, ?_, hj.ge, hl⟩
  · refine hb.mono hl hp.length_eq.le hf.le ?_ hy.le ?_
    · rw [hrec, Map.length_insert_of_lookup hk]
    · have ht := Map.total_replace (f := fun r : Record T R => if r.state.isReady then 1 else 0)
        (w := r') hk
      rw [hready] at ht
      rw [hrec]
      exact (add_left_cancel ht).le
  · have ht := Map.total_replace (f := fun r : Record T R => r.state.image) (w := r') hk
    rw [himage] at ht
    unfold PreviewCache.held
    rw [hrec, hrel, add_left_cancel ht, add_zero]
  · rintro job ⟨r₁, confirmed, hr₁, hstate⟩
    rw [hrec, Map.lookup_insert] at hr₁
    split at hr₁
    · cases hr₁
      obtain ⟨confirmed', hstate'⟩ := hload _ _ hstate
      exact .inl ⟨r, confirmed', by rw [‹job.source = k›, hk], hstate'⟩
    · exact .inl ⟨r₁, confirmed, hr₁, hstate⟩

section Requesting

theorem perm_erase_append {l : List K} (h : k ∈ l) : (l.erase k ++ [k]).Perm l :=
  List.perm_append_comm.trans (List.perm_cons_erase h).symm

theorem Accounts.queued_record (h : c.Accounts running) (hk : k ∈ c.queue) :
    ∃ r, c.records.lookup k = some r ∧ r.state = .queued := by
  obtain ⟨r, hr, hq⟩ := (h.queued k).mp hk
  refine ⟨r, hr, ?_⟩
  cases hs : r.state with
  | queued => rfl
  | loading serial confirmed => rw [hs] at hq; cases hq
  | ready value bytes => rw [hs] at hq; cases hq
  | failed since transient => rw [hs] at hq; cases hq

theorem Accounts.drop (c' : PreviewCache T R K) (h : c.Accounts running) (hk : k ∈ c.queue)
    (hrec : c'.records = c.records.erase k) (hn : c'.queue.Nodup)
    (hq : ∀ k', k' ∈ c'.queue ↔ k' ≠ k ∧ k' ∈ c.queue) (hf : c'.inFlight = c.inFlight)
    (hb : c'.readyBytes = c.readyBytes) (hg : c'.generation = c.generation) (hj : c'.jobs = c.jobs)
    (he : c'.enabled = c.enabled) (hrel : c'.released = c.released) :
    c'.Accounts running ∧ c'.held = c.held ∧ ∀ job, c'.Loads job → c.Loads job := by
  obtain ⟨r, hr, hs⟩ := h.queued_record hk
  refine ⟨h.erase k hrec hn hq hf ?_ hg hj he, ?_, ?_⟩
  · unfold chargeOf
    rw [hb, hr, Option.map_some, hs]
    rfl
  · have himage : r.state.image = 0 := by
      rw [hs]
      rfl
    unfold PreviewCache.held
    rw [hrec, hrel, Map.total_of_lookup hr, himage, zero_add]
  · rintro job ⟨r', confirmed, hr', hstate⟩
    rw [hrec, Map.lookup_erase] at hr'
    split at hr'
    · cases hr'
    · exact ⟨r', confirmed, hr', hstate⟩

/-- A request whose record is queued, but whose key is not in the queue yet. -/
structure Joining (c c' : PreviewCache T R K) (running : List (Job K)) (source : K) : Prop where
  accounts : Accounts { c' with queue := c'.queue ++ [source] } running
  queue : c'.queue.length ≤ c.queue.length
  slots : c'.inFlight = c.inFlight
  held : c'.held = c.held
  loads : ∀ job, c'.Loads job → c.Loads job
  jobs : c'.jobs = c.jobs
  limits : c'.limits = c.limits

theorem Joining.new {c' : PreviewCache T R K} (h : c.Accounts running) (hon : c.enabled = true)
    (hno : k ∉ c.queue) (hr : r.state = .queued)
    (hold : ∀ r, c.records.lookup k = some r → r.state.charge = 0 ∧ r.state.image = 0)
    (hrec : c'.records = c.records.insert k r) (hqueue : c'.queue = c.queue)
    (hf : c'.inFlight = c.inFlight) (hb : c'.readyBytes = c.readyBytes)
    (hg : c'.generation = c.generation) (hj : c'.jobs = c.jobs) (he : c'.enabled = c.enabled)
    (hrel : c'.released = c.released) (hl : c'.limits = c.limits) : Joining c c' running k := by
  refine ⟨?_, hqueue ▸ le_rfl, hf, ?_, ?_, hj, hl⟩
  · refine h.update k r hrec ?_ ?_ (hf.trans h.inFlight) ?_ hg ?_ (fun job hmem _ => hmem) h.serials
      (hj.symm ▸ h.numbered) (he.trans hon)
    · rw [hqueue]
      exact List.nodup_append.mpr ⟨h.nodup, List.nodup_singleton k, fun a ha b hb heq =>
        hno (List.mem_singleton.mp hb ▸ heq ▸ ha)⟩
    · intro k'
      rw [hqueue, List.mem_append, List.mem_singleton]
      split
      · subst k'
        simp [hr, State.isQueued]
      · simp [*]
    · have hc : c.chargeOf k = 0 := by
        unfold chargeOf
        cases hk : c.records.lookup k with
        | none => rfl
        | some r₀ => exact (hold r₀ hk).1
      change c'.readyBytes + _ = _
      rw [hb, hc, hr]
      rfl
    · intro serial confirmed hs
      rw [hr] at hs
      cases hs
  · have himage : r.state.image = 0 := by
      rw [hr]
      rfl
    unfold PreviewCache.held
    rw [hrec, hrel]
    cases hk : c.records.lookup k with
    | none => rw [Map.total_insert_new hk, himage, zero_add]
    | some r₀ =>
      have ht := Map.total_replace (f := fun r : Record T R => r.state.image) (w := r) hk
      rw [(hold r₀ hk).2, himage, zero_add, zero_add] at ht
      rw [ht]
  · rintro job ⟨r', confirmed, hr', hstate⟩
    rw [hrec, Map.lookup_insert] at hr'
    split at hr'
    · cases hr'
      rw [hr] at hstate
      cases hstate
    · exact ⟨r', confirmed, hr', hstate⟩

theorem enqueue_accounts {c' : PreviewCache T R K} {source : K} (h : Joining c c' running source)
    (hq : c.queue.length ≤ c.limits.maxQueued) :
    (c'.enqueue source).Accounts running ∧ (c'.enqueue source).held = c.held ∧
      (∀ job, (c'.enqueue source).Loads job → c.Loads job) ∧
      (c'.enqueue source).queue.length ≤ c.limits.maxQueued ∧
      (c'.enqueue source).inFlight = c.inFlight ∧ (c'.enqueue source).jobs = c.jobs ∧
      (c'.enqueue source).limits = c.limits := by
  have ha := h.accounts
  have hlen : (c'.queue ++ [source]).length ≤ c.limits.maxQueued + 1 := by
    rw [List.length_append]
    exact Nat.succ_le_succ (h.queue.trans hq)
  have hne : c'.queue ++ [source] ≠ [] := by simp
  unfold enqueue
  generalize c'.queue ++ [source] = l at ha hlen hne
  cases l with
  | nil => exact absurd rfl hne
  | cons oldest rest =>
    dsimp only
    split
    · have hno : oldest ∉ rest := (List.nodup_cons.mp ha.nodup).1
      have hd := Accounts.drop { c' with
          queue := rest
          records := c'.records.erase oldest
          stats := { c'.stats with droppedFromQueue := c'.stats.droppedFromQueue + 1 } } ha
        (List.mem_cons_self ..) rfl (List.nodup_cons.mp ha.nodup).2 ?_ rfl rfl rfl rfl rfl rfl
      · refine ⟨hd.1, hd.2.1.trans h.held, fun job hj => h.loads job (hd.2.2 job hj), ?_, h.slots,
          h.jobs, h.limits⟩
        exact Nat.le_of_succ_le_succ hlen
      · intro k'
        constructor
        · exact fun hmem => ⟨fun heq => hno (heq ▸ hmem), List.mem_cons_of_mem _ hmem⟩
        · exact fun hmem => (List.mem_cons.mp hmem.2).resolve_left hmem.1
    · rename_i hle
      refine ⟨ha, h.held, h.loads, ?_, h.slots, h.jobs, h.limits⟩
      rw [h.limits] at hle
      exact not_lt.mp hle

variable [BEq R] {source : K} {waiter : R} {now : Instant}

theorem touch_spec (h : c.Accounts running) (hb : c.Bounded) (hon : c.enabled = true) (source : K)
    (waiter : R) (now : Instant) :
    if (c.touch source waiter now).2.1 then
      Joining c (c.touch source waiter now).1 running source
    else Kept c (c.touch source waiter now).1 running 0 := by
  cases hk : c.records.lookup source with
  | none =>
    have ht : c.touch source waiter now = ({ c with
        records := c.records.insert source
          { state := .queued, lastUsed := c.clock, waiters := [waiter] } }, true, true) := by
      unfold touch
      rw [hk]
    rw [ht]
    refine Joining.new h hon ?_ (r := ⟨.queued, c.clock, 0, [waiter]⟩) rfl ?_ rfl rfl rfl rfl rfl rfl
      rfl rfl rfl
    · intro hmem
      obtain ⟨r, hr, -⟩ := h.queued_record hmem
      rw [hk] at hr
      cases hr
    · intro r hr
      rw [hk] at hr
      cases hr
  | some r =>
    have hsettled : r.state.isQueued = false → source ∉ c.queue := by
      intro hq hmem
      obtain ⟨r', hr', hs'⟩ := h.queued_record hmem
      rw [hk] at hr'
      cases hr'
      rw [hs'] at hq
      cases hq
    cases hs : r.state with
    | ready value bytes =>
      have ht : c.touch source waiter now = ({ c with
          records := c.records.insert source { r with lastUsed := c.clock } }, false, false) := by
        unfold touch
        rw [hk]
        dsimp only
        rw [hs]
      rw [ht]
      exact Kept.modify { r with lastUsed := c.clock } h hb hk rfl rfl (.refl _) rfl rfl rfl
        rfl rfl rfl rfl
    | loading serial confirmed =>
      have hno := hsettled (by rw [hs]; rfl)
      have ht : c.touch source waiter now = ((c.await source { r with lastUsed := c.clock } waiter
          false).1, (c.await source { r with lastUsed := c.clock } waiter false).2, true) := by
        unfold touch
        rw [hk]
        dsimp only
        rw [hs]
      rw [ht]
      unfold await
      dsimp only
      rw [if_neg (by simp [hno])]
      refine Kept.modify { r with
        lastUsed := c.clock, waiters := addWaiter r.waiters waiter c.limits.maxWaiters } h hb hk rfl
        rfl ?_ rfl rfl rfl rfl rfl rfl rfl
      rw [List.erase_of_not_mem hno]
    | queued =>
      have hmem : source ∈ c.queue := (h.queued source).mpr ⟨r, hk, by rw [hs]; rfl⟩
      have ht : c.touch source waiter now = ((c.await source { r with lastUsed := c.clock } waiter
          false).1, (c.await source { r with lastUsed := c.clock } waiter false).2, true) := by
        unfold touch
        rw [hk]
        dsimp only
        rw [hs]
      rw [ht]
      unfold await
      dsimp only
      rw [if_pos (by simp [hmem])]
      have hm : Kept c { c with
          queue := c.queue.erase source ++ [source]
          records := c.records.insert source { r with
            lastUsed := c.clock, waiters := addWaiter r.waiters waiter c.limits.maxWaiters } }
          running 0 :=
        Kept.modify { r with
          lastUsed := c.clock, waiters := addWaiter r.waiters waiter c.limits.maxWaiters } h hb hk
          rfl rfl (perm_erase_append hmem) rfl rfl rfl rfl rfl rfl rfl
      refine ⟨hm.accounts, List.length_erase_le, rfl, hm.held.trans (add_zero _), ?_, rfl, rfl⟩
      intro job hj
      rcases hm.loads job hj with hl | hlt
      · exact hl
      · obtain ⟨r', confirmed, hr', hstate⟩ := hj
        exact absurd (h.numbered _ (hm.accounts.loaded _ r' _ confirmed hr' hstate)) (not_le.mpr hlt)
    | failed since transient =>
      have hno := hsettled (by rw [hs]; rfl)
      have ht : c.touch source waiter now =
          if c.retries { r with lastUsed := c.clock } since transient now then
            ((c.await source { r with lastUsed := c.clock, state := .queued } waiter true).1,
              (c.await source { r with lastUsed := c.clock, state := .queued } waiter true).2, true)
          else ({ c with records := c.records.insert source { r with lastUsed := c.clock } },
            false, false) := by
        unfold touch
        rw [hk]
        dsimp only
        rw [hs]
      rw [ht]
      split
      · refine Joining.new h hon hno (r := ⟨.queued, c.clock, r.attempts,
          addWaiter r.waiters waiter c.limits.maxWaiters⟩) rfl ?_ rfl (List.erase_of_not_mem hno) rfl
          rfl rfl rfl rfl rfl rfl
        intro r' hr'
        rw [hk] at hr'
        cases hr'
        rw [hs]
        exact ⟨rfl, rfl⟩
      · exact Kept.modify { r with lastUsed := c.clock } h hb hk rfl rfl (.refl _) rfl rfl
          rfl rfl rfl rfl rfl

theorem request_kept (h : c.Accounts running) (hb : c.Bounded)
    (hl : c.limits.maxQueued + c.limits.maxInFlight + 1 ≤ c.limits.maxRecords) :
    Kept c (c.request source waiter now).1 running 0 := by
  cases hon : c.enabled with
  | false =>
    have hr : (c.request source waiter now).1 = c := by
      unfold request
      rw [hon]
      rfl
    rw [hr]
    exact Kept.refl h hb
  | true =>
    set c₀ : PreviewCache T R K := { c with clock := c.clock + 1 }
    have hr : (c.request source waiter now).1 =
        if (c₀.touch source waiter now).2.1 then
          ((c₀.touch source waiter now).1.enqueue source).evict (some source)
        else (c₀.touch source waiter now).1 := by
      unfold request
      rw [if_neg (by simp [hon])]
    have h₀ : c₀.Accounts running :=
      ⟨h.nodup, h.queued, h.inFlight, h.bytes, h.loaded, h.serials, h.numbered, h.off⟩
    have hb₀ : c₀.Bounded := ⟨hb.queue, hb.slots, hb.records, hb.budget⟩
    have ht := touch_spec h₀ hb₀ hon source waiter now
    rw [hr]
    split
    · rw [if_pos ‹_›] at ht
      obtain ⟨ha, hheld, hloads, hq, hf, hj, hlim⟩ := enqueue_accounts ht hb₀.queue
      refine ⟨evict_accounts ha _, ?_, ?_, ?_, ?_, ?_⟩
      · refine evict_bounded ha _ ?_ ?_ ?_
        · rw [hlim]
          exact hl
        · rw [hlim]
          exact hq
        · rw [hlim, hf]
          exact hb.slots
      · rw [evict_held, hheld, add_zero]
        rfl
      · exact fun job hj' => .inl (hloads job (evict_loads hj'))
      · rw [(evict_frame _ _).2.2.2, hj]
      · rw [(evict_frame _ _).2.2.1, hlim]
    · rw [if_neg ‹_›] at ht
      exact ⟨ht.accounts, ht.bounded, ht.held, ht.loads, ht.jobs, ht.limits⟩

end Requesting

end PreviewCache

end CayenChat.Media
