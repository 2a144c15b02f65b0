import CayenChat.Media.Cache

/-! # The accounts of the cache

The queue, the job slots and the bytes agree with the records. What the change
of one record means for them; evicting keeps the accounts and restores the
limits.
-/

namespace CayenChat.Media

namespace PreviewCache

variable {T R K : Type*} {c : PreviewCache T R K}

theorem evictable_spec {s : State T} (h : c.evictable s = true) :
    s.isQueued = false ∧ s.isLoading = false := by
  cases s with
  | queued => cases h
  | loading serial confirmed => cases h
  | ready value bytes => exact ⟨rfl, rfl⟩
  | failed since transient => exact ⟨rfl, rfl⟩

variable [DecidableEq K] {k : K} {r : Record T R} {keep : Option K} {running : List (Job K)}
  {job : Job K}

def outline : State T → State T
  | .loading serial _ => .loading serial false
  | s => s

theorem outline_spec {s s' : State T} (h : outline s' = outline s) :
    s'.isQueued = s.isQueued ∧ s'.isReady = s.isReady ∧ s'.charge = s.charge ∧
      s'.image = s.image ∧ ∀ serial confirmed, s' = .loading serial confirmed →
        ∃ confirmed, s = .loading serial confirmed := by
  cases s with
  | loading serial confirmed =>
    cases s' <;> cases h
    exact ⟨rfl, rfl, rfl, rfl, fun _ _ heq => ⟨confirmed, by cases heq; rfl⟩⟩
  | queued =>
    cases s' <;> cases h
    exact ⟨rfl, rfl, rfl, rfl, fun _ _ heq => by cases heq⟩
  | ready value bytes =>
    cases s' <;> cases h
    exact ⟨rfl, rfl, rfl, rfl, fun _ _ heq => by cases heq⟩
  | failed since transient =>
    cases s' <;> cases h
    exact ⟨rfl, rfl, rfl, rfl, fun _ _ heq => by cases heq⟩

def held (c : PreviewCache T R K) : Multiset T :=
  Map.total (fun r => r.state.image) c.records + c.released

def Loads (c : PreviewCache T R K) (job : Job K) : Prop :=
  ∃ r confirmed, c.records.lookup job.source = some r ∧ r.state = .loading job.serial confirmed

/-- Queue, slots, bytes and loads agree with the records. -/
structure Accounts (c : PreviewCache T R K) (running : List (Job K)) : Prop where
  nodup : c.queue.Nodup
  queued : ∀ k, k ∈ c.queue ↔ ∃ r, c.records.lookup k = some r ∧ r.state.isQueued = true
  inFlight : c.inFlight = running.length
  bytes : c.readyBytes = Map.total (fun r => r.state.charge) c.records
  /-- Every load has a running job. -/
  loaded : ∀ k r serial confirmed, c.records.lookup k = some r →
    r.state = .loading serial confirmed → ⟨k, c.generation, serial⟩ ∈ running
  serials : (running.map Job.serial).Nodup
  numbered : ∀ job ∈ running, job.serial ≤ c.jobs
  off : c.enabled = false → c.records = ∅

/-- The limits hold; the budget is exceeded by a single image only. -/
structure Bounded (c : PreviewCache T R K) : Prop where
  queue : c.queue.length ≤ c.limits.maxQueued
  slots : c.inFlight ≤ c.limits.maxInFlight
  records : c.records.entries.length ≤ c.limits.maxRecords
  budget : c.limits.budgetBytes < c.readyBytes →
    Map.count (fun r : Record T R => r.state.isReady) c.records ≤ 1

section Evicting

theorem victim_eq_some (h : c.victim keep = some k) :
    some k ≠ keep ∧ ∃ r, c.records.lookup k = some r ∧ c.evictable r.state = true := by
  obtain ⟨e, he, rfl⟩ := Option.map_eq_some_iff.mp h
  obtain ⟨hmem, hp⟩ := List.mem_filter.mp (List.argmin_mem he)
  rw [Bool.and_eq_true, decide_eq_true_eq] at hp
  exact ⟨hp.1, e.2, AList.mem_lookup_iff.mpr hmem, hp.2⟩

theorem victim_eq_none (h : c.victim keep = none) (hk : c.records.lookup k = some r)
    (hne : some k ≠ keep) : c.evictable r.state = false := by
  have hnil := List.argmin_eq_none.mp (Option.map_eq_none_iff.mp h)
  by_contra he
  rw [Bool.not_eq_false] at he
  have hmem : Sigma.mk k r ∈ c.records.entries.filter fun e =>
      some e.1 ≠ keep && c.evictable e.2.state :=
    List.mem_filter.mpr ⟨AList.mem_lookup_iff.mp hk, by simp [hne, he]⟩
  rw [hnil] at hmem
  cases hmem

theorem evict_induction {P : PreviewCache T R K → Prop} (h0 : P c)
    (h : ∀ c k, P c → c.victim keep = some k → P (c.evictOne k)) : P (c.evict keep) := by
  suffices hf : ∀ n c, P c → P (evictFrom n keep c) from hf _ _ h0
  intro n
  induction n with
  | zero => exact fun c hc => hc
  | succ n ih =>
    intro c hc
    unfold evictFrom
    split
    · split
      · exact ih _ (h _ _ hc ‹_›)
      · exact hc
    · exact hc

theorem evictOne_length (h : c.victim keep = some k) :
    (c.evictOne k).records.entries.length + 1 = c.records.entries.length := by
  obtain ⟨-, r, hk, -⟩ := victim_eq_some h
  have hr : (c.evictOne k).records = c.records.erase k := by
    unfold evictOne remove
    rw [hk]
  rw [hr]
  exact Map.length_erase_of_lookup hk

theorem evict_done (c : PreviewCache T R K) (keep : Option K) :
    (c.evict keep).overfull = false ∨ (c.evict keep).victim keep = none := by
  suffices hf : ∀ n (c : PreviewCache T R K), c.records.entries.length ≤ n →
      (evictFrom n keep c).overfull = false ∨ (evictFrom n keep c).victim keep = none from
    hf _ c le_rfl
  intro n
  induction n with
  | zero =>
    intro c hc
    right
    rcases hv : c.victim keep with _ | k
    · exact hv
    · have := evictOne_length hv
      omega
  | succ n ih =>
    intro c hc
    unfold evictFrom
    split
    · split
      · rename_i k hv
        have := evictOne_length hv
        exact ih _ (by omega)
      · exact .inr ‹_›
    · rename_i hno
      exact .inl (Bool.not_eq_true _ ▸ hno)

theorem remove_eq (hk : c.records.lookup k = some r) :
    c.remove k = { c with
      records := c.records.erase k
      readyBytes := c.readyBytes - r.state.charge
      released := c.released + r.state.image } := by
  unfold remove
  rw [hk]

theorem remove_held (c : PreviewCache T R K) (k : K) : (c.remove k).held = c.held := by
  cases hk : c.records.lookup k with
  | none =>
    unfold remove
    rw [hk]
  | some r =>
    rw [remove_eq hk]
    unfold held
    dsimp only
    rw [Map.total_of_lookup hk, add_comm c.released, ← add_assoc]
    exact congrArg (· + _) (add_comm ..)

def chargeOf (c : PreviewCache T R K) (k : K) : ℕ :=
  ((c.records.lookup k).map (·.state.charge)).getD 0

theorem chargeOf_eq (c : PreviewCache T R K) (k : K) :
    Map.total (fun r => r.state.charge) c.records =
      c.chargeOf k + Map.total (fun r => r.state.charge) (c.records.erase k) := by
  unfold chargeOf
  cases hk : c.records.lookup k with
  | none =>
    rw [Map.erase_of_lookup hk]
    exact (Nat.zero_add _).symm
  | some r => exact Map.total_of_lookup hk

theorem Accounts.erase {c' : PreviewCache T R K} (h : c.Accounts running) (k : K)
    (hrec : c'.records = c.records.erase k) (hn : c'.queue.Nodup)
    (hq : ∀ k', k' ∈ c'.queue ↔ k' ≠ k ∧ k' ∈ c.queue) (hf : c'.inFlight = c.inFlight)
    (hb : c'.readyBytes + c.chargeOf k = c.readyBytes) (hg : c'.generation = c.generation)
    (hj : c'.jobs = c.jobs) (he : c'.enabled = c.enabled) : c'.Accounts running := by
  have hl : ∀ k', c'.records.lookup k' = if k' = k then none else c.records.lookup k' := fun k' => by
    rw [hrec, Map.lookup_erase]
  constructor
  · exact hn
  · intro k'
    rw [hq, h.queued, hl]
    split
    · simp [*]
    · simp [*]
  · rw [hf, h.inFlight]
  · have := chargeOf_eq c k
    have := h.bytes
    rw [hrec]
    omega
  · intro k' r' serial confirmed hr'
    rw [hl] at hr'
    rw [hg]
    split at hr'
    · cases hr'
    · exact h.loaded k' r' serial confirmed hr'
  · exact h.serials
  · exact hj ▸ h.numbered
  · intro hoff
    rw [hrec, h.off (he ▸ hoff)]
    rfl

theorem Accounts.update {c' : PreviewCache T R K} {running' : List (Job K)}
    (h : c.Accounts running) (k : K) (r : Record T R) (hrec : c'.records = c.records.insert k r)
    (hn : c'.queue.Nodup) (hq : ∀ k', k' ∈ c'.queue ↔ if k' = k then r.state.isQueued = true
      else k' ∈ c.queue) (hf : c'.inFlight = running'.length)
    (hb : c'.readyBytes + c.chargeOf k = c.readyBytes + r.state.charge)
    (hg : c'.generation = c.generation)
    (hl : ∀ serial confirmed, r.state = .loading serial confirmed →
      ⟨k, c.generation, serial⟩ ∈ running')
    (hk : ∀ job ∈ running, job.source ≠ k → job ∈ running')
    (hs : (running'.map Job.serial).Nodup) (hj : ∀ job ∈ running', job.serial ≤ c'.jobs)
    (he : c'.enabled = true) : c'.Accounts running' := by
  have hlook : ∀ k', c'.records.lookup k' = if k' = k then some r else c.records.lookup k' :=
    fun k' => by rw [hrec, Map.lookup_insert]
  constructor
  · exact hn
  · intro k'
    rw [hq, hlook]
    split
    · simp
    · exact h.queued k'
  · exact hf
  · have := chargeOf_eq c k
    have := h.bytes
    rw [hrec, Map.total_insert]
    omega
  · intro k' r' serial confirmed hr' hstate
    rw [hlook] at hr'
    rw [hg]
    split at hr'
    · cases hr'
      subst k'
      exact hl serial confirmed hstate
    · exact hk _ (h.loaded k' r' serial confirmed hr' hstate) ‹_›
  · exact hs
  · exact hj
  · intro hoff
    rw [he] at hoff
    cases hoff

theorem Accounts.on (h : c.Accounts running) (hk : c.records.lookup k = some r) :
    c.enabled = true := by
  by_contra hoff
  rw [h.off (Bool.not_eq_true _ ▸ hoff)] at hk
  cases hk

theorem Accounts.modify {c' : PreviewCache T R K} (h : c.Accounts running)
    (hk : c.records.lookup k = some r) {r' : Record T R} (hs : outline r'.state = outline r.state)
    (hrec : c'.records = c.records.insert k r') (hp : c'.queue.Perm c.queue)
    (hf : c'.inFlight = c.inFlight) (hb : c'.readyBytes = c.readyBytes)
    (hg : c'.generation = c.generation) (hj : c'.jobs = c.jobs) (he : c'.enabled = c.enabled) :
    c'.Accounts running := by
  obtain ⟨hq, -, hc, -, hl⟩ := outline_spec hs
  refine h.update k r' hrec (hp.nodup_iff.mpr h.nodup) ?_ (hf.trans h.inFlight) ?_ hg ?_ ?_
    h.serials (hj ▸ h.numbered) (he.trans (h.on hk))
  · intro k'
    rw [hp.mem_iff]
    split
    · subst k'
      rw [h.queued, hk, hq]
      simp
    · rfl
  · unfold chargeOf
    rw [hb, hk, hc]
    rfl
  · intro serial confirmed hstate
    obtain ⟨confirmed', hstate'⟩ := hl serial confirmed hstate
    exact h.loaded k r serial confirmed' hk hstate'
  · exact fun job hmem _ => hmem

theorem Accounts.remove (h : c.Accounts running) (hk : c.records.lookup k = some r)
    (hq : r.state.isQueued = false) : (c.remove k).Accounts running := by
  have hno : k ∉ c.queue := by
    intro hmem
    obtain ⟨r', hr', hq'⟩ := (h.queued k).mp hmem
    rw [hk] at hr'
    cases hr'
    rw [hq] at hq'
    cases hq'
  rw [remove_eq hk]
  refine h.erase k rfl h.nodup ?_ rfl ?_ rfl rfl rfl
  · intro k'
    constructor
    · exact fun hmem => ⟨fun heq => hno (heq ▸ hmem), hmem⟩
    · exact fun hmem => hmem.2
  · have := chargeOf_eq c k
    have := h.bytes
    have hc : c.chargeOf k = r.state.charge := by
      unfold chargeOf
      rw [hk]
      rfl
    change c.readyBytes - r.state.charge + _ = _
    omega

theorem Accounts.stats (h : c.Accounts running) (stats : Stats) :
    Accounts { c with stats } running :=
  ⟨h.nodup, h.queued, h.inFlight, h.bytes, h.loaded, h.serials, h.numbered, h.off⟩

theorem evictOne_accounts (h : c.Accounts running) (hv : c.victim keep = some k) :
    (c.evictOne k).Accounts running := by
  obtain ⟨-, r, hk, he⟩ := victim_eq_some hv
  exact (h.remove hk (evictable_spec he).1).stats _

theorem evict_accounts (h : c.Accounts running) (keep : Option K) :
    (c.evict keep).Accounts running :=
  evict_induction h fun _ _ hc hv => evictOne_accounts hc hv

theorem evict_held (c : PreviewCache T R K) (keep : Option K) : (c.evict keep).held = c.held :=
  evict_induction (P := fun c' => c'.held = c.held) rfl fun c' k hc _ =>
    (remove_held c' k).trans hc

theorem evictOne_frame (c : PreviewCache T R K) (k : K) : (c.evictOne k).queue = c.queue ∧
    (c.evictOne k).inFlight = c.inFlight ∧ (c.evictOne k).limits = c.limits ∧
      (c.evictOne k).jobs = c.jobs := by
  unfold evictOne PreviewCache.remove
  dsimp only
  split
  · exact ⟨rfl, rfl, rfl, rfl⟩
  · exact ⟨rfl, rfl, rfl, rfl⟩

theorem evict_frame (c : PreviewCache T R K) (keep : Option K) :
    (c.evict keep).queue = c.queue ∧ (c.evict keep).inFlight = c.inFlight ∧
      (c.evict keep).limits = c.limits ∧ (c.evict keep).jobs = c.jobs := by
  refine evict_induction (P := fun c' => c'.queue = c.queue ∧ c'.inFlight = c.inFlight ∧
    c'.limits = c.limits ∧ c'.jobs = c.jobs) ⟨rfl, rfl, rfl, rfl⟩ ?_
  rintro c' k ⟨hq, hf, hl, hj⟩ -
  obtain ⟨hq', hf', hl', hj'⟩ := evictOne_frame c' k
  exact ⟨hq'.trans hq, hf'.trans hf, hl'.trans hl, hj'.trans hj⟩

theorem evict_lookup (h : (c.evict keep).records.lookup k = some r) :
    c.records.lookup k = some r := by
  refine evict_induction (c := c) (P := fun c' => c'.records.lookup k = some r →
    c.records.lookup k = some r) (fun h => h) ?_ h
  intro c' k' hc hv h'
  obtain ⟨-, r', hk', -⟩ := victim_eq_some hv
  apply hc
  have hr : (c'.evictOne k').records = c'.records.erase k' := by
    unfold evictOne
    rw [remove_eq hk']
  rw [hr, Map.lookup_erase] at h'
  split at h'
  · cases h'
  · exact h'

theorem evict_loads (h : (c.evict keep).Loads job) : c.Loads job := by
  obtain ⟨r, confirmed, hr, hs⟩ := h
  exact ⟨r, confirmed, evict_lookup hr, hs⟩

theorem length_records (c : PreviewCache T R K) : c.records.entries.length =
    Map.count (fun r => r.state.isQueued) c.records +
      Map.count (fun r => r.state.isLoading) c.records +
        Map.count (fun r => !r.state.isQueued && !r.state.isLoading) c.records := by
  unfold Map.count
  rw [← Map.total_one, ← Map.total_add, ← Map.total_add]
  refine Map.total_congr fun k r _ => ?_
  obtain ⟨state, -, -, -⟩ := r
  cases state <;> rfl

theorem Accounts.settled_lt (h : c.Accounts running) : c.records.entries.length ≤
    c.queue.length + c.inFlight +
      Map.count (fun r => !r.state.isQueued && !r.state.isLoading) c.records := by
  have hq : Map.count (fun r : Record T R => r.state.isQueued) c.records ≤ c.queue.length :=
    Map.count_le fun k r hk hr => (h.queued k).mpr ⟨r, hk, hr⟩
  have hl : Map.count (fun r : Record T R => r.state.isLoading) c.records ≤
      (running.map Job.source).length := by
    refine Map.count_le fun k r hk hr => ?_
    obtain ⟨serial, confirmed, hs⟩ : ∃ serial confirmed, r.state = .loading serial confirmed := by
      cases hs : r.state with
      | loading serial confirmed => exact ⟨serial, confirmed, rfl⟩
      | queued => rw [hs] at hr; cases hr
      | ready value bytes => rw [hs] at hr; cases hr
      | failed since transient => rw [hs] at hr; cases hr
    exact List.mem_map.mpr ⟨_, h.loaded k r serial confirmed hk hs, rfl⟩
  rw [List.length_map, ← h.inFlight] at hl
  have := length_records c
  omega

theorem evict_bounded (h : c.Accounts running) (keep : Option K)
    (hl : c.limits.maxQueued + c.limits.maxInFlight + 1 ≤ c.limits.maxRecords)
    (hq : c.queue.length ≤ c.limits.maxQueued) (hf : c.inFlight ≤ c.limits.maxInFlight) :
    (c.evict keep).Bounded := by
  obtain ⟨hqe, hfe, hle, -⟩ := evict_frame c keep
  have ha := evict_accounts h keep
  have hd := evict_done c keep
  rw [← hqe, ← hle] at hq
  rw [← hfe, ← hle] at hf
  rw [← hle] at hl
  generalize c.evict keep = c at ha hd hq hf hl
  have hno : c.overfull = true → ∀ k r, c.records.lookup k = some r → some k ≠ keep →
      c.evictable r.state = false := by
    intro ho k r hk hne
    rcases hd with hd | hd
    · rw [hd] at ho
      cases ho
    · exact victim_eq_none hd hk hne
  refine ⟨hq, hf, ?_, ?_⟩
  · by_contra hover
    rw [not_le] at hover
    have hs := ha.settled_lt
    obtain ⟨k, r, hk, hp, hne⟩ := Map.exists_other (p := fun r : Record T R =>
      !r.state.isQueued && !r.state.isLoading) (m := c.records) (by omega) keep
    have he := hno (by simp [overfull, hover]) k r hk hne
    cases hs : r.state with
    | queued => rw [hs] at hp; cases hp
    | loading serial confirmed => rw [hs] at hp; cases hp
    | ready value bytes => rw [hs] at he; cases he
    | failed since transient =>
      rw [hs] at he
      exact of_decide_eq_false he hover
  · intro hover
    have hcount : Map.count (fun r : Record T R => r.state.isReady) c.records ≤
        keep.toList.length := by
      refine Map.count_le fun k r hk hr => ?_
      by_contra hne
      have he := hno (by simp [overfull, hover]) k r hk (fun heq => hne (by simp [← heq]))
      cases hs : r.state with
      | ready value bytes => rw [hs] at he; cases he
      | queued => rw [hs] at hr; cases hr
      | loading serial confirmed => rw [hs] at hr; cases hr
      | failed since transient => rw [hs] at hr; cases hr
    have : keep.toList.length ≤ 1 := by
      cases keep <;> simp
    omega

end Evicting

end PreviewCache

end CayenChat.Media
